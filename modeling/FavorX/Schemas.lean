import FavorX.FiniteMaps

/-!
The index prefixes of a database. The leveldb driver persists the list of all indexes and takes the
byte after the greatest one; the wiredtiger driver persists a map, but looks for the next prefix
only among the indexes that this process has opened. The registry above them has the names in the
order of their creation.
-/
namespace FavorX.Schemas
open FiniteMaps

abbrev Prefix := List UInt8

structure IndexSpec where
  name : String
  keyPrefix : Prefix
  deriving DecidableEq

inductive Err where
  /-- index name cannot be blank -/
  | blankName
  /-- new index name cannot be blank -/
  | blankNewName
  /-- get schema: not found -/
  | getSchema
  /-- reach maximum table number -/
  | maximumTables
  deriving DecidableEq

/-- What is asked of a driver: to open the database in a new process, to give an index its prefix, to rename it. -/
inductive Call where
  | initSchema
  | createIndex (name : String)
  | renameIndex (oldName newName : String)
  deriving DecidableEq

inductive Reply where
  | opened
  | created (keyPrefix : Prefix)
  | renamed (done : Bool)
  | failed (err : Err)
  deriving DecidableEq

/-! ### The leveldb driver -/

namespace LevelDB

/-- The persisted list of indexes, absent in a new database. -/
abbrev State := Option (List IndexSpec)

def keyPrefixIndexStart : UInt8 := 2

def initSchema : State → State
  | none => some []
  | some indexes => some indexes

/-- The loop of `CreateIndex`: the prefix of the index of this name, or else the next free identifier. -/
def scan (name : String) : List IndexSpec → UInt8 → Prefix ⊕ UInt8
  | [], nextID => .inr nextID
  | f :: rest, nextID =>
    let nextID := if nextID ≤ f.keyPrefix.headI then f.keyPrefix.headI + 1 else nextID
    if f.name = name then .inl f.keyPrefix else scan name rest nextID

def createIndex (name : String) : State → Reply × State
  | none => (.failed .getSchema, none)
  | some indexes =>
    match scan name indexes keyPrefixIndexStart with
    | .inl keyPrefix => (.created keyPrefix, some indexes)
    | .inr id => (.created [id], some (indexes ++ [⟨name,[id]⟩]))

/-- The loop of `RenameIndex`, which stops at the first index that has either name. -/
def relabel (oldName newName : String) : List IndexSpec → Bool × List IndexSpec
  | [] => (false, [])
  | f :: rest =>
    if f.name = oldName then (true, { f with name := newName } :: rest)
    else if f.name = newName then (true, f :: rest)
    else ((relabel oldName newName rest).1, f :: (relabel oldName newName rest).2)

def renameIndex (oldName newName : String) (s : State) : Reply × State :=
  if oldName = "" then (.failed .blankName, s)
  else if newName = "" then (.failed .blankNewName, s)
  else if newName = oldName then (.renamed false, s)
  else
    match s with
    | none => (.failed .getSchema, none)
    | some indexes => (.renamed (relabel oldName newName indexes).1, some (relabel oldName newName indexes).2)

def step (s : State) : Call → Reply × State
  | .initSchema => (.opened, initSchema s)
  | .createIndex name => createIndex name s
  | .renameIndex oldName newName => renameIndex oldName newName s

/-- The prefix under which the database knows a name. -/
def assigned (s : State) (name : String) : Option Prefix :=
  ((s.getD []).find? (fun f => f.name = name)).map IndexSpec.keyPrefix

end LevelDB

/-! ### The wiredtiger driver -/

namespace WiredTiger

/-- The persisted index entries of the table `schema_metadata`, and the indexes opened by the process. -/
structure State where
  metadata : Map String Prefix
  indexes : List IndexSpec
  deriving DecidableEq

def defaultIndexKeyPrefix : Prefix := [48]

/-- The next digit, and whether it carries: the digits are `0` to `9` and then `a` to `z`. -/
def carryFn (b : UInt8) : UInt8 × Bool :=
  if b = 57 then (97, false) else if b = 122 then (48, true) else (b + 1, false)

/-- The loop of `indexKeyPrefixIncr` over the digits from the last one on; a carried digit is stepped twice. -/
def incrDigits : List UInt8 → Bool → List UInt8 × Bool
  | [], carry => ([], carry)
  | b :: rest, carry =>
    let b := if carry then (carryFn b).1 else b
    let stepped := carryFn b
    if stepped.2 then
      ((stepped.1 :: (incrDigits rest true).1), (incrDigits rest true).2)
    else (stepped.1 :: rest, false)

/-- The successor of a prefix, or nothing when the maximum table number is reached. -/
def indexKeyPrefixIncr (keyPrefix : Prefix) : Option Prefix :=
  let digits := incrDigits keyPrefix.reverse false
  if digits.2 then none else some digits.1.reverse

/-- The loop of `CreateIndex`: the prefix of the index of this name, or else that of the last index opened. -/
def scan (name : String) : List IndexSpec → Prefix → Prefix ⊕ Prefix
  | [], currentPrefix => .inr currentPrefix
  | i :: rest, _ => if i.name = name then .inl i.keyPrefix else scan name rest i.keyPrefix

def copy (target source : Prefix) : Prefix := source.take target.length ++ target.drop source.length

def initSchema (s : State) : State := { s with indexes := [] }

def createIndex (name : String) (s : State) : Reply × State :=
  match scan name s.indexes defaultIndexKeyPrefix with
  | .inl keyPrefix => (.created keyPrefix, s)
  | .inr currentPrefix =>
    match s.metadata.lookup name with
    | some value =>
      (.created (copy currentPrefix value),
        { s with indexes := s.indexes ++ [⟨name,copy currentPrefix value⟩] })
    | none =>
      match indexKeyPrefixIncr currentPrefix with
      -- the entry inserted with the current prefix stays behind
      | none => (.failed .maximumTables, { s with metadata := s.metadata.insert name currentPrefix })
      | some keyPrefix =>
        (.created keyPrefix,
          ⟨s.metadata.insert name keyPrefix,s.indexes ++ [⟨name,keyPrefix⟩]⟩)

/-- The first opened index of the old name takes the new one. -/
def relabel (oldName newName : String) : List IndexSpec → List IndexSpec
  | [] => []
  | i :: rest => if i.name = oldName then { i with name := newName } :: rest else i :: relabel oldName newName rest

def renameIndex (oldName newName : String) (s : State) : Reply × State :=
  match s.metadata.lookup oldName with
  | none => (.renamed false, s)
  | some value =>
    match (s.metadata.erase oldName).lookup newName with
    | none => (.renamed true,
        ⟨(s.metadata.erase oldName).insert newName value,relabel oldName newName s.indexes⟩)
    | some _ => (.renamed false, { s with metadata := s.metadata.erase oldName })

def step (s : State) : Call → Reply × State
  | .initSchema => (.opened, initSchema s)
  | .createIndex name => createIndex name s
  | .renameIndex oldName newName => renameIndex oldName newName s

def assigned (s : State) (name : String) : Option Prefix := s.metadata.lookup name

/-- The prefix of the index that this process opened last. -/
def lastOpened (s : State) : Prefix := (s.indexes.getLast?.map IndexSpec.keyPrefix).getD defaultIndexKeyPrefix

end WiredTiger

/-! ### Either driver -/

inductive Backend where
  | leveldb
  | wiredtiger

def Backend.State : Backend → Type
  | .leveldb => LevelDB.State
  | .wiredtiger => WiredTiger.State

def Backend.fresh : (b : Backend) → b.State
  | .leveldb => LevelDB.initSchema none
  | .wiredtiger => WiredTiger.initSchema ⟨∅,[]⟩

def Backend.step : (b : Backend) → b.State → Call → Reply × b.State
  | .leveldb => LevelDB.step
  | .wiredtiger => WiredTiger.step

def Backend.assigned : (b : Backend) → b.State → String → Option Prefix
  | .leveldb => LevelDB.assigned
  | .wiredtiger => WiredTiger.assigned

/-- How many prefixes the driver can give: the bytes from 2 to 255, the digits from `1` to `z`. -/
def Backend.available : Backend → Nat
  | .leveldb => 254
  | .wiredtiger => 35

def Distinct (assigned : String → Option Prefix) : Prop :=
  ∀ m n p, assigned m = some p → assigned n = some p → m = n

/-- The effect that a call with this reply may have on the prefixes. -/
def Right (before after : String → Option Prefix) : Call → Reply → Prop
  | .initSchema, _ => after = before
  | .createIndex name, .created p =>
    (∀ q, before name = some q → p = q) ∧ after name = some p ∧ ∀ other, other ≠ name → after other = before other
  | .createIndex _, _ => False
  | .renameIndex oldName newName, .renamed true =>
    (∃ p, before oldName = some p) ∧
      ∀ n, after n = if n = newName then before oldName else if n = oldName then none else before n
  | .renameIndex _ _, _ => after = before

/-- The prefixes are distinct and every call has the effect it reports, at every point of a run. -/
def Backend.Sound (b : Backend) : b.State → List Call → Prop
  | s, [] => Distinct (b.assigned s)
  | s, c :: rest => Distinct (b.assigned s) ∧ Right (b.assigned s) (b.assigned (b.step s c).2) c (b.step s c).1 ∧
      b.Sound (b.step s c).2 rest

def Call.names : Call → List String
  | .initSchema => []
  | .createIndex name => [name]
  | .renameIndex oldName newName => [oldName,newName]

def names (calls : List Call) : Finset String := (calls.flatMap Call.names).toFinset

/-- The calls that keep a driver on its track, by the state before them. A renaming must not meet an index that
has the new name already. When the wiredtiger driver creates a new index, no prefix of the database may be beyond
that of the index its process opened last. -/
def Backend.Tracks : (b : Backend) → b.State → Call → Prop
  | _, _, .initSchema => True
  | .leveldb, _, .createIndex _ => True
  | .leveldb, s, .renameIndex oldName newName =>
    oldName = "" ∨ newName = "" ∨ oldName = newName ∨ LevelDB.assigned s newName = none
  | .wiredtiger, s, .createIndex name =>
    WiredTiger.assigned s name = none →
      ∀ n p, WiredTiger.assigned s n = some p → p.headI ≤ (WiredTiger.lastOpened s).headI
  | .wiredtiger, s, .renameIndex oldName newName =>
    WiredTiger.assigned s oldName = none ∨ oldName = newName ∨ WiredTiger.assigned s newName = none

def Backend.AllTrack (b : Backend) : b.State → List Call → Prop
  | _, [] => True
  | s, c :: rest => b.Tracks s c ∧ b.AllTrack (b.step s c).2 rest

theorem bounded_iff {m : Map String Prefix} {top : UInt8} :
    (∀ e ∈ m.entries, e.2.headI ≤ top) ↔ ∀ n p, m.lookup n = some p → p.headI ≤ top := by
  constructor
  · intro bounded n p held
    exact bounded ⟨n,p⟩ (Finmap.mem_lookup_iff.mp held)
  · intro bounded e member
    exact bounded e.1 e.2 (Finmap.mem_lookup_iff.mpr member)

instance Backend.decidableTracks : (b : Backend) → (s : b.State) → (c : Call) → Decidable (b.Tracks s c)
  | .leveldb, _, .initSchema => inferInstanceAs (Decidable True)
  | .wiredtiger, _, .initSchema => inferInstanceAs (Decidable True)
  | .leveldb, _, .createIndex _ => inferInstanceAs (Decidable True)
  | .leveldb, s, .renameIndex oldName newName => inferInstanceAs (Decidable
    (oldName = "" ∨ newName = "" ∨ oldName = newName ∨ LevelDB.assigned s newName = none))
  | .wiredtiger, s, .createIndex name =>
    have : Decidable (∀ n p, WiredTiger.assigned s n = some p → p.headI ≤ (WiredTiger.lastOpened s).headI) :=
      decidable_of_iff _ bounded_iff
    inferInstanceAs (Decidable (WiredTiger.assigned s name = none →
      ∀ n p, WiredTiger.assigned s n = some p → p.headI ≤ (WiredTiger.lastOpened s).headI))
  | .wiredtiger, s, .renameIndex oldName newName => inferInstanceAs (Decidable
    (WiredTiger.assigned s oldName = none ∨ oldName = newName ∨ WiredTiger.assigned s newName = none))

instance Backend.decidableAllTrack (b : Backend) : (s : b.State) → (calls : List Call) → Decidable (b.AllTrack s calls)
  | _, [] => inferInstanceAs (Decidable True)
  | s, c :: rest =>
    have := b.decidableAllTrack (b.step s c).2 rest
    inferInstanceAs (Decidable (b.Tracks s c ∧ b.AllTrack (b.step s c).2 rest))

/-! ### The registry -/

variable {used : Finset String} {name oldName newName : String}

variable {registry : List String}

section
variable (rung : Nat → Prefix)

/-- The prefix of a name in a list of names whose first one has the rung `k`. -/
def placed : Nat → List String → String → Option Prefix
  | _, [], _ => none
  | k, n :: rest, m => if n = m then some (rung k) else placed (k + 1) rest m

/-- The registry after a call: a new name goes to the end, a renamed one keeps its place. -/
def register (registry : List String) : Call → List String
  | .initSchema => registry
  | .createIndex name => if name ∈ registry then registry else registry ++ [name]
  | .renameIndex oldName newName =>
    if newName ∈ registry then registry else registry.map (fun n => if n = oldName then newName else n)

variable {rung}

section
variable (registry : List String)

variable {registry} in
theorem placed_eq_none {m : String} {k : Nat} : placed rung k registry m = none ↔ m ∉ registry := by
  induction registry generalizing k with
  | nil => simp [placed]
  | cons n rest ih =>
    by_cases same : n = m
    · simp [placed,same]
    · simp [placed,same,ih,Ne.symm same]

variable {registry} in
theorem placed_at {m : String} {p : Prefix} (k : Nat) (held : placed rung k registry m = some p) :
    ∃ j, registry[j]? = some m ∧ p = rung (k + j) := by
  induction registry generalizing k with
  | nil => simp only [placed,reduceCtorEq] at held
  | cons n rest ih =>
    by_cases same : n = m
    · simp only [placed,same,if_true,Option.some.injEq] at held
      exact ⟨0,by simp [same],held.symm⟩
    · simp only [placed,same,if_false] at held
      obtain ⟨j,found,equal⟩ := ih (k + 1) held
      exact ⟨j + 1,by simpa using found,by rw [equal]; congr 1; omega⟩

theorem placed_of_place {m : String} (nodup : registry.Nodup) (k j : Nat) (found : registry[j]? = some m) :
    placed rung k registry m = some (rung (k + j)) := by
  induction registry generalizing k j with
  | nil => simp at found
  | cons n rest ih =>
    obtain ⟨fresh,nodup⟩ := List.nodup_cons.mp nodup
    cases j with
    | zero =>
      simp only [List.getElem?_cons_zero,Option.some.injEq] at found
      simp [placed,found]
    | succ j =>
      have other : n ≠ m := fun same => fresh (same ▸ List.mem_of_getElem? found)
      simp only [placed,other,if_false,ih nodup (k + 1) j found]
      congr 2
      omega

variable {registry} in
theorem placed_append (absent : name ∉ registry) (k : Nat) (m : String) :
    placed rung k (registry ++ [name]) m =
      if m = name then some (rung (k + registry.length)) else placed rung k registry m := by
  induction registry generalizing k with
  | nil => simp [placed,eq_comm]
  | cons n rest ih =>
    simp only [List.mem_cons,not_or] at absent
    simp only [List.cons_append,placed,ih absent.2,List.length_cons]
    by_cases same : n = m
    · have other : m ≠ name := fun equal => absent.1 (equal.symm.trans same.symm)
      simp [same,other]
    · simp [same,show k + 1 + rest.length = k + (rest.length + 1) by omega]

theorem placed_map (absent : newName ∉ registry) (k : Nat) (m : String) :
    placed rung k (registry.map (fun n => if n = oldName then newName else n)) m =
      if m = newName then placed rung k registry oldName
      else if m = oldName then none else placed rung k registry m := by
  induction registry generalizing k with
  | nil => simp [placed,ite_self]
  | cons n rest ih =>
    simp only [List.mem_cons,not_or] at absent
    simp only [List.map_cons,placed,ih absent.2]
    by_cases isOld : n = oldName
    · by_cases isNew : m = newName
      · simp [isOld,isNew]
      by_cases gone : m = oldName
      · subst gone
        simp [isOld,isNew,Ne.symm isNew]
      · simp [isOld,isNew,gone,Ne.symm isNew,Ne.symm gone]
    by_cases isNew : m = newName
    · have other : n ≠ newName := Ne.symm absent.1
      simp [isOld,isNew,other]
    by_cases gone : m = oldName
    · subst gone
      simp [isOld,isNew]
    · simp [isOld,isNew,gone]

end

theorem map_absent (newName : String) (absent : oldName ∉ registry) :
    registry.map (fun n => if n = oldName then newName else n) = registry := by
  refine (List.map_congr_left fun m member => ?_).trans (List.map_id registry)
  have other : m ≠ oldName := fun equal => absent (equal ▸ member)
  simp [other]

/-- Names at different places have different prefixes as long as there are rungs for all. -/
theorem placed_distinct {available : Nat} (room : registry.length ≤ available)
    (injective : ∀ i j, i < available → j < available → rung i = rung j → i = j) :
    Distinct (placed rung 0 registry) := by
  intro m n p left right
  obtain ⟨i,atI,rungI⟩ := placed_at 0 left
  obtain ⟨j,atJ,rungJ⟩ := placed_at 0 right
  have boundI : i < registry.length := (List.getElem?_eq_some_iff.mp atI).1
  have boundJ : j < registry.length := (List.getElem?_eq_some_iff.mp atJ).1
  have same : i = j := injective i j (by omega) (by omega) (by simpa using rungI.symm.trans rungJ)
  rw [same,atJ] at atI
  exact (Option.some.inj atI).symm

theorem register_nodup (nodup : registry.Nodup) (c : Call) : (register registry c).Nodup := by
  cases c with
  | initSchema => exact nodup
  | createIndex name =>
    simp only [register]
    split
    · exact nodup
    · next absent => exact List.nodup_append.mpr ⟨nodup,List.nodup_singleton name,by grind⟩
  | renameIndex oldName newName =>
    simp only [register]
    split
    · exact nodup
    next absent =>
    apply List.Nodup.map_on _ nodup
    grind

theorem register_subset (inside : ∀ n ∈ registry, n ∈ used) (c : Call) (mentioned : ∀ n ∈ c.names, n ∈ used) :
    ∀ n ∈ register registry c, n ∈ used := by
  cases c with
  | initSchema => exact inside
  | createIndex name =>
    intro n member
    simp only [Call.names,List.mem_singleton,forall_eq] at mentioned
    simp only [register] at member
    split at member
    · exact inside n member
    rcases List.mem_append.mp member with old | new
    · exact inside n old
    · rw [List.mem_singleton.mp new]
      exact mentioned
  | renameIndex oldName newName =>
    intro n member
    simp only [Call.names,List.mem_cons,List.not_mem_nil,or_false,forall_eq_or_imp,forall_eq] at mentioned
    simp only [register] at member
    split at member
    · exact inside n member
    obtain ⟨m,held,equal⟩ := List.mem_map.mp member
    split at equal
    · exact equal ▸ mentioned.2
    · exact equal ▸ inside m held

theorem registry_room (nodup : registry.Nodup) (inside : ∀ n ∈ registry, n ∈ used) : registry.length ≤ used.card := by
  rw [← List.toFinset_card_of_nodup nodup]
  exact Finset.card_le_card (fun n member => inside n (List.mem_toFinset.mp member))

end

/-! ### What the registry does right -/

section
variable {rung : Nat → Prefix} {registry : List String}

/-- The registry stays or takes a call, and then it is followed and the call has the effect it reports. -/
abbrev Steps (rung : Nat → Prefix) (follows : List String → Prop) (registry : List String) (c : Call)
    (reply : Reply) : Prop :=
  ∃ next, (next = registry ∨ next = register registry c) ∧ follows next ∧
    Right (placed rung 0 registry) (placed rung 0 next) c reply

theorem right_found {p : Prefix} (held : placed rung 0 registry name = some p) :
    Right (placed rung 0 registry) (placed rung 0 registry) (.createIndex name) (.created p) :=
  ⟨fun _ other => Option.some.inj (held.symm.trans other),held,fun _ _ => rfl⟩

theorem right_created (absent : name ∉ registry) :
    Right (placed rung 0 registry) (placed rung 0 (registry ++ [name])) (.createIndex name)
      (.created (rung registry.length)) := by
  refine ⟨?_,?_,?_⟩
  · intro q held
    rw [(placed_eq_none).mpr absent] at held
    contradiction
  · rw [placed_append absent,if_pos rfl,Nat.zero_add]
  · intro other different
    rw [placed_append absent,if_neg different]

theorem right_renamed (present : oldName ∈ registry) (absent : newName ∉ registry) :
    Right (placed rung 0 registry) (placed rung 0 (register registry (.renameIndex oldName newName)))
      (.renameIndex oldName newName) (.renamed true) := by
  refine ⟨?_,?_⟩
  · exact Option.ne_none_iff_exists'.mp (fun none => placed_eq_none.mp none present)
  · intro n
    rw [register,if_neg absent,placed_map registry absent]

end

/-! ### The leveldb driver follows the registry -/

namespace LevelDB

def rung (j : Nat) : Prefix := [UInt8.ofNat (2 + j)]

/-- The persisted list for a registry whose first name has the rung `k`. -/
def laid : Nat → List String → List IndexSpec
  | _, [] => []
  | k, n :: rest => ⟨n,rung k⟩ :: laid (k + 1) rest

def Follows (s : State) (registry : List String) : Prop := s = some (laid 0 registry)

theorem laid_append (registry : List String) (name : String) (k : Nat) :
    laid k (registry ++ [name]) = laid k registry ++ [⟨name,rung (k + registry.length)⟩] := by
  induction registry generalizing k with
  | nil => rfl
  | cons n rest ih =>
    simp [laid,ih,show k + 1 + rest.length = k + (rest.length + 1) by omega]

theorem find_laid {registry : List String} {name : String} (k : Nat) :
    ((laid k registry).find? (fun f => f.name = name)).map IndexSpec.keyPrefix = placed rung k registry name := by
  induction registry generalizing k with
  | nil => rfl
  | cons n rest ih =>
    by_cases same : n = name
    · simp [laid,placed,same]
    · simp only [laid,List.find?_cons,same,decide_false,placed,if_false]
      exact ih (k + 1)

theorem Follows.assigned {s : State} (follows : Follows s registry) : LevelDB.assigned s = placed rung 0 registry := by
  subst follows
  funext name
  exact find_laid 0

/-- The identifier kept by the loop is the byte after the last index it has passed. -/
theorem scan_laid (registry : List String) (name : String) (k : Nat) :
    scan name (laid k registry) (UInt8.ofNat (2 + k)) =
      match placed rung k registry name with
      | some p => .inl p
      | none => .inr (UInt8.ofNat (2 + (k + registry.length))) := by
  induction registry generalizing k with
  | nil => rfl
  | cons n rest ih =>
    have next : (UInt8.ofNat (2 + k) + 1 : UInt8) = UInt8.ofNat (2 + (k + 1)) := by
      rw [← Nat.add_assoc,UInt8.ofNat_add (2 + k) 1]
      rfl
    by_cases same : n = name
    · simp [laid,scan,placed,same]
    · simp only [laid,scan,placed,same,if_false,List.length_cons]
      simp only [rung,List.headI_cons,if_pos (UInt8.le_refl _),next]
      rw [ih,show k + 1 + rest.length = k + (rest.length + 1) by omega]

theorem relabel_laid {registry : List String} (nodup : registry.Nodup) (oldName : String)
    (absent : newName ∉ registry) (k : Nat) : relabel oldName newName (laid k registry) =
      (decide (oldName ∈ registry), laid k (registry.map (fun n => if n = oldName then newName else n))) := by
  induction registry generalizing k with
  | nil => simp [relabel,laid]
  | cons n rest ih =>
    obtain ⟨fresh,nodup⟩ := List.nodup_cons.mp nodup
    simp only [List.mem_cons,not_or] at absent
    by_cases same : n = oldName
    · have kept := map_absent newName (same ▸ fresh)
      simp [laid,relabel,same,kept]
    · have other : n ≠ newName := Ne.symm absent.1
      simp [laid,relabel,same,other,ih nodup absent.2,Ne.symm same]

theorem step_follows {s : State} (follows : Follows s registry) (nodup : registry.Nodup) (c : Call)
    (tracks : Backend.leveldb.Tracks s c) : Steps rung (Follows (step s c).2) registry c (step s c).1 := by
  have known := follows.assigned
  subst follows
  cases c with
  | initSchema => exact ⟨registry,.inl rfl,rfl,rfl⟩
  | createIndex name =>
    have scanned := scan_laid registry name 0
    simp only [step,createIndex,show keyPrefixIndexStart = UInt8.ofNat (2 + 0) from rfl,scanned]
    cases held : placed rung 0 registry name with
    | some p => exact ⟨registry,.inl rfl,rfl,right_found held⟩
    | none =>
      have absent := placed_eq_none.mp held
      refine ⟨registry ++ [name],.inr (if_neg absent).symm,?_,?_⟩
      · simp only [Follows,laid_append]
        rfl
      · simp only [Nat.zero_add]
        exact right_created absent
  | renameIndex oldName newName =>
    simp only [step,renameIndex]
    by_cases blank : oldName = ""
    · exact ⟨registry,.inl rfl,by rw [if_pos blank]; rfl,by rw [if_pos blank]; rfl⟩
    by_cases blankNew : newName = ""
    · simp only [if_neg blank,if_pos blankNew]
      exact ⟨registry,.inl rfl,rfl,rfl⟩
    by_cases same : newName = oldName
    · simp only [if_neg blank,if_neg blankNew,if_pos same]
      exact ⟨registry,.inl rfl,rfl,rfl⟩
    simp only [if_neg blank,if_neg blankNew,if_neg same]
    have free : LevelDB.assigned (some (laid 0 registry)) newName = none := by
      rcases tracks with h | h | h | h
      · exact absurd h blank
      · exact absurd h blankNew
      · exact absurd h.symm same
      · exact h
    rw [known] at free
    have absent := placed_eq_none.mp free
    have changed := relabel_laid nodup oldName absent 0
    by_cases present : oldName ∈ registry
    · refine ⟨register registry (.renameIndex oldName newName),.inr rfl,?_,?_⟩
      · simp only [Follows,changed,register,if_neg absent]
      · simpa only [changed,present,decide_true] using right_renamed present absent
    have kept := map_absent newName present
    refine ⟨registry,.inl rfl,?_,?_⟩
    · simp only [Follows,changed,kept]
    · simp only [changed,present,decide_false]
      rfl

theorem rung_injective (i j : Nat) (boundI : i < 254) (boundJ : j < 254) (same : rung i = rung j) : i = j := by
  have bytes := congrArg UInt8.toNat (List.cons.inj same).1
  simp only [UInt8.toNat_ofNat'] at bytes
  omega

end LevelDB

/-! ### The wiredtiger driver follows the registry -/

namespace WiredTiger

def rung (j : Nat) : Prefix := [UInt8.ofNat (if j < 9 then 49 + j else 88 + j)]

theorem incr_rung {j : Nat} (bound : j + 1 < 35) : indexKeyPrefixIncr (rung j) = some (rung (j + 1)) := by
  have all : ∀ i < 34, indexKeyPrefixIncr (rung i) = some (rung (i + 1)) := by decide
  exact all j (by omega)

theorem rung_toNat {j : Nat} (bound : j < 35) : (rung j).headI.toNat = if j < 9 then 49 + j else 88 + j := by
  simp only [rung,List.headI_cons,UInt8.toNat_ofNat']
  split <;> omega

theorem rung_injective (i j : Nat) (boundI : i < 35) (boundJ : j < 35) (same : rung i = rung j) : i = j := by
  have bytes := congrArg (fun p : Prefix => p.headI.toNat) same
  simp only [rung_toNat boundI,rung_toNat boundJ] at bytes
  split at bytes <;> split at bytes <;> omega

theorem le_of_rung_le {i j : Nat} (boundI : i < 35) (boundJ : j < 35) (order : (rung i).headI ≤ (rung j).headI) :
    i ≤ j := by
  have bytes := UInt8.le_iff_toNat_le.mp order
  rw [rung_toNat boundI,rung_toNat boundJ] at bytes
  split at bytes <;> split at bytes <;> omega

/-- The metadata agree with the registry, and the indexes opened by the process with the metadata. -/
structure Follows (s : State) (registry : List String) : Prop where
  metadata : ∀ n, s.metadata.lookup n = placed rung 0 registry n
  opened : ∀ i ∈ s.indexes, s.metadata.lookup i.name = some i.keyPrefix
  single : (s.indexes.map IndexSpec.name).Nodup

theorem Follows.assigned {s : State} (follows : Follows s registry) :
    WiredTiger.assigned s = placed rung 0 registry := funext follows.metadata

theorem scan_found {p : Prefix} {indexes : List IndexSpec} (current : Prefix)
    (found : scan name indexes current = .inl p) : ⟨name,p⟩ ∈ indexes := by
  induction indexes generalizing current with
  | nil => simp only [scan,reduceCtorEq] at found
  | cons i rest ih =>
    by_cases same : i.name = name
    · simp only [scan,same,if_true,Sum.inl.injEq] at found
      subst same found
      exact List.mem_cons_self
    · simp only [scan,same,if_false] at found
      exact List.mem_cons_of_mem i (ih i.keyPrefix found)

theorem scan_missed {p : Prefix} {indexes : List IndexSpec} (current : Prefix)
    (missed : scan name indexes current = .inr p) :
    name ∉ indexes.map IndexSpec.name ∧ p = (indexes.getLast?.map IndexSpec.keyPrefix).getD current := by
  induction indexes generalizing current with
  | nil => exact ⟨by simp,(Sum.inr.inj missed).symm⟩
  | cons i rest ih =>
    by_cases same : i.name = name
    · simp [scan,same] at missed
    simp only [scan,same,if_false] at missed
    obtain ⟨absent,last⟩ := ih i.keyPrefix missed
    refine ⟨by simp [absent,Ne.symm same],?_⟩
    rw [last]
    cases rest with
    | nil => rfl
    | cons next rest =>
      rw [List.getLast?_cons_cons]
      rfl

theorem lastOpened_cases {s : State} (follows : Follows s registry) :
    (s.indexes = [] ∧ lastOpened s = defaultIndexKeyPrefix) ∨
      ∃ j, j < registry.length ∧ lastOpened s = rung j := by
  cases last : s.indexes.getLast? with
  | none =>
    left
    exact ⟨List.getLast?_eq_none_iff.mp last,by simp only [lastOpened,last,Option.map_none,Option.getD_none]⟩
  | some i =>
    right
    have held := follows.opened i (List.mem_of_getLast? last)
    rw [follows.metadata] at held
    obtain ⟨j,found,equal⟩ := placed_at 0 held
    refine ⟨j,(List.getElem?_eq_some_iff.mp found).1,?_⟩
    simp [lastOpened,last,equal]

theorem lastOpened_length {s : State} (follows : Follows s registry) : (lastOpened s).length = 1 := by
  rcases lastOpened_cases follows with ⟨-,default⟩ | ⟨j,-,equal⟩
  · rw [default]
    rfl
  · rw [equal]
    rfl

/-- If nothing of the database is beyond the last index opened, that one was created last. -/
theorem incr_lastOpened {s : State} (follows : Follows s registry) (nodup : registry.Nodup)
    (room : registry.length < 35) (top : ∀ n p, WiredTiger.assigned s n = some p → p.headI ≤ (lastOpened s).headI) :
    indexKeyPrefixIncr (lastOpened s) = some (rung registry.length) := by
  have reached (j : Nat) (bound : j < registry.length) : (rung j).headI ≤ (lastOpened s).headI := by
    have place : placed rung 0 registry registry[j] = some (rung (0 + j)) :=
      placed_of_place registry nodup 0 j (List.getElem?_eq_getElem bound)
    rw [← follows.metadata,Nat.zero_add] at place
    exact top _ _ place
  rcases lastOpened_cases follows with ⟨-,default⟩ | ⟨j,bound,equal⟩
  · have empty : registry.length = 0 := by
      by_contra inhabited
      exact absurd (default ▸ reached 0 (by omega)) (by decide)
    rw [default,empty]
    decide
  have highest := reached (registry.length - 1) (by omega)
  rw [equal] at highest ⊢
  have last := le_of_rung_le (by omega) (by omega) highest
  rw [incr_rung (by omega),show j + 1 = registry.length by omega]

theorem copy_single {target source : Prefix} (one : target.length = 1) (other : source.length = 1) :
    copy target source = source := by
  simp only [copy,one,other]
  rw [List.take_of_length_le (by omega),List.drop_of_length_le (by omega),List.append_nil]

theorem relabel_eq_map (oldName newName : String) {indexes : List IndexSpec}
    (single : (indexes.map IndexSpec.name).Nodup) : relabel oldName newName indexes =
      indexes.map (fun i => if i.name = oldName then { i with name := newName } else i) := by
  induction indexes with
  | nil => rfl
  | cons i rest ih =>
    obtain ⟨fresh,single⟩ := List.nodup_cons.mp single
    by_cases same : i.name = oldName
    · have kept : rest.map (fun i => if i.name = oldName then { i with name := newName } else i) = rest := by
        refine (List.map_congr_left fun other member => ?_).trans (List.map_id rest)
        have different : other.name ≠ oldName := fun equal =>
          fresh (same.trans equal.symm ▸ List.mem_map_of_mem member)
        simp [different]
      simp [relabel,same,kept]
    · simp [relabel,same,ih single]

theorem create_follows {s : State} (follows : Follows s registry) (nodup : registry.Nodup)
    (inside : ∀ n ∈ registry, n ∈ used) (few : used.card ≤ 35) (mentioned : name ∈ used)
    (tracks : Backend.wiredtiger.Tracks s (.createIndex name)) :
    Steps rung (Follows (createIndex name s).2) registry (.createIndex name) (createIndex name s).1 := by
  cases scanned : scan name s.indexes defaultIndexKeyPrefix with
  | inl p =>
    have held := follows.opened _ (scan_found _ scanned)
    rw [follows.metadata] at held
    simp only [createIndex,scanned]
    exact ⟨registry,.inl rfl,follows,right_found held⟩
  | inr current =>
    obtain ⟨notOpened,isLast⟩ := scan_missed _ scanned
    have last : current = lastOpened s := isLast
    subst last
    cases held : s.metadata.lookup name with
    | some value =>
      have place := follows.metadata name ▸ held
      have single : value.length = 1 := by
        obtain ⟨j,-,equal⟩ := placed_at 0 place
        rw [equal]
        rfl
      simp only [createIndex,scanned,held,copy_single (lastOpened_length follows) single]
      refine ⟨registry,.inl rfl,⟨follows.metadata,?_,?_⟩,right_found place⟩
      · intro i member
        rcases List.mem_append.mp member with old | new
        · exact follows.opened i old
        · rw [List.mem_singleton.mp new]
          exact held
      · rw [List.map_append]
        exact List.nodup_append.mpr ⟨follows.single,List.nodup_singleton _,by grind⟩
    | none =>
      have absent : name ∉ registry := placed_eq_none.mp (follows.metadata name ▸ held)
      have more := registry_room (register_nodup nodup (.createIndex name))
        (register_subset inside (.createIndex name) (by simpa [Call.names] using mentioned))
      simp only [register,absent,if_false,List.length_append,List.length_singleton] at more
      have free := incr_lastOpened follows nodup (by omega) (tracks held)
      simp only [createIndex,scanned,held,free]
      refine ⟨registry ++ [name],.inr (if_neg absent).symm,⟨?_,?_,?_⟩,right_created absent⟩
      · intro n
        rw [lookup_insert_eq,placed_append absent,follows.metadata,Nat.zero_add]
      · intro i member
        rw [lookup_insert_eq]
        rcases List.mem_append.mp member with old | new
        · have other : i.name ≠ name := fun equal => notOpened (equal ▸ List.mem_map_of_mem old)
          rw [if_neg other]
          exact follows.opened i old
        · rw [List.mem_singleton.mp new,if_pos rfl]
      · rw [List.map_append]
        exact List.nodup_append.mpr ⟨follows.single,List.nodup_singleton _,by grind⟩

theorem rename_follows {s : State} (follows : Follows s registry)
    (tracks : Backend.wiredtiger.Tracks s (.renameIndex oldName newName)) :
    Steps rung (Follows (renameIndex oldName newName s).2) registry (.renameIndex oldName newName)
      (renameIndex oldName newName s).1 := by
  cases held : s.metadata.lookup oldName with
  | none =>
    simp only [renameIndex,held]
    exact ⟨registry,.inl rfl,follows,rfl⟩
  | some value =>
    have place := follows.metadata oldName ▸ held
    by_cases same : oldName = newName
    · subst same
      have free : (s.metadata.erase oldName).lookup oldName = none := Finmap.lookup_erase oldName s.metadata
      simp only [renameIndex,held,free,insert_erase_self held]
      have kept : relabel oldName oldName s.indexes = s.indexes := by
        rw [relabel_eq_map oldName oldName follows.single]
        refine (List.map_congr_left fun i member => ?_).trans (List.map_id s.indexes)
        by_cases equal : i.name = oldName
        · simp only [equal,if_true,id_eq]
          rw [← equal]
        · simp [equal]
      rw [kept]
      refine ⟨registry,.inl rfl,follows,⟨value,place⟩,?_⟩
      intro n
      by_cases equal : n = oldName
      · rw [if_pos equal,equal]
      · rw [if_neg equal,if_neg equal]
    have free : s.metadata.lookup newName = none := by
      rcases tracks with missing | equal | free
      · exact absurd (missing.symm.trans held) (by simp)
      · exact absurd equal same
      · exact free
    have absent : newName ∉ registry := placed_eq_none.mp (follows.metadata newName ▸ free)
    have present : oldName ∈ registry := by
      by_contra missing
      rw [(placed_eq_none).mpr missing] at place
      contradiction
    have erased : (s.metadata.erase oldName).lookup newName = none := by
      rw [lookup_erase_eq,if_neg (Ne.symm same),free]
    have fresh : newName ∉ s.indexes.map IndexSpec.name := by
      intro member
      obtain ⟨i,opened,equal⟩ := List.mem_map.mp member
      have entry := follows.opened i opened
      rw [equal,free] at entry
      contradiction
    simp only [renameIndex,held,erased,relabel_eq_map oldName newName follows.single]
    refine ⟨register registry (.renameIndex oldName newName),.inr rfl,⟨?_,?_,?_⟩,right_renamed present absent⟩
    · intro n
      rw [lookup_insert_eq,lookup_erase_eq,register,if_neg absent,placed_map registry absent,place]
      simp only [follows.metadata]
    · intro i member
      obtain ⟨before,opened,equal⟩ := List.mem_map.mp member
      have entry := follows.opened before opened
      rw [lookup_insert_eq,lookup_erase_eq]
      by_cases renamed : before.name = oldName
      · rw [if_pos renamed] at equal
        rw [renamed,held] at entry
        simp [← equal,entry]
      rw [if_neg renamed] at equal
      subst equal
      have other : before.name ≠ newName := fun equal => fresh (equal ▸ List.mem_map_of_mem opened)
      rw [if_neg other,if_neg renamed,entry]
    have named : (s.indexes.map (fun i => if i.name = oldName then { i with name := newName } else i)).map
        IndexSpec.name = register (s.indexes.map IndexSpec.name) (.renameIndex oldName newName) := by
      rw [register,if_neg fresh,List.map_map,List.map_map]
      apply List.map_congr_left
      intro i _
      simp only [Function.comp_apply]
      split <;> rfl
    rw [named]
    exact register_nodup follows.single _

theorem step_follows {s : State} (follows : Follows s registry) (nodup : registry.Nodup)
    (inside : ∀ n ∈ registry, n ∈ used) (few : used.card ≤ 35) (c : Call) (mentioned : ∀ n ∈ c.names, n ∈ used)
    (tracks : Backend.wiredtiger.Tracks s c) : Steps rung (Follows (step s c).2) registry c (step s c).1 := by
  cases c with
  | initSchema =>
    exact ⟨registry,.inl rfl,⟨follows.metadata,fun i opened => absurd opened List.not_mem_nil,List.nodup_nil⟩,rfl⟩
  | createIndex name =>
    exact create_follows follows nodup inside few (mentioned name (List.mem_singleton_self name)) tracks
  | renameIndex oldName newName => exact rename_follows follows tracks

end WiredTiger

/-! ### Whole runs -/

def Backend.rung : Backend → Nat → Prefix
  | .leveldb => LevelDB.rung
  | .wiredtiger => WiredTiger.rung

def Backend.Follows : (b : Backend) → b.State → List String → Prop
  | .leveldb => LevelDB.Follows
  | .wiredtiger => WiredTiger.Follows

theorem Backend.Follows.assigned {b : Backend} {s : b.State} (follows : b.Follows s registry) :
    b.assigned s = placed b.rung 0 registry := by
  cases b with
  | leveldb => exact LevelDB.Follows.assigned follows
  | wiredtiger => exact WiredTiger.Follows.assigned follows

theorem Backend.rung_injective (b : Backend) (i j : Nat) (boundI : i < b.available) (boundJ : j < b.available)
    (same : b.rung i = b.rung j) : i = j := by
  cases b with
  | leveldb => exact LevelDB.rung_injective i j boundI boundJ same
  | wiredtiger => exact WiredTiger.rung_injective i j boundI boundJ same

theorem Backend.Follows.distinct {b : Backend} {s : b.State} (follows : b.Follows s registry) (nodup : registry.Nodup)
    (inside : ∀ n ∈ registry, n ∈ used) (few : used.card ≤ b.available) : Distinct (b.assigned s) := by
  rw [follows.assigned]
  exact placed_distinct ((registry_room nodup inside).trans few) b.rung_injective

theorem Backend.fresh_follows (b : Backend) : b.Follows b.fresh [] := by
  cases b with
  | leveldb => exact rfl
  | wiredtiger =>
    exact ⟨fun n => Finmap.lookup_empty n,fun i opened => absurd opened List.not_mem_nil,List.nodup_nil⟩

/-- One call of either driver is one step of the registry, or leaves it as it is. -/
theorem Backend.step_follows {b : Backend} {s : b.State} (follows : b.Follows s registry) (nodup : registry.Nodup)
    (inside : ∀ n ∈ registry, n ∈ used) (few : used.card ≤ b.available) (c : Call)
    (mentioned : ∀ n ∈ c.names, n ∈ used) (tracks : b.Tracks s c) :
    Steps b.rung (b.Follows (b.step s c).2) registry c (b.step s c).1 := by
  cases b with
  | leveldb => exact LevelDB.step_follows follows nodup c tracks
  | wiredtiger => exact WiredTiger.step_follows follows nodup inside few c mentioned tracks

theorem Backend.run_sound {b : Backend} (few : used.card ≤ b.available) (calls : List Call)
    (mentioned : ∀ c ∈ calls, ∀ n ∈ c.names, n ∈ used) (s : b.State) (registry : List String)
    (follows : b.Follows s registry) (nodup : registry.Nodup) (inside : ∀ n ∈ registry, n ∈ used)
    (tracks : b.AllTrack s calls) : b.Sound s calls := by
  induction calls generalizing s registry with
  | nil => exact follows.distinct nodup inside few
  | cons c rest ih =>
    have named := mentioned c List.mem_cons_self
    obtain ⟨next,origin,follows',right⟩ := Backend.step_follows follows nodup inside few c named tracks.1
    have keeps : next.Nodup ∧ ∀ n ∈ next, n ∈ used := by
      rcases origin with rfl | rfl
      · exact ⟨nodup,inside⟩
      · exact ⟨register_nodup nodup c,register_subset inside c named⟩
    refine ⟨follows.distinct nodup inside few,?_,?_⟩
    · rw [follows.assigned,follows'.assigned]
      exact right
    · exact ih (fun c member => mentioned c (List.mem_cons_of_mem _ member)) _ next follows' keeps.1 keeps.2 tracks.2

/-- In a run whose calls keep the driver on its track, with no more names than prefixes, two existing names never
have the same prefix, a name keeps its prefix over restarts, and a renaming does what it reports. -/
theorem prefixes_stable (b : Backend) (calls : List Call) (few : (names calls).card ≤ b.available)
    (tracks : b.AllTrack b.fresh calls) : b.Sound b.fresh calls := by
  apply Backend.run_sound few calls _ b.fresh [] b.fresh_follows List.nodup_nil _ tracks
  · intro c member n named
    exact List.mem_toFinset.mpr (List.mem_flatMap.mpr ⟨c,member,named⟩)
  · intro n member
    exact absurd member List.not_mem_nil

theorem prefixes_stable_reopened : Backend.wiredtiger.Sound Backend.wiredtiger.fresh
    [.createIndex "a",.createIndex "b",.renameIndex "a" "c",.initSchema,.createIndex "b",.createIndex "d"] := by
  apply prefixes_stable
  · decide
  · decide

/-- After a restart the first new index takes the prefix of the oldest one. -/
theorem prefix_shared : ¬Backend.wiredtiger.Sound Backend.wiredtiger.fresh
    [.createIndex "a",.createIndex "b",.initSchema,.createIndex "c"] := by
  intro sound
  have same : "a" = "c" := sound.2.2.2.2.2.2.2.2 "a" "c" [49] (by decide) (by decide)
  exact absurd same (by decide)

end FavorX.Schemas

import FavorX.Frames
import FavorX.Texts

/-!
Pins of whole references. Creating a pin twice counts twice, while deleting it
takes one pin off each chunk: pinning is undone by one deletion, and deleting again
is harmless, exactly for references without chunks (`pins_undone_iff`).
-/
namespace FavorX.Pinning
open FiniteMaps Shed Localstore Effects Frames Texts
open Batches hiding get put fail

def rootPinKey (ref : Address) : List Char := "root-pin-".toList ++ encodeToString ref

/-- The database that chunks are pinned in, and the state store that names the
    pinned references. -/
structure Service where
  db : Store × Local
  rhStorage : Map (List Char) Address := ∅

section
variable (cfg : Config) (d : Driver) (leaves : Address → List Address)

/-- Pin the leaves of a reference. A leaf that is not stored is passed over, any
    other error ends the walk. -/
def pinLeaves (ref : Address) : List Address → Store × Local → Except Err Unit × (Store × Local)
  | [], st => (.ok (),st)
  | leaf :: rest, st =>
    match run d (set cfg .pin ref [leaf]) st with
    | (.ok (),st') => pinLeaves ref rest st'
    | (.error .storageNotFound,st') => pinLeaves ref rest st'
    | (.error e,st') => (.error e,st')

def CreatePin (ref : Address) (traverse : Bool) (s : Service) : Except Err Unit × Service :=
  match if traverse then pinLeaves cfg d ref (leaves ref) s.db else (.ok (),s.db) with
  | (.error e,st) => (.error e,{ s with db := st })
  | (.ok (),st) =>
    match s.rhStorage.lookup (rootPinKey ref) with
    | none => (.ok (),{ db := st, rhStorage := s.rhStorage.insert (rootPinKey ref) ref })
    | some _ => (.ok (),{ s with db := st })

/-- Unpin the leaves of a reference. The walk goes on after an error, and the
    last error is returned. -/
def unpinLeaves (ref : Address) : List Address → Option Err → Store × Local → Option Err × (Store × Local)
  | [], iterErr, st => (iterErr,st)
  | leaf :: rest, iterErr, st =>
    match run d (set cfg .unpin ref [leaf]) st with
    | (.ok (),st') => unpinLeaves ref rest iterErr st'
    | (.error e,st') => unpinLeaves ref rest (some e) st'

def DeletePin (ref : Address) (s : Service) : Except Err Unit × Service :=
  match unpinLeaves cfg d ref (leaves ref) none s.db with
  | (some e,st) => (.error e,{ s with db := st })
  | (none,st) => (.ok (),{ db := st, rhStorage := s.rhStorage.erase (rootPinKey ref) })

end

def Lowered (s t : Store) : Prop := ∀ a m, t.pinIndex.lookup a = some m → ∃ n, s.pinIndex.lookup a = some n ∧ m ≤ n

theorem lowered_trans {s t u : Store} (first : Lowered s t) (second : Lowered t u) : Lowered s u := by
  intro a m held
  obtain ⟨n,middle,le⟩ := second a m held
  obtain ⟨k,start,le'⟩ := first a n middle
  exact ⟨k,start,le.trans le'⟩

/-- The pins are at most those of a store, and nothing else matters. -/
def AtMost (s : Store) : (k : Key) → Value k → Prop
  | .pin a, (m : Nat) => ∃ n, s.pinIndex.lookup a = some n ∧ m ≤ n
  | .retrievalData _, _ => True
  | .retrievalAccess _, _ => True
  | .transferData _, _ => True
  | .gc _, _ => True
  | .binIDs _, _ => True
  | .gcSize, _ => True

theorem atMost_other {s : Store} {k : Key} (other : part k ≠ .pin) (v : Value k) : AtMost s k v := by
  cases k with
  | pin a => exact absurd rfl other
  | retrievalData a => trivial
  | retrievalAccess a => trivial
  | transferData a => trivial
  | gc g => trivial
  | binIDs po => trivial
  | gcSize => trivial

theorem keeps_only {α : Type} {s : Store} {parts : List Part} {p : Op α} (only : Only parts p) (other : .pin ∉ parts) :
    p.Keeps (AtMost s) (fun _ => True) := by
  refine keeps_of_writes only ?_
  intro k v inside
  exact atMost_other (fun same => other (same ▸ inside)) v

variable (cfg : Config)

def lower (n : Nat) : Option Nat := if 1 < n then some (n - 1) else none

theorem lower_lt {n m : Nat} (left : lower n = some m) : m < n := by
  unfold lower at left
  split at left
  · cases left
    omega
  · cases left

/-- What follows the write of the pin in an unpin. -/
def unpinRest (root : Address) (n : Nat) : Op Unit :=
  (if 1 < n then .done 0 else unpinRoot cfg (addressToItem root)).bind fun c =>
    (incGCSizeInBatch c).bind fun _ => commit

theorem only_unpinRest {root : Address} {n : Nat} : Only [.access,.gc,.gcSize] (unpinRest cfg root n) := by
  refine writes_bind ?_ (fun c => ?_)
  · split
    · trivial
    · exact only_mono (staged_unpinRoot cfg _).only (by decide)
  · exact writes_bind (only_mono staged_incGCSize.only (by decide)) (fun _ => writes_commit)

/-- An unpin reads the pin of its chunk, writes a lower one and writes no pin after that. -/
theorem set_unpin_eq (a root : Address) :
    set cfg .unpin root [a] = (markDirty [a]).bind fun _ => (Batches.get (.pin a)).bind fun o =>
      match o with
      | none => .fail .notFound
      | some n => (Batches.stage (.pin a) (lower n)).bind fun _ => unpinRest cfg root n := by
  simp only [Localstore.set,setAddresses,setAddress,setUnpin,Index.get,Index.find,bind_eq,pure_eq,Prog.bind_assoc]
  refine congrArg _ (funext fun _ => congrArg _ (funext fun o => ?_))
  cases o with
  | none => rfl
  | some value =>
    obtain ⟨n,rfl⟩ : ∃ n : Nat, n = value := ⟨value,rfl⟩
    simp only [Prog.bind]
    change (Prog.done ((Index.pin.decode (addressToItem a) n).merge (addressToItem a))).bind _ = _
    generalize item : (Index.pin.decode (addressToItem a) n).merge (addressToItem a) = i
    have count : i.pinCounter = n := by
      subst item
      exact ite_eq_self n 0
    simp only [Prog.bind,count,lower,unpinRest]
    by_cases several : 1 < n
    · simp only [if_pos several,Prog.bind_assoc,Prog.bind,Int.add_zero]
      rfl
    · simp only [if_neg several,Prog.bind_assoc,Int.add_zero]
      rfl

theorem keeps_unpin {s : Store} (a root : Address) :
    (set cfg .unpin root [a]).Keeps (AtMost s) (fun _ => True) := by
  rw [set_unpin_eq]
  refine keeps_bind (keeps_only (staged_markDirty _ [a]).only (by decide : Part.pin ∉ [])) (fun _ _ => ?_)
  refine keeps_bind keeps_get (fun o held => ?_)
  cases o with
  | none => trivial
  | some m =>
    obtain ⟨n,pinned,le⟩ := held m rfl
    refine keeps_bind ⟨?_,fun _ => keeps_settle (fun _ _ => trivial)⟩ (fun _ _ => keeps_only (only_unpinRest cfg) (by decide))
    intro w left
    exact ⟨n,pinned,(lower_lt left).le.trans le⟩

theorem unpin_lowered (d : Driver) (a root : Address) (st : Store × Local) :
    Lowered st.1 (run d (set cfg .unpin root [a]) st).2.1 := by
  have start : ∀ k v, medium.read k st.1 = some v → AtMost st.1 k v := by
    intro k v held
    cases k with
    | pin b => exact ⟨v,held,le_rfl⟩
    | retrievalData b => trivial
    | retrievalAccess b => trivial
    | transferData b => trivial
    | gc g => trivial
    | binIDs po => trivial
    | gcSize => trivial
  intro b m held
  cases d with
  | wiredtiger => exact keeps_through medium refused (keeps_unpin cfg a root) start (.pin b) m held
  | leveldb => exact keeps_deferred medium (keeps_unpin cfg a root) (by simp) start (.pin b) m held

variable {st st' : Store × Local}

theorem run_leveldb_ok {α : Type} {p : Op α} {a : α} (ok : run .leveldb p st = (.ok a,st')) :
    ∃ batch, deferred medium p st [] = (.ok a,st',batch) := by
  rcases ran : deferred medium p st [] with ⟨r,t,batch⟩
  simp only [run,ran] at ok
  cases ok
  exact ⟨batch,rfl⟩

theorem unpin_ok {d : Driver} {a root : Address} (ok : run d (set cfg .unpin root [a]) st = (.ok (),st')) :
    ∃ n, st.1.pinIndex.lookup a = some n ∧ st'.1.pinIndex.lookup a = lower n := by
  have later : part (.pin a) ∉ [.access,.gc,.gcSize] := (by decide : Part.pin ∉ [.access,.gc,.gcSize])
  rw [set_unpin_eq] at ok
  cases d with
  | wiredtiger =>
    obtain ⟨_,_,marked,ok⟩ := through_bind_ok ok
    obtain ⟨o,_,read,ok⟩ := through_bind_ok ok
    rw [through_markDirty] at marked
    cases marked
    cases read
    cases pin : medium.read (.pin a) (recordDirty [a] st).1 with
    | none => rw [pin] at ok; cases ok
    | some n =>
      rw [pin] at ok
      exact ⟨n,pin,through_staged medium refused (fun _ => only_unpinRest cfg) later ok⟩
  | leveldb =>
    obtain ⟨batch,ran⟩ := run_leveldb_ok ok
    obtain ⟨_,marked,same,ran⟩ := deferred_bind_ok ran
    cases same
    obtain ⟨o,found,read,ran⟩ := deferred_bind_ok ran
    cases read
    cases pin : medium.read (.pin a) st.1 with
    | none => rw [pin] at ran; cases ran
    | some n =>
      rw [pin] at ran
      have left := deferred_staged medium (fun _ => only_unpinRest cfg) later ran
      obtain ⟨_,_,_,ran⟩ := deferred_bind_ok ran
      obtain ⟨_,_,_,ran⟩ := deferred_bind_ok ran
      obtain ⟨_,_,_,last⟩ := deferred_bind_ok ran
      cases last
      exact ⟨n,pin,left⟩

variable (d : Driver) (ref : Address)

theorem unpinLeaves_lowered (addrs : List Address) (iterErr : Option Err) (st : Store × Local) :
    Lowered st.1 (unpinLeaves cfg d ref addrs iterErr st).2.1 := by
  induction addrs generalizing iterErr st with
  | nil => exact fun a m held => ⟨m,held,le_rfl⟩
  | cons leaf rest ih =>
    have one := unpin_lowered cfg d leaf ref st
    unfold unpinLeaves
    split <;> rename_i st' ran <;> rw [ran] at one <;> exact lowered_trans one (ih _ st')

theorem unpinLeaves_failed {addrs : List Address} (e : Err) (st : Store × Local) :
    (unpinLeaves cfg d ref addrs (some e) st).1 ≠ none := by
  induction addrs generalizing e st with
  | nil => exact Option.some_ne_none e
  | cons leaf rest ih =>
    unfold unpinLeaves
    split
    · exact ih e _
    · exact ih _ _

theorem unpinLeaves_ok {leaf : Address} {rest : List Address}
    (ok : (unpinLeaves cfg d ref (leaf :: rest) none st).1 = none) :
    (unpinLeaves cfg d ref (leaf :: rest) none st).2.1.pinIndex.lookup leaf ≠ st.1.pinIndex.lookup leaf := by
  unfold unpinLeaves at ok ⊢
  split at ok
  case h_2 e st' ran => exact absurd ok (unpinLeaves_failed cfg d ref e st')
  case h_1 st' ran =>
    obtain ⟨n,pinned,left⟩ := unpin_ok cfg ran
    intro same
    obtain ⟨m,held,le⟩ := unpinLeaves_lowered cfg d ref rest none st' leaf n (same.trans pinned)
    have lt := lower_lt (left.symm.trans held)
    omega

theorem createPin_bare {leaves : Address → List Address} (bare : leaves ref = []) {traverse : Bool} {n : Nat}
    (s : Service) : ((fun s => (CreatePin cfg d leaves ref traverse s).2)^[n] s).db = s.db := by
  have once : ∀ s, (CreatePin cfg d leaves ref traverse s).2.db = s.db := by
    intro s
    simp only [CreatePin,bare,pinLeaves,ite_self]
    split <;> rfl
  induction n with
  | zero => rfl
  | succ n ih => rw [Function.iterate_succ_apply',once,ih]

theorem deletePin_bare {leaves : Address → List Address} (bare : leaves ref = []) (s : Service) :
    DeletePin cfg d leaves ref s = (.ok (),{ s with rhStorage := s.rhStorage.erase (rootPinKey ref) }) := by
  simp only [DeletePin,bare,unpinLeaves]

/-- Pinning a reference any number of times is undone by one deletion, and
    deleting again succeeds and changes nothing, exactly when the reference has
    no chunks. This holds on either driver and from any state, with whatever
    other references are pinned there. -/
theorem pins_undone_iff (leaves : Address → List Address) (traverse : Bool) (n : Nat) (s : Service) :
    let pinned := (fun s => (CreatePin cfg d leaves ref traverse s).2)^[n + 1] s
    let unpinned := (DeletePin cfg d leaves ref pinned).2
    ((∀ a, unpinned.db.1.pinIndex.lookup a = s.db.1.pinIndex.lookup a) ∧
      DeletePin cfg d leaves ref unpinned = (.ok (),unpinned)) ↔ leaves ref = [] := by
  intro pinned unpinned
  constructor
  · rintro ⟨-,again⟩
    cases list : leaves ref with
    | nil => rfl
    | cons leaf rest =>
      have deleted : unpinLeaves cfg d ref (leaf :: rest) none unpinned.db = (none,unpinned.db) := by
        simp only [DeletePin,list] at again
        split at again
        · cases again
        · rename_i st ran
          have same : st = unpinned.db := congrArg (fun r : Except Err Unit × Service => r.2.db) again
          rw [ran,same]
      have changed := unpinLeaves_ok cfg d ref (congrArg Prod.fst deleted)
      rw [deleted] at changed
      exact absurd rfl changed
  intro none
  have deleted := deletePin_bare cfg d ref none
  refine ⟨fun a => ?_,?_⟩
  · change (DeletePin cfg d leaves ref pinned).2.db.1.pinIndex.lookup a = _
    rw [deleted]
    exact congrArg (fun db => db.1.pinIndex.lookup a) (createPin_bare cfg d ref none s)
  · change DeletePin cfg d leaves ref (DeletePin cfg d leaves ref pinned).2 = (.ok (),(DeletePin cfg d leaves ref pinned).2)
    simp only [deleted,erase_of_none (Finmap.lookup_erase _ pinned.rhStorage)]

/-- One chunk is uploaded, pinned twice as the only leaf of its own reference, and unpinned. -/
def uploaded (d : Driver) : Service where
  db := (run d (put steady .upload (sample 1).address [sample 1]) ({},{})).2

def pinnedTwice (d : Driver) : Service :=
  (fun s => (CreatePin steady d (fun ref => [ref]) (sample 1).address true s).2)^[2] (uploaded d)

def unpinnedOnce (d : Driver) : Service := (DeletePin steady d (fun ref => [ref]) (sample 1).address (pinnedTwice d)).2

/-- The chunk had no pin and keeps one, on either driver. -/
theorem pinned_twice :
    ((uploaded .wiredtiger).db.1.pinIndex = ∅ ∧
        (unpinnedOnce .wiredtiger).db.1.pinIndex.lookup (sample 1).address = some 1) ∧
      (uploaded .leveldb).db.1.pinIndex = ∅ ∧
        (unpinnedOnce .leveldb).db.1.pinIndex.lookup (sample 1).address = some 1 := by
  decide +kernel

end FavorX.Pinning

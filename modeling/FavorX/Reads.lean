import FavorX.Deletion
import FavorX.TwoRuns

/-!
Reading from the local store. A get on request for a root without a known source counts one more
reference. All other gets leave the chunks and the transfer lists as they are, so reads are without
a trace exactly when none of them counts (`reads_traceless_iff`).
-/
namespace FavorX.Reads
open FiniteMaps Shed Presence Localstore Effects Frames
open TwoRuns
open Batches hiding get put fail

/-- `storage.ModeGet`; `unknown` is any other number. -/
inductive ModeGet
  | request
  | sync
  | lookup
  | pin
  | chain
  | unknown
  deriving DecidableEq

variable {st : Store × Local} {i : Item}

variable {item j : Item}

section
variable (cfg : Config)

/-- Count one more reference, in a batch that is not committed, unless the chunk store knows a source.
    The question for a source returns no error, but it can panic. -/
def countRead (out : Item) (has : Except Err Bool) : Op Unit := do
  match has with
  | .error e => Batches.fail e
  | .ok true => pure ()
  | .ok false =>
    let _ ← putUpload cfg [] out
    pure ()

/-- Get the item of a chunk. `has` is what the chunk store answers when it is asked for a source. -/
def get (mode : ModeGet) (addr rootAddr : Address) (has : Except Err Bool) : Op Item := do
  let item := addressToItem addr
  let out ← Index.retrievalData.get item
  match mode with
  | .request =>
    if !out.type.testBit 0 then Batches.fail .storageNotFound
    else if rootAddr ≠ [] then
      countRead cfg out has
      pure out
    else pure out
  | .pin => Index.pin.get item
  | .chain => if !out.type.testBit 1 then Batches.fail .storageNotFound else pure out
  | .sync | .lookup => pure out
  | .unknown => Batches.fail .invalidMode

/-- `DB.Get`: the address and the data of a chunk. -/
def Get (mode : ModeGet) (addr rootAddr : Address) (has : Except Err Bool) : Op (Address × Bytes) := do
  match ← (get cfg mode addr rootAddr has).attempt (fun e => e = .notFound) with
  | .error _ => Batches.fail .storageNotFound
  | .ok out => pure (out.address,out.data.getD [])

/-- What happens while chunks are read. A get on request also starts an update of the garbage
    collection index, which may happen at any later time; here any updates may happen. -/
inductive Event
  | get (mode : ModeGet) (addr rootAddr : Address) (index : Int) (has : Except Err Bool)
  | update (item : Item)

def happen (st : Store × Local) : Event → Store × Local
  | .get mode addr rootAddr _ has => (run .wiredtiger (Get cfg mode addr rootAddr has) st).2
  | .update item => (run .wiredtiger (updateGC cfg item) st).2

/-- The answer is one that the chunk store can give. -/
def Possible (st : Store × Local) : Event → Prop
  | .get _ _ rootAddr index has => st.2.chunkstore.HasChunk .source rootAddr index has
  | .update _ => True

def AllPossible : Store × Local → List Event → Prop
  | _, [] => True
  | st, e :: events => Possible st e ∧ AllPossible (happen cfg st e) events

/-- No node is known to be the source of a chunk of a root. -/
def Sourceless (cs : Chunkstore) (root : Address) (index : Int) : Prop :=
  ∀ v ∈ ((cs.source.lookup root).getD ∅).entries, index < v.2.bit.len → v.2.bit.get index = .ok false

/-- A get on request for a stored chunk that names a root, but no known source. -/
def Counts (st : Store × Local) : Event → Prop
  | .get mode addr rootAddr index _ =>
    mode = .request ∧ rootAddr ≠ [] ∧ (∃ v ∈ st.1.retrievalDataIndex.lookup addr, v.type.testBit 0) ∧
      Sourceless st.2.chunkstore rootAddr index
  | .update _ => False

def NoneCounts : Store × Local → List Event → Prop
  | _, [] => True
  | st, e :: events => ¬ Counts st e ∧ NoneCounts (happen cfg st e) events

/-- What happens after the reads: files are deleted, and updates that the reads started may still happen. -/
inductive Later
  | delete (root : Address)
  | update (item : Item)

def later (st : Store × Local) : Later → Store × Local
  | .delete root => (run .wiredtiger (DeleteFile cfg root) st).2
  | .update item => (run .wiredtiger (updateGC cfg item) st).2

def Later.deletions (l : List Later) : List Later :=
  l.filter (fun | .delete _ => true | .update _ => false)

/-- References, types and transfer lists are as they were, and later deletions remove the same chunks. -/
structure Traceless (st st' : Store × Local) : Prop where
  counters : ∀ a, (st'.1.retrievalDataIndex.lookup a).map (fun v => (v.counter,v.type)) =
    (st.1.retrievalDataIndex.lookup a).map (fun v => (v.counter,v.type))
  transfers : st'.1.transferDataIndex = st.1.transferDataIndex
  deletions : ∀ (l : List Later) (a : Address),
    ((l.foldl (later cfg) st').1.retrievalDataIndex.lookup a).isSome =
      (((Later.deletions l).foldl (later cfg) st).1.retrievalDataIndex.lookup a).isSome

theorem anyHasBit_false {bit : Int} {order : List Entry} :
    anyHasBit bit order = .ok false ↔ ∀ v ∈ order, bit < v.bit.len → v.bit.get bit = .ok false := by
  induction order with
  | nil => exact ⟨fun _ => nofun,fun _ => rfl⟩
  | cons v order ih =>
    unfold anyHasBit
    rw [List.forall_mem_cons,← ih]
    by_cases within : bit < v.bit.len
    · rw [if_pos within]
      rcases got : v.bit.get bit with e | _ | _
      · exact ⟨nofun,fun both => nomatch both.1 within⟩
      · exact ⟨fun rest => ⟨fun _ => rfl,rest⟩,And.right⟩
      · exact ⟨nofun,fun both => nomatch both.1 within⟩
    · rw [if_neg within]
      exact ⟨fun rest => ⟨fun inside => absurd inside within,rest⟩,And.right⟩

theorem hasChunk_false {cs : Chunkstore} {root : Address} {index : Int} {has : Except Err Bool}
    (answer : cs.HasChunk .source root index has) : has = .ok false ↔ Sourceless cs root index := by
  unfold Sourceless
  simp only [Chunkstore.HasChunk,Chunkstore.vectors] at answer
  cases known : cs.source.lookup root with
  | none =>
    rw [known] at answer
    simp only [answer,Option.getD_none,true_iff]
    intro v member
    exact absurd member (Multiset.notMem_zero v)
  | some s =>
    rw [known] at answer
    obtain ⟨order,whole,rfl⟩ := answer
    rw [anyHasBit_false,Option.getD_some,← whole]
    simp only [List.forall_mem_map,Multiset.mem_coe]

/-- A read that counts leaves the state of a put of the chunk; another one leaves the state as it is. -/
theorem countRead_state (out : Item) (has : Except Err Bool) (st : Store × Local) :
    (through medium refused (countRead cfg out has) st).2 =
      if has = .ok false then (through medium refused (putUpload cfg [] out) st).2 else st := by
  rcases has with e | _ | _
  · rfl
  · unfold countRead
    simp only [bind_eq,through_bind,if_pos]
    rcases through medium refused (putUpload cfg [] out) st with ⟨_ | _,_⟩ <;> rfl
  · rfl

theorem get_state {mode : ModeGet} (addr rootAddr : Address) (has : Except Err Bool) (st : Store × Local) :
    (through medium refused (get cfg mode addr rootAddr has) st).2 =
      match st.1.retrievalDataIndex.lookup addr with
      | none => st
      | some v =>
        if mode = .request ∧ v.type.testBit 0 ∧ rootAddr ≠ [] ∧ has = .ok false then
          (through medium refused (putUpload cfg [] (foundData (addressToItem addr) v)) st).2
        else st := by
  unfold get
  simp only [bind_eq,through_bind,through_getItem,findData,addressToItem]
  cases st.1.retrievalDataIndex.lookup addr with
  | none => rfl
  | some v =>
    simp only [Option.map_some]
    have type : (foundData { address := addr } v).type = v.type := rfl
    cases mode with
    | request =>
      simp only [type,true_and,Bool.not_eq_true']
      by_cases kind : v.type.testBit 0
      · by_cases named : rootAddr = []
        · simp [kind,named]
        have state := countRead_state cfg (foundData { address := addr } v) has st
        simp only [kind,named,Bool.true_eq_false,if_false,if_true,ne_eq,not_false_eq_true,true_and,through_bind]
        rcases ran : through medium refused (countRead cfg (foundData { address := addr } v) has) st with ⟨_ | _,t⟩
        · rw [ran] at state
          exact state
        · rw [ran] at state
          exact state
      · simp [kind]
    | pin =>
      cases pinned : st.1.pinIndex.lookup addr <;> simp [pinned]
    | chain =>
      by_cases kind : v.type.testBit 1 <;> simp [type,kind]
    | sync => simp
    | lookup => simp
    | unknown => simp

theorem Get_state {mode : ModeGet} (addr rootAddr : Address) (has : Except Err Bool) (st : Store × Local) :
    (through medium refused (Get cfg mode addr rootAddr has) st).2 =
      (through medium refused (get cfg mode addr rootAddr has) st).2 := by
  unfold Get
  simp only [bind_eq,through_bind,through_attempt]
  rcases through medium refused (get cfg mode addr rootAddr has) st with ⟨e | out,t⟩
  · by_cases missing : e = .notFound <;> simp [missing]
  · rfl

def Kept (k : Key) : Prop := part k ∈ [Part.data,.transfer,.pin]

theorem clean_happen (clean : Clean medium refused st.1) (e : Event) : Clean medium refused (happen cfg st e).1 := by
  cases e with
  | get mode addr rootAddr index has => exact clean_through (Get cfg mode addr rootAddr has) clean
  | update item => exact clean_through (updateGC cfg item) clean

theorem agree_update {item : Item} {st : Store × Local} :
    Agree medium Kept st.1 (run .wiredtiger (updateGC cfg item) st).2.1 := by
  intro k inside
  refine (kept (only_updateGC cfg item) rfl (fun outside => ?_)).symm
  unfold Kept at inside
  revert inside outside
  generalize part k = p
  revert p
  decide

theorem happen_cases (clean : Clean medium refused st.1) {e : Event} (possible : Possible st e) :
    (¬ Counts st e ∧ Agree medium Kept st.1 (happen cfg st e).1) ∨
      (Counts st e ∧ ∃ a v, st.1.retrievalDataIndex.lookup a = some v ∧
        happen cfg st e = setData a (some (countUp v v.type)) st) := by
  cases e with
  | update item => exact Or.inl ⟨id,agree_update cfg⟩
  | get mode addr rootAddr index has =>
    have state : happen cfg st (.get mode addr rootAddr index has) = _ :=
      (Get_state cfg addr rootAddr has st).trans (get_state cfg addr rootAddr has st)
    have answer := hasChunk_false possible
    cases held : st.1.retrievalDataIndex.lookup addr with
    | none =>
      rw [held] at state
      refine Or.inl ⟨?_,fun k _ => by rw [state]⟩
      rintro ⟨-,-,⟨v,found,-⟩,-⟩
      exact nomatch held.symm.trans found
    | some v =>
      rw [held] at state
      dsimp only at state
      split at state
      · next all =>
        obtain ⟨asked,kind,named,unknown⟩ := all
        refine Or.inr ⟨⟨asked,named,⟨v,held,kind⟩,answer.mp unknown⟩,addr,v,held,?_⟩
        have named : addr ≠ [] := by rintro rfl; exact nomatch clean (.retrievalData []) v held
        rw [state]
        unfold putUpload
        simp [-ite_eq_left_iff,foundData,addressToItem,held,named,putData refused_accepting,countUp]
      next some =>
      refine Or.inl ⟨?_,fun k _ => by rw [state]⟩
      rintro ⟨asked,named,⟨w,found,kind⟩,sourceless⟩
      cases held.symm.trans found
      exact some ⟨asked,kind,named,answer.mpr sourceless⟩

theorem agree_data {s t : Store} (agree : Agree medium Kept s t) : t.retrievalDataIndex = s.retrievalDataIndex :=
  Finmap.ext_lookup fun a => (agree (.retrievalData a) (by simp [Kept,part])).symm

section
variable (clean : Clean medium refused st.1)
include clean

theorem agree_run {events : List Event} (possible : AllPossible cfg st events) (none : NoneCounts cfg st events) :
    Agree medium Kept st.1 (events.foldl (happen cfg) st).1 := by
  induction events generalizing st with
  | nil => exact fun _ _ => rfl
  | cons e events ih =>
    rcases happen_cases cfg clean possible.1 with ⟨_,agree⟩ | ⟨counts,_⟩
    · exact agree.trans (ih (clean_happen cfg clean e) possible.2 none.2)
    · exact absurd counts none.1

/-- Stored chunks stay, and are not referred to less often. -/
def Grown (s t : Store) : Prop :=
  ∀ a v, s.retrievalDataIndex.lookup a = some v → ∃ w, t.retrievalDataIndex.lookup a = some w ∧ v.counter ≤ w.counter

theorem grown_happen {e : Event} (possible : Possible st e) : Grown st.1 (happen cfg st e).1 := by
  intro b w found
  rcases happen_cases cfg clean possible with ⟨_,agree⟩ | ⟨_,a,v,held,after⟩
  · rw [agree_data agree]
    exact ⟨w,found,Nat.le_refl _⟩
  rw [after]
  simp only [setData,lookup_update]
  split
  · next same =>
    subst same
    cases held.symm.trans found
    exact ⟨_,rfl,Nat.le_succ _⟩
  · exact ⟨w,found,Nat.le_refl _⟩

theorem grown_run {events : List Event} (possible : AllPossible cfg st events) :
    Grown st.1 (events.foldl (happen cfg) st).1 := by
  induction events generalizing st with
  | nil => exact fun _ v found => ⟨v,found,Nat.le_refl _⟩
  | cons e events ih =>
    intro a v found
    obtain ⟨w,found',more⟩ := grown_happen cfg clean possible.1 a v found
    obtain ⟨x,found'',more'⟩ := ih (clean_happen cfg clean e) possible.2 a w found'
    exact ⟨x,found'',more.trans more'⟩

def counters (s : Store) (a : Address) : Option (Nat × Nat) :=
  (s.retrievalDataIndex.lookup a).map (fun v => (v.counter,v.type))

theorem none_of_counters {events : List Event} (possible : AllPossible cfg st events)
    (same : ∀ a, counters (events.foldl (happen cfg) st).1 a = counters st.1 a) : NoneCounts cfg st events := by
  induction events generalizing st with
  | nil => trivial
  | cons e events ih =>
    have clean' := clean_happen cfg clean e
    rcases happen_cases cfg clean possible.1 with ⟨fits,agree⟩ | ⟨_,a,v,held,after⟩
    · refine ⟨fits,ih clean' possible.2 (fun a => ?_)⟩
      rw [counters,counters,agree_data agree]
      exact same a
    -- one reference more is never taken back
    have raised : (happen cfg st e).1.retrievalDataIndex.lookup a = some (countUp v v.type) := by
      rw [after]
      simp only [setData,lookup_update,if_pos]
    obtain ⟨w,final,more⟩ := grown_run cfg clean' possible.2 a _ raised
    have equal := same a
    rw [counters,counters,held,List.foldl_cons,final] at equal
    simp only [Option.map_some,Option.some.injEq,Prod.mk.injEq] at equal
    simp only [countUp] at more
    omega

end

/-- Two operations act alike on stores with the same chunks, transfer lists and pins. -/
abbrev AlikeOps {α β : Type} (ρ : α → β → Prop) (p : Op α) (q : Op β) : Prop := Alike medium refused Kept ρ p q

abbrev SilentOp {α : Type} (p : Op α) : Prop := Silent medium refused Kept p

omit cfg in
theorem silent_find {x : Index} {i : Item} : SilentOp (x.find i) := silent_bind (silent_get) (fun _ => silent_done)

omit cfg in
theorem alike_find {x : Index} (inside : Kept (x.key i)) :
    AlikeOps (fun a b => a = b ∧ (a.isSome → ∃ v, refused (x.key i) (some v) = none)) (x.find i) (x.find i) := by
  refine alike_bind (alike_get inside) (fun a b ⟨same,clean⟩ => alike_done ⟨same ▸ rfl,fun found => ?_⟩)
  rw [Option.isSome_map] at found
  obtain ⟨v,held⟩ := Option.isSome_iff_exists.mp found
  exact ⟨v,clean v held⟩

omit cfg in
theorem alike_has {x : Index} (inside : Kept (x.key i)) : AlikeOps Eq (x.has i) (x.has i) :=
  alike_bind (alike_get inside) (fun _ _ ⟨same,_⟩ => alike_done (same ▸ rfl))

omit cfg in
theorem alike_getItem {x : Index} (inside : Kept (x.key i)) :
    AlikeOps (fun a b => a = b ∧ ∃ v, refused (x.key i) (some v) = none) (x.get i) (x.get i) := by
  refine alike_bind (alike_find inside) (fun a b ⟨same,clean⟩ => ?_)
  subst same
  cases a with
  | none => exact alike_fail
  | some out => exact alike_done ⟨rfl,clean rfl⟩

omit cfg in
theorem alike_gather {α : Type} {walk : α → Op (List Address)} (alike : ∀ a, AlikeOps Eq (walk a) (walk a))
    {as : List α} : AlikeOps Eq (gather walk as) (gather walk as) := by
  induction as with
  | nil => exact alike_done rfl
  | cons a as ih =>
    refine alike_bind (alike a) (fun ps _ same => ?_)
    subst same
    exact alike_bind ih (fun _ _ same => alike_done (same ▸ rfl))

omit cfg in
theorem alike_walkChunk {walk : Address → Nat → Op (List Address)} (alike : ∀ ch t, AlikeOps Eq (walk ch t) (walk ch t))
    (ch : Address) (data : Bytes) (manifest : List Manifest.Node × Option Manifest.Fault) :
    AlikeOps Eq (walkChunk walk ch data manifest) (walkChunk walk ch data manifest) := by
  unfold walkChunk walkNodes walkRefs
  split
  · exact alike_fail
  refine alike_bind (alike_gather (fun n => ?_)) (fun forks _ same => ?_)
  · exact alike_bind (alike_attempt (alike _ _)) (fun _ _ same => alike_done (same ▸ rfl))
  subst same
  split
  · exact alike_done rfl
  refine alike_bind (alike_gather (fun i => ?_)) (fun _ _ same => alike_done (same ▸ rfl))
  dsimp only
  split
  · exact alike_fail
  · split
    · exact alike_done rfl
    · exact alike _ _

omit cfg in
theorem alike_getChunk (fuel : Nat) (ch : Address) (t : Nat) :
    AlikeOps Eq (getChunk fuel ch t) (getChunk fuel ch t) := by
  induction fuel generalizing ch t with
  | zero => exact alike_fail
  | succ fuel ih =>
    unfold getChunk
    refine alike_bind (alike_has (by simp [Kept,part,Index.key])) (fun stored _ same => ?_)
    subst same
    split
    · refine alike_bind (alike_getItem (by simp [Kept,part,Index.key])) (fun item _ both => ?_)
      obtain ⟨rfl,-⟩ := both
      dsimp only
      split
      · exact alike_fail
      · split
        · exact alike_done rfl
        · exact alike_walkChunk ih _ _ _
    · exact alike_done rfl

variable (root : Address)

omit cfg in
theorem alike_getTransfer : AlikeOps Eq (getTransfer root) (getTransfer root) := by
  have listed : AlikeOps Eq (Index.transferData.get (addressToItem root))
      (Index.transferData.get (addressToItem root)) :=
    alike_mono (fun _ _ both => both.1) (alike_getItem (by simp [Kept,part,Index.key]))
  refine alike_bind (alike_attempt listed) (fun out _ same => ?_)
  subst same
  cases out with
  | error e => exact alike_done rfl
  | ok out => exact alike_bind alike_settle (fun _ _ same => alike_done (same ▸ rfl))

theorem alike_getAllChunks : AlikeOps Eq (getAllChunks cfg root) (getAllChunks cfg root) := by
  refine alike_bind (alike_getTransfer root) (fun chunks _ same => ?_)
  subst same
  cases chunks with
  | none => exact alike_getChunk _ _ _
  | some chunks => exact alike_done rfl

omit cfg in
theorem silent_dropGC (named : item.address ≠ []) : SilentOp (dropGC item) := by
  refine silent_bind silent_find (fun found => ?_)
  cases found with
  | none => exact silent_done
  | some gcItem =>
    have staged : ∀ (i : Item) (v : Option Nat), SilentOp (stage (.gc (gcKey i)) v) :=
      fun i v => silent_stage (by simp [Kept,part]) rfl
    dsimp only
    split
    · exact silent_bind (staged _ _) (fun _ => silent_done)
    · refine silent_bind (silent_stage ?_ ?_) (fun _ => silent_bind (staged _ _) (fun _ => silent_done))
      · simp [Kept,part,Index.key]
      · exact refused_accepting.access _ _ named

omit cfg in
/-- The part of a release that concerns the root, once the item of the root is complete. -/
theorem silent_forget (named : item.address ≠ []) :
    SilentOp (do
      deleteFile item.address
      dropGC item) :=
  silent_bind (silent_bind silent_touch (fun _ => silent_done)) (fun _ => silent_dropGC named)

omit cfg in
theorem alike_findData (same : j.address = i.address) :
    AlikeOps (fun a b => ∃ v : Option ChunkValue,
        a = v.map (foundData i) ∧ b = v.map (foundData j) ∧ (v.isSome → i.address ≠ []))
      (Index.retrievalData.find i) (Index.retrievalData.find j) := by
  change AlikeOps _ ((Batches.get (.retrievalData i.address)).bind (fun v => .done (v.map (foundData i))))
    ((Batches.get (.retrievalData j.address)).bind (fun v => .done (v.map (foundData j))))
  rw [same]
  refine alike_bind (alike_get (by simp [Kept,part])) (fun v w both => alike_done ⟨v,rfl,both.1 ▸ rfl,fun found => ?_⟩)
  obtain ⟨x,held⟩ := Option.isSome_iff_exists.mp found
  intro empty
  have accepted := both.2 x held
  rw [empty] at accepted
  cases accepted

omit cfg in
theorem alike_findPin (same : j.address = i.address) :
    AlikeOps (fun a b => ∃ v : Option Nat, a = v.map (foundPin i) ∧ b = v.map (foundPin j))
      (Index.pin.find i) (Index.pin.find j) := by
  change AlikeOps _ ((Batches.get (.pin i.address)).bind (fun v => .done (v.map (foundPin i))))
    ((Batches.get (.pin j.address)).bind (fun v => .done (v.map (foundPin j))))
  rw [same]
  exact alike_bind (alike_get (by simp [Kept,part])) (fun v w both => alike_done ⟨v,rfl,both.1 ▸ rfl⟩)

omit cfg in
/-- Two items for the same chunk, whose access times may differ. -/
structure SameChunk (i j : Item) : Prop where
  address : j.address = i.address
  storeTimestamp : j.storeTimestamp = i.storeTimestamp
  pinCounter : j.pinCounter = i.pinCounter
  named : i.storeTimestamp ≠ 0 → i.address ≠ []

omit cfg in
theorem alike_completeRoot (same : SameChunk i j) :
    AlikeOps (fun a b => ∀ x, a = some x ∨ b = some x → x.address ≠ []) (completeRoot i) (completeRoot j) := by
  unfold completeRoot
  rw [same.storeTimestamp]
  split
  · refine alike_bind (ρ := fun _ _ => i.address ≠ []) (alike_bind (alike_findData same.address) (fun a b found => ?_))
      (fun v w present => ?_)
    · obtain ⟨v,rfl,rfl,named⟩ := found
      cases v with
      | none => exact alike_fail
      | some v => exact alike_done (named rfl)
    refine alike_bind (alike_of_silent silent_find silent_find)
      (fun _ _ _ => alike_done (fun x either => ?_))
    rcases either with found | found
    · obtain ⟨_,_,rfl⟩ := Option.map_eq_some_iff.mp found
      exact present
    · obtain ⟨_,_,rfl⟩ := Option.map_eq_some_iff.mp found
      exact same.address ▸ present
  next stamped =>
  refine alike_done (fun x either => ?_)
  rcases either with found | found
  · cases found
    exact same.named stamped
  · cases found
    exact same.address ▸ same.named stamped

omit cfg in
theorem alike_gcRemove (same : SameChunk i j) : AlikeOps (fun _ _ => True) (gcRemove i) (gcRemove j) := by
  refine alike_bind (alike_completeRoot same) (fun a b named => ?_)
  refine alike_of_silent ?_ ?_
  · cases a with
    | none => exact silent_done
    | some x => exact silent_forget (named x (Or.inl rfl))
  · cases b with
    | none => exact silent_done
    | some x => exact silent_forget (named x (Or.inr rfl))

omit cfg in
theorem alike_releasePin (same : SameChunk i j) : AlikeOps Eq (releasePin i) (releasePin j) := by
  refine alike_bind (alike_findPin same.address) (fun a b found => ?_)
  obtain ⟨n,rfl,rfl⟩ := found
  cases n with
  | none => exact alike_done rfl
  | some n =>
    simp only [Option.map_some,foundPin,same.pinCounter]
    generalize (if n = 0 then i.pinCounter else n) = pins
    have staged : ∀ v, AlikeOps (fun _ _ => True) (stage (.pin i.address) v) (stage (.pin j.address) v) := by
      intro v
      rw [same.address]
      exact alike_stage
    split
    · exact alike_bind (staged _) (fun _ _ _ => alike_done rfl)
    · exact alike_bind (staged _) (fun _ _ _ => alike_done rfl)

omit cfg in
theorem alike_setRemove (addr root : Address) :
    AlikeOps (fun _ _ => True) (setRemove addr (addressToItem root)) (setRemove addr (addressToItem root)) := by
  have rootItem : SameChunk (addressToItem root) (addressToItem root) := ⟨rfl,rfl,rfl,fun stamped => absurd rfl stamped⟩
  refine alike_bind (alike_findData rfl) (fun a b found => ?_)
  obtain ⟨v,rfl,rfl,named⟩ := found
  cases v with
  | none => exact alike_gcRemove rootItem
  | some v =>
    simp only [Option.map_some]
    split
    · exact alike_bind alike_stage (fun _ _ _ => alike_done trivial)
    refine alike_bind (alike_of_silent silent_find silent_find) (fun x y _ => ?_)
    have item : ∀ t t' : Int, SameChunk { foundData (addressToItem addr) v with accessTimestamp := t }
        { foundData (addressToItem addr) v with accessTimestamp := t' } :=
      fun t t' => ⟨rfl,rfl,rfl,fun _ => named rfl⟩
    refine alike_bind (alike_releasePin (item _ _)) (fun pinned _ same => ?_)
    subst same
    split
    · exact alike_done trivial
    refine alike_bind alike_stage (fun _ _ _ => ?_)
    split
    · exact alike_gcRemove (item _ _)
    · refine alike_bind (alike_of_silent ?_ ?_) (fun _ _ _ => alike_gcRemove rootItem)
      · exact silent_stage (by simp [Kept,part,Index.key]) (refused_accepting.access _ _ (named rfl))
      · exact silent_stage (by simp [Kept,part,Index.key]) (refused_accepting.access _ _ (named rfl))

omit cfg in
theorem alike_removeChunks {chunks : List Address} :
    AlikeOps (fun _ _ => True) (removeChunks (addressToItem root) chunks)
      (removeChunks (addressToItem root) chunks) := by
  induction chunks with
  | nil => exact alike_done trivial
  | cons a as ih =>
    exact alike_bind (alike_setRemove a root) (fun _ _ _ => alike_bind ih (fun _ _ _ => alike_done trivial))

omit cfg in
theorem silent_incGCSize {change : Int} : SilentOp (incGCSizeInBatch change) := by
  unfold incGCSizeInBatch
  split
  · exact silent_done
  refine silent_bind silent_get (fun size => ?_)
  dsimp only
  split
  · exact silent_stageAnyway (by simp [Kept,part])
  · split
    · exact silent_done
    · exact silent_stageAnyway (by simp [Kept,part])

theorem alike_DeleteFile : AlikeOps (fun _ _ => True) (DeleteFile cfg root) (DeleteFile cfg root) := by
  refine alike_bind (alike_of_silent silent_touch silent_touch) (fun _ _ _ => ?_)
  refine alike_bind (alike_getAllChunks cfg root) (fun chunks _ same => ?_)
  subst same
  refine alike_bind (alike_removeChunks root) (fun c c' _ => ?_)
  refine alike_bind alike_stage (fun _ _ _ => ?_)
  refine alike_bind (alike_of_silent silent_incGCSize silent_incGCSize) (fun _ _ _ => ?_)
  exact alike_of_silent silent_commit silent_commit

theorem later_agree {st' : Store × Local} (clean : Clean medium refused st.1) (clean' : Clean medium refused st'.1)
    (agree : Agree medium Kept st'.1 st.1) (l : List Later) :
    Agree medium Kept (l.foldl (later cfg) st').1 ((Later.deletions l).foldl (later cfg) st).1 := by
  induction l generalizing st st' with
  | nil => exact agree
  | cons e l ih =>
    cases e with
    | delete root =>
      exact ih (clean_through (DeleteFile cfg root) clean) (clean_through (DeleteFile cfg root) clean')
        (alike_DeleteFile cfg root st' st clean' clean agree).2
    | update item =>
      exact ih clean (clean_through (updateGC cfg item) clean') ((agree_update cfg).symm.trans agree)

/-- The states that puts on request, puts of presence vectors and puts of file
    records lead to from an empty database. -/
inductive Filled (d : Driver) : Store × Local → Prop
  | start (l : Local) : Filled d ({},l)
  | put (root : Address) (chs : List Chunk) {st : Store × Local} :
    Filled d st → Filled d (after cfg d (.put .request root chs) st)
  | vectors (now : Int) (t : ChunkType) (reference : Address) (providers : List Provider) {st : Store × Local} :
    Filled d st → Filled d (st.1,{ st.2 with chunkstore := (st.2.chunkstore.put now t reference providers).2 })
  | file (file : FileView) {st : Store × Local} :
    Filled d st → Filled d (st.1,{ st.2 with filestore := st.2.filestore.put file })

theorem clean_filled (filled : Filled cfg .wiredtiger st) : Clean medium refused st.1 := by
  induction filled with
  | start l =>
    intro k v held
    cases k <;> cases held
  | put root chs _ ih => exact clean_through ((Call.put .request root chs).op cfg) ih
  | vectors now t reference providers _ ih => exact ih
  | file file _ ih => exact ih

/-- In a state that puts on request led to, reads are without a trace exactly when none of them is a
    get on request that names a root for which the chunk store knows no source of the chunk. -/
theorem reads_traceless_iff {st : Store × Local} (filled : Filled cfg .wiredtiger st) (events : List Event)
    (possible : AllPossible cfg st events) :
    Traceless cfg st (events.foldl (happen cfg) st) ↔ NoneCounts cfg st events := by
  have clean := clean_filled cfg filled
  constructor
  · intro traceless
    exact none_of_counters cfg clean possible traceless.counters
  intro none
  have agree := agree_run cfg clean possible none
  have clean' : Clean medium refused (events.foldl (happen cfg) st).1 := by
    clear possible none agree filled
    induction events generalizing st with
    | nil => exact clean
    | cons e events ih => exact ih (clean_happen cfg clean e)
  refine ⟨fun a => by rw [agree_data agree],
    Finmap.ext_lookup fun a => (agree (.transferData a) (by simp [Kept,part])).symm,fun l a => ?_⟩
  rw [agree_data (later_agree cfg clean clean' agree.symm l)]

end

def stored : Store × Local := after steady .wiredtiger (.put .request (sample 1).address [sample 1]) ({},{})

/-- The node with the address 9 is recorded as the source of the chunk. -/
def sourced : Store × Local :=
  (stored.1,{ stored.2 with
    chunkstore := (stored.2.chunkstore.put 0 .source (sample 1).address [⟨[9],0,1,[]⟩]).2 })

theorem filled_stored : Filled steady .wiredtiger stored := .put _ _ (.start {})

theorem source_sourced : sourced.2.chunkstore.source.lookup (sample 1).address =
    some ((∅ : Map Address Entry).insert [9] ⟨⟨1,[1]⟩,0⟩) := by decide +kernel

theorem reads_traceless_sourced :
    let root := (sample 1).address
    let events := [.get .request root root 0 (.ok true),.update (addressToItem root)]
    Traceless steady sourced (events.foldl (happen steady) sourced) := by
  intro root events
  refine (reads_traceless_iff steady (show Filled _ _ sourced from .vectors _ _ _ _ filled_stored) events ⟨?_,trivial,trivial⟩).mpr ⟨?_,id,trivial⟩
  · simp only [root,Possible,Chunkstore.HasChunk,Chunkstore.vectors,source_sourced]
    exact ⟨[⟨[9],⟨⟨1,[1]⟩,0⟩⟩],by decide,by decide⟩
  · rintro ⟨-,-,-,sourceless⟩
    rw [Sourceless,source_sourced] at sourceless
    exact absurd sourceless (by decide +kernel)

/-- A chunk is put as its own root and read once with the root. It then has two references, and the
    deletion of the root leaves it in the store. -/
theorem read_counts :
    let read := .get .request (sample 1).address (sample 1).address 0 (.ok false)
    let st := happen steady stored read
    Filled steady .wiredtiger stored ∧ Possible stored read ∧
      ((later steady st (.delete (sample 1).address)).1.retrievalDataIndex.lookup (sample 1).address).isSome ∧
      ¬ Traceless steady stored st := by
  intro read st
  refine ⟨filled_stored,?_,by decide +kernel,fun traceless => ?_⟩
  · have unknown : stored.2.chunkstore.source.lookup (sample 1).address = none := by decide +kernel
    simp only [read,Possible,Chunkstore.HasChunk,Chunkstore.vectors,unknown]
  · exact absurd (traceless.counters (sample 1).address) (by decide +kernel)

end FavorX.Reads

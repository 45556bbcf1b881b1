import FavorX.Frames

/-!
Calls that fail on the driver that defers its writes. What is staged is lost, but
a pin writes a lowered counter past the batch, a removal forgets who has the
chunks of a file, and a deletion forgets the file. A failed call leaves everything
as it was exactly when none of these can happen before an error (`atomic_iff`).
-/
namespace FavorX.Atomicity
open FiniteMaps Shed Presence Localstore Effects Frames Faults
open Batches hiding get put fail

/-- The indexes, the size and the stores beside the database are as before. -/
structure Unchanged (st st' : Store × Local) : Prop where
  data : st'.1.retrievalDataIndex = st.1.retrievalDataIndex
  access : st'.1.retrievalAccessIndex = st.1.retrievalAccessIndex
  gc : st'.1.gcIndex = st.1.gcIndex
  pin : st'.1.pinIndex = st.1.pinIndex
  transfer : st'.1.transferDataIndex = st.1.transferDataIndex
  gcSize : st'.1.gcSize = st.1.gcSize
  filestore : st'.2.filestore = st.2.filestore
  chunkstore : st'.2.chunkstore = st.2.chunkstore

/-- The error was returned and did not end the process. -/
def Returned (e : Err) : Prop := e ≠ .panicked ∧ e ≠ .endless

/-- Whichever requests fail, a call that returns an error changes nothing. -/
def Atomic (cfg : Config) (c : Call) (st : Store × Local) : Prop :=
  ∀ e t, Returned e → Ends medium (c.op cfg) (st,[]) (.error e) t → Unchanged st t.1

/-! ### What is done at once -/

/-- Pinning a chunk of a file lowers a counter past the batch. -/
def Takes (root : Address) (s : Store) : Prop :=
  root ≠ [] ∧ ∃ t v n, s.retrievalAccessIndex.lookup root = some t ∧ s.retrievalDataIndex.lookup root = some v ∧
    s.gcIndex.lookup ⟨t,v.binID,root⟩ = some n ∧ n ≠ 1

def Completed (root : Address) (s : Store) : Prop :=
  (s.retrievalDataIndex.lookup root).isSome ∧ (s.retrievalAccessIndex.lookup root).isSome

/-- Removing a chunk comes to the garbage of its file: the chunk is not stored,
    or its last reference and its last pin go, and the root is known well enough. -/
def Drops (root a : Address) (s : Store) : Prop :=
  match s.retrievalDataIndex.lookup a with
  | none => Completed root s
  | some v => v.counter ≤ 1 ∧ (s.pinIndex.lookup a).getD 0 ≤ 1 ∧ (Completed root s ∨ a = root ∧ v.storeTimestamp ≠ 0)

def Known (root : Address) (cs : Chunkstore) : Prop := ∃ t, (cs.get t root).isSome

def Tracked (root : Address) (l : Local) : Prop :=
  (l.chunkstore.finder.lookup root).isSome ∨ l.filestore.has root

section
variable (cfg : Config)

/-- The search for the chunks of a file can come to an end. -/
def Walks (root : Address) (s : Store) : Prop :=
  0 < cfg.depth ∨ ∃ data, s.transferDataIndex.lookup root = some data ∧ data.length % hashSize = 0

def Lists (root : Address) (s : Store) (a : Address) : Prop :=
  ∃ chunks, Returns medium s (getAllChunks cfg root) chunks ∧ a ∈ chunks

def Deferring : Call → Store × Local → Prop
  | .put .uploadPin root chs, st => chs = [] ∨ ¬ Takes root st.1
  | .put .requestPin root chs, st =>
    (∀ ch ∈ chs, (st.1.retrievalDataIndex.lookup ch.address).isSome) ∨ ¬ Takes root st.1
  | .set .pin root addrs, st =>
    (∀ a ∈ addrs.head?, st.1.retrievalDataIndex.lookup a = none) ∨ ¬ Takes root st.1
  | .set .remove root addrs, st => (∀ a ∈ addrs, ¬ Drops root a st.1) ∨ ¬ Known root st.2.chunkstore
  | .deleteFile root, st =>
    Walks cfg root st.1 → ¬ Tracked root st.2 ∧
      ((∀ a, Lists cfg root st.1 a → ¬ Drops root a st.1) ∨ ¬ Known root st.2.chunkstore)
  | _, _ => True

end

/-! ### Operations that only stage -/

/-- The file store stays, and so does a chunk store that is spared. -/
def Kept (spared : Chunkstore → Prop) (l l' : Local) : Prop :=
  l'.filestore = l.filestore ∧ (spared l.chunkstore → l'.chunkstore = l.chunkstore)

variable {root a : Address} {item i : Item} {addrs : List Address} {r : Option Item} {binIDs : BinIDs}

section
variable {spared : Chunkstore → Prop}

instance : IsPreorder Local (Kept spared) where
  refl _ := ⟨rfl,fun _ => rfl⟩
  trans l l' l'' first second := by
    refine ⟨second.1.trans first.1,fun holds => ?_⟩
    have same := first.2 holds
    rw [← same] at holds
    exact (second.2 holds).trans same

variable (cfg : Config)

theorem calm_pure {α : Type} {a : α} : Calm Beside (pure a : Op α) := trivial

theorem calm_putInBatch {x : Index} {i : Item} : Calm Beside (x.putInBatch i : Op Unit) := calm_stage

theorem calm_deleteInBatch {x : Index} {i : Item} : Calm Beside (x.deleteInBatch i : Op Unit) := calm_stage

variable {s : Store}

theorem stays_staging {α : Type} {p : Op α} (calm : Calm Beside p) : Stays medium (Kept spared) s p :=
  stays_mono (stays_calm calm) (fun _ _ same => ⟨same.1,fun _ => same.2⟩)

theorem returns_bind_staging {α β : Type} {p : Op α} {f : α → Op β} {b : β} (calm : Calm Beside p)
    (can : Returns medium s (p.bind f) b) : ∃ a, Returns medium s p a ∧ Returns medium s (f a) b :=
  returns_bind (stays_calm calm) can

/-! ### What the requests return -/

section
variable {s : Store}

theorem returns_find {x : Index} (can : Returns medium s (x.find i : Op (Option Item)) r) :
    r = (s.read (x.key i)).map (fun v => (x.decode i v).merge i) := by
  obtain ⟨v,read,rest⟩ := returns_bind_quiet quiet_get can
  rw [returns_pure rest,returns_get read]
  rfl

theorem returns_findData (can : Returns medium s (Index.retrievalData.find i : Op _) r) :
    r = (s.retrievalDataIndex.lookup i.address).map (foundData i) := returns_find can

theorem returns_findAccess (can : Returns medium s (Index.retrievalAccess.find i : Op _) r) :
    r = (s.retrievalAccessIndex.lookup i.address).map (foundAccess i) := returns_find can

theorem returns_findGc (can : Returns medium s (Index.gc.find i : Op _) r) :
    r = (s.gcIndex.lookup (gcKey i)).map (foundGc i) := returns_find can

theorem returns_findPin (can : Returns medium s (Index.pin.find i : Op _) r) :
    r = (s.pinIndex.lookup i.address).map (foundPin i) := returns_find can

theorem returns_has {x : Index} {stored : Bool} (can : Returns medium s (x.has i : Op Bool) stored) :
    stored = (s.read (x.key i)).isSome := by
  obtain ⟨v,read,rest⟩ := returns_bind_quiet quiet_get can
  rw [returns_pure rest,returns_get read]
  rfl

theorem returns_getItem {x : Index} {out : Item} (can : Returns medium s (x.get i : Op Item) out) :
    Returns medium s (x.find i : Op (Option Item)) (some out) := by
  obtain ⟨r,found,rest⟩ := returns_bind_quiet quiet_find can
  cases r with
  | none => exact absurd rest returns_fail
  | some i =>
    rw [returns_pure rest]
    exact found

end

/-! ### Pinning -/

/-- Without anything to take, the part of a pin that concerns the root only stages. -/
theorem stays_pinRoot (untaken : ¬ Takes root s) {b : Nat} (known : b = 0 ∨ s.retrievalDataIndex.lookup root = none) :
    Stays medium (Kept spared) s (pinRoot { addressToItem root with binID := b }) := by
  unfold pinRoot
  split
  · exact stays_pure
  next named =>
  refine stays_bind (stays_quiet quiet_find) (fun found can => ?_)
  have accessed := returns_findAccess can
  cases found with
  | none => exact stays_pure
  | some i =>
    refine stays_bind (stays_quiet quiet_getItem) (fun j can => ?_)
    have stored := returns_findData (returns_getItem can)
    refine stays_bind ?_ (fun _ _ => stays_pure)
    refine stays_bind (stays_quiet quiet_find) (fun entry can => ?_)
    have counted := returns_findGc can
    cases entry with
    | none => exact stays_pure
    | some gcItem =>
      dsimp only
      split
      · exact stays_staging calm_deleteInBatch
      next more =>
      obtain ⟨t,access,rfl⟩ := Option.map_eq_some_iff.mp accessed.symm
      obtain ⟨v,held,rfl⟩ := Option.map_eq_some_iff.mp stored.symm
      obtain ⟨n,entry,rfl⟩ := Option.map_eq_some_iff.mp counted.symm
      have fresh : b = 0 := known.resolve_right (by
        intro absent
        rw [show s.retrievalDataIndex.lookup root = some v from held] at absent
        cases absent)
      refine absurd ⟨named,t,v,n,access,held,?_,?_⟩ untaken
      · rw [← entry]
        congr 1
        simp [-ite_eq_left_iff,gcKey,foundAccess,foundData,addressToItem,fresh]
      · simpa [foundGc,addressToItem] using more

theorem stays_setPin (untaken : ¬ Takes root s) {b : Nat} (known : b = 0 ∨ s.retrievalDataIndex.lookup root = none) :
    Stays medium (Kept spared) s (setPin item { addressToItem root with binID := b }) := by
  refine stays_bind (stays_quiet quiet_find) (fun _ _ => ?_)
  refine stays_bind (stays_pinRoot untaken known) (fun _ _ => ?_)
  exact stays_staging (calm_bind calm_putInBatch (fun _ => calm_pure))

/-! ### Putting -/

theorem returns_putUpload {r : Bool × Item × BinIDs} (can : Returns medium s (putUpload cfg binIDs item) r) :
    r.1 = (s.retrievalDataIndex.lookup item.address).isSome ∧ (r.1 = false → r.2.1.address = item.address) := by
  obtain ⟨stored,has,can⟩ := returns_bind_quiet quiet_has can
  have found := returns_has has
  split at can
  · next there =>
    obtain ⟨_,-,can⟩ := returns_bind_quiet quiet_getItem can
    obtain ⟨_,-,can⟩ := returns_bind_staging calm_putInBatch can
    rw [returns_pure can]
    exact ⟨there.symm.trans found,nofun⟩
  next absent =>
  obtain ⟨_,-,can⟩ := returns_bind_staging (staged_now cfg []).calm can
  obtain ⟨_,-,can⟩ := returns_bind_staging (staged_incBinID [] _ _).calm can
  obtain ⟨_,-,can⟩ := returns_bind_staging calm_putInBatch can
  rw [returns_pure can]
  exact ⟨((Bool.not_eq_true _).mp absent).symm.trans found,fun _ => rfl⟩

/-- A chunk whose put writes nothing past the batch. -/
def Fine (mode : ModePut) (root : Address) (s : Store) (ch : Chunk) : Prop :=
  match mode with
  | .uploadPin => ¬ Takes root s
  | .requestPin => (s.retrievalDataIndex.lookup ch.address).isSome ∨ ¬ Takes root s
  | _ => True

theorem stays_putRequest {ch : Chunk} {t : Nat} {forcePin : Bool}
    (fine : forcePin → (s.retrievalDataIndex.lookup ch.address).isSome ∨ ¬ Takes root s) :
    Stays medium (Kept spared) s
      (putRequest cfg binIDs { chunkToItem ch with type := t } (addressToItem root) forcePin) := by
  refine stays_bind (stays_staging (staged_putUpload cfg _ _).calm) (fun r can => ?_)
  obtain ⟨stored,same⟩ := returns_putUpload cfg can
  dsimp only
  split
  · exact stays_pure
  next absent =>
  have gone := (Bool.not_eq_true _).mp absent
  have address := same gone
  rw [gone] at stored
  refine stays_bind ?_ (fun _ _ => stays_pure)
  unfold preserveOrCache
  split
  · next pin =>
    have untaken := (fine pin).resolve_left (by
      rw [show (s.retrievalDataIndex.lookup ch.address).isSome = false from stored.symm]
      exact Bool.false_ne_true)
    split
    · next here =>
      have isRoot : root = ch.address := here.symm.trans address
      refine stays_setPin untaken (.inr ?_)
      rw [isRoot]
      exact Option.isNone_iff_eq_none.mp (Option.isSome_eq_false_iff.mp stored.symm)
    · exact stays_setPin untaken (.inl rfl)
  · exact stays_staging (staged_setGC cfg).calm

variable {mode : ModePut}

theorem stays_putChunk {ch : Chunk} (fine : Fine mode root s ch) :
    Stays medium (Kept spared) s (putChunk cfg mode root binIDs ch) := by
  have transfer : ∀ r : Bool × Int × BinIDs, Stays medium (Kept spared) s (do
      putTransfer root [ch.address]
      pure r) := fun r => stays_staging (calm_bind (staged_putTransfer _ _).calm (fun _ => calm_pure))
  cases mode with
  | request => exact stays_bind (stays_putRequest cfg nofun) (fun _ _ => transfer _)
  | requestPin => exact stays_bind (stays_putRequest cfg (fun _ => fine)) (fun _ _ => transfer _)
  | upload => exact stays_staging (calm_bind (staged_putUpload cfg _ _).calm (fun _ => calm_pure))
  | uploadPin =>
    refine stays_bind (stays_staging (staged_putUpload cfg _ _).calm) (fun _ _ => ?_)
    exact stays_bind (stays_setPin fine (.inl rfl)) (fun _ _ => stays_pure)
  | chain => exact stays_putRequest cfg nofun

variable {chs : List Chunk}

theorem stays_putChunks (fine : ∀ ch ∈ chs, Fine mode root s ch) :
    Stays medium (Kept spared) s (putChunks cfg mode root binIDs chs) := by
  induction chs generalizing binIDs with
  | nil => exact stays_pure
  | cons ch chs ih =>
    refine stays_bind (stays_putChunk cfg (fine ch List.mem_cons_self)) (fun _ _ => ?_)
    refine stays_bind (ih fun ch later => fine ch (List.mem_cons_of_mem _ later)) (fun _ _ => ?_)
    exact stays_pure

theorem safe_put (fine : ∀ ch ∈ chs, Fine mode root s ch) : Safe medium (Kept spared) s (put cfg mode root chs) := by
  refine safe_bind (stays_staging (staged_markDirty [] _).calm) (fun _ _ => ?_)
  refine safe_bind (stays_putChunks cfg fine) (fun _ _ => ?_)
  refine safe_bind (stays_staging staged_putBinIDs.calm) (fun _ _ => ?_)
  exact safe_bind (stays_staging staged_incGCSize.calm) (fun _ _ => safe_map _ safe_commit)

/-! ### Removing -/

theorem removeAll_unknown {cs : Chunkstore} (unknown : ¬ Known root cs) (t : ChunkType) : cs.removeAll t root = cs := by
  have none : (cs.vectors t).lookup root = none := by
    by_contra some
    exact unknown ⟨t,Option.isSome_iff_ne_none.mpr some⟩
  unfold Chunkstore.removeAll
  rw [none]

/-- A chunk store is spared where nothing comes to the garbage or nothing is known. -/
def Sparing (drops : Prop) (root : Address) (cs : Chunkstore) : Prop := ¬ drops ∨ ¬ Known root cs

theorem stays_deleteFile {drops : Prop} (holds : drops) :
    Stays medium (Kept (Sparing drops root)) s (deleteFile root) := by
  rintro l batch r t ⟨-,rfl⟩
  refine ⟨rfl,rfl,fun spared => ?_⟩
  have unknown := spared.resolve_left (not_not_intro holds)
  simp only [removeAll_unknown unknown]

theorem returns_completeRoot {out : Item} (can : Returns medium s (completeRoot item) (some out)) :
    out.address = item.address ∧ (item.storeTimestamp ≠ 0 ∨ Completed item.address s) := by
  unfold completeRoot at can
  split at can
  · obtain ⟨i,stored,can⟩ := returns_bind_quiet quiet_getItem can
    obtain ⟨j,accessed,can⟩ := returns_bind_quiet quiet_find can
    have data := returns_findData (returns_getItem stored)
    have access := returns_findAccess accessed
    obtain ⟨v,held,-⟩ := Option.map_eq_some_iff.mp data.symm
    obtain ⟨j,rfl,rfl⟩ := Option.map_eq_some_iff.mp (returns_pure can).symm
    obtain ⟨t,time,-⟩ := Option.map_eq_some_iff.mp access.symm
    exact ⟨rfl,.inr ⟨by rw [held]; rfl,by rw [show s.retrievalAccessIndex.lookup item.address = some t from time]; rfl⟩⟩
  · next stamped =>
    cases returns_pure can
    exact ⟨rfl,.inl stamped⟩

theorem stays_gcRemove {drops : Prop} {item : Item}
    (comes : item.storeTimestamp ≠ 0 ∨ Completed item.address s → drops) :
    Stays medium (Kept (Sparing drops item.address)) s (gcRemove item) := by
  refine stays_bind (stays_quiet (quiet_completeRoot item)) (fun found can => ?_)
  cases found with
  | none => exact stays_pure
  | some out =>
    obtain ⟨same,complete⟩ := returns_completeRoot can
    rw [← same]
    refine stays_bind (stays_deleteFile (comes complete)) (fun _ _ => ?_)
    exact stays_staging (staged_dropGC _).calm

theorem returns_releasePin (fresh : item.pinCounter = 0) (can : Returns medium s (releasePin item) false) :
    (s.pinIndex.lookup item.address).getD 0 ≤ 1 := by
  obtain ⟨found,read,can⟩ := returns_bind_quiet quiet_find can
  have pinned := returns_findPin read
  cases found with
  | none =>
    rw [Option.map_eq_none_iff.mp pinned.symm]
    exact Nat.zero_le 1
  | some pinItem =>
    obtain ⟨n,held,rfl⟩ := Option.map_eq_some_iff.mp pinned.symm
    simp only [foundPin,fresh,ite_eq_self] at can
    rw [held]
    split at can
    · obtain ⟨_,-,can⟩ := returns_bind_staging calm_putInBatch can
      cases returns_pure can
    · next last => exact (by omega : n ≤ 1)

theorem stays_setRemove : Stays medium (Kept (Sparing (Drops root a s) root)) s (setRemove a (addressToItem root)) := by
  refine stays_bind (stays_quiet quiet_find) (fun found can => ?_)
  have data := returns_findData can
  cases found with
  | none =>
    have absent : s.retrievalDataIndex.lookup a = none := Option.map_eq_none_iff.mp data.symm
    refine stays_gcRemove (fun complete => ?_)
    unfold Drops
    rw [absent]
    exact complete.resolve_left (fun stamped => stamped rfl)
  | some item =>
    obtain ⟨v,held,rfl⟩ := Option.map_eq_some_iff.mp data.symm
    have stored : s.retrievalDataIndex.lookup a = some v := held
    dsimp only
    split
    · exact stays_staging (calm_bind calm_putInBatch (fun _ => calm_pure))
    next last =>
    refine stays_bind (stays_quiet quiet_find) (fun accessed _ => ?_)
    refine stays_bind (stays_staging staged_releasePin.calm) (fun pinned can => ?_)
    split
    · exact stays_pure
    next unpinned =>
    rw [(Bool.not_eq_true _).mp unpinned] at can
    have pins : (s.pinIndex.lookup a).getD 0 ≤ 1 := returns_releasePin rfl can
    have counter : v.counter ≤ 1 := Nat.not_lt.mp last
    refine stays_bind (stays_staging calm_deleteInBatch) (fun _ _ => ?_)
    split
    · next here =>
      have same : a = root := here
      subst same
      refine stays_gcRemove (fun complete => ?_)
      unfold Drops
      rw [stored]
      refine ⟨counter,pins,complete.symm.imp_right (fun stamped => ⟨rfl,fun zero => stamped ?_⟩)⟩
      simp [foundData,addressToItem,zero]
    refine stays_bind (stays_staging calm_deleteInBatch) (fun _ _ => ?_)
    refine stays_gcRemove (fun complete => ?_)
    unfold Drops
    rw [stored]
    exact ⟨counter,pins,.inl (complete.resolve_left (fun stamped => stamped rfl))⟩

theorem Sparing.weaken {drops drops' : Prop} (more : drops → drops') {cs : Chunkstore}
    (sparing : Sparing drops' root cs) : Sparing drops root cs := sparing.imp_left (fun none holds => none (more holds))

theorem kept_weaken {spared spared' : Chunkstore → Prop} (more : ∀ cs, spared' cs → spared cs) (l l' : Local)
    (kept : Kept spared l l') : Kept spared' l l' := ⟨kept.1,fun holds => kept.2 (more _ holds)⟩

/-- Removing chunks leaves the chunk store alone unless one of them comes to the
    garbage of a root that is known. -/
theorem stays_removeChunks {addrs : List Address} :
    Stays medium (Kept (Sparing (∃ a ∈ addrs, Drops root a s) root)) s (removeChunks (addressToItem root) addrs) := by
  induction addrs with
  | nil => exact stays_pure
  | cons a addrs ih =>
    refine stays_bind ?_ (fun _ _ => stays_bind ?_ (fun _ _ => stays_pure))
    · refine stays_mono stays_setRemove (kept_weaken fun cs => Sparing.weaken (fun drops => ?_))
      exact ⟨a,List.mem_cons_self,drops⟩
    · refine stays_mono ih (kept_weaken fun cs => Sparing.weaken (fun drops => ?_))
      obtain ⟨c,member,drops⟩ := drops
      exact ⟨c,List.mem_cons_of_mem _ member,drops⟩

/-! ### Setting -/

theorem stays_sync (root : Address) (addrs : List Address) :
    Stays medium (Kept spared) s (setAddresses cfg .sync root addrs) := by
  induction addrs with
  | nil => exact stays_pure
  | cons a addrs ih =>
    refine stays_bind (stays_staging (staged_setSync cfg a).calm) (fun _ _ => ?_)
    exact stays_bind ih (fun _ _ => stays_pure)

theorem stays_unpin (root : Address) (addrs : List Address) :
    Stays medium (Kept spared) s (setAddresses cfg .unpin root addrs) := by
  induction addrs with
  | nil => exact stays_pure
  | cons a addrs ih =>
    refine stays_bind (stays_staging (staged_setUnpin cfg _ _).calm) (fun _ _ => ?_)
    exact stays_bind ih (fun _ _ => stays_pure)

/-- A pin only stages if there is nothing to take, or if it fails at its first address. -/
theorem stays_pin (fine : (∀ a ∈ addrs.head?, s.retrievalDataIndex.lookup a = none) ∨ ¬ Takes root s) :
    Stays medium (Kept spared) s (setAddresses cfg .pin root addrs) := by
  induction addrs with
  | nil => exact stays_pure
  | cons a addrs ih =>
    have one : ∀ untaken : s.retrievalDataIndex.lookup a = none ∨ ¬ Takes root s,
        Stays medium (Kept spared) s (setAddress cfg .pin root a) := by
      intro untaken
      refine stays_bind (stays_quiet quiet_has) (fun stored can => ?_)
      split
      · next there =>
        refine stays_setPin (untaken.resolve_left (fun absent => ?_)) (.inl rfl)
        have found : stored = (s.retrievalDataIndex.lookup a).isSome := returns_has can
        rw [there,absent] at found
        cases found
      · exact stays_fail _
    rcases fine with absent | untaken
    · have gone := absent a rfl
      refine stays_bind (one (.inl gone)) (fun c can => ?_)
      obtain ⟨stored,has,can⟩ := returns_bind_quiet quiet_has can
      have found : stored = (s.retrievalDataIndex.lookup a).isSome := returns_has has
      rw [gone] at found
      cases found
      exact absurd can returns_fail
    · refine stays_bind (one (.inr untaken)) (fun _ _ => ?_)
      exact stays_bind (ih (.inr untaken)) (fun _ _ => stays_pure)

theorem safe_set {mode : ModeSet} (stays : Stays medium (Kept spared) s (setAddresses cfg mode root addrs)) :
    Safe medium (Kept spared) s (Localstore.set cfg mode root addrs) := by
  refine safe_bind (stays_staging (staged_markDirty [] _).calm) (fun _ _ => ?_)
  refine safe_bind stays (fun _ _ => ?_)
  refine safe_bind (stays_staging staged_incGCSize.calm) (fun _ _ => ?_)
  exact safe_commit

theorem safe_updateGC (item : Item) : Safe medium (Kept spared) s (updateGC cfg item) := by
  have done : Safe medium (Kept spared) s (pure () : Op Unit) := by
    rintro l batch e t ⟨same,-⟩
    cases same
  refine safe_bind (stays_staging (staged_markDirty [] _).calm) (fun _ _ => ?_)
  refine safe_bind (stays_quiet quiet_find) (fun _ _ => ?_)
  dsimp only
  split
  · exact done
  refine safe_bind (stays_quiet (quiet_storedItem _)) (fun _ _ => ?_)
  refine safe_bind (stays_quiet (quiet_findGC _)) (fun found _ => ?_)
  cases found with
  | none => exact done
  | some gcItem =>
    refine safe_bind (stays_staging calm_deleteInBatch) (fun _ _ => ?_)
    refine safe_bind (stays_staging (staged_now cfg []).calm) (fun _ _ => ?_)
    refine safe_bind (stays_staging calm_putInBatch) (fun _ _ => ?_)
    refine safe_bind (stays_staging calm_putInBatch) (fun _ _ => ?_)
    exact safe_commit

/-! ### Deleting -/

theorem safe_setRemoveAll :
    Safe medium (Kept (Sparing (∃ a, Lists cfg root s a ∧ Drops root a s) root)) s
      (setRemoveAll cfg (addressToItem root)) := by
  refine safe_bind (stays_quiet (quiet_getAllChunks cfg _)) (fun chunks can => ?_)
  refine safe_bind ?_ (fun _ _ => ?_)
  · refine stays_mono stays_removeChunks (kept_weaken fun cs => Sparing.weaken ?_)
    rintro ⟨a,member,drops⟩
    exact ⟨a,⟨chunks,can,member⟩,drops⟩
  · refine safe_bind (stays_staging calm_deleteInBatch) (fun _ _ => ?_)
    refine safe_bind (stays_staging staged_incGCSize.calm) (fun _ _ => ?_)
    exact safe_commit

variable {t : (Store × Local) × Batch Value}

/-- What the search in the transfer lists can end with: nothing is known, or the
    list of the file is what it reads as. -/
theorem ends_getTransfer {s : (Store × Local) × Batch Value} {r : Except Err (Option (List Address))}
    (ended : Ends medium (getTransfer root) s r t) :
    r = .ok none ∨ ∃ data, s.1.1.transferDataIndex.lookup root = some data ∧ r = (addressesOf data).map some := by
  rcases ends_bind.mp ended with ⟨e,-,failed⟩ | ⟨out,u,read,rest⟩
  · obtain ⟨r',-,same⟩ := ends_attempt.mp failed
    cases r' <;> simp at same
  have still := ends_quiet (quiet_attempt quiet_getItem) read
  subst still
  obtain ⟨r',got,same⟩ := ends_attempt.mp read
  cases r' with
  | error e =>
    cases same
    exact .inl rest.1
  | ok item =>
    cases same
    obtain ⟨⟨st,l⟩,batch⟩ := u
    have found := returns_find (returns_getItem ⟨l,batch,_,got⟩)
    obtain ⟨data,held,rfl⟩ := Option.map_eq_some_iff.mp found.symm
    refine .inr ⟨data,held,?_⟩
    change Ends medium ((settle (addressesOf data)).bind fun chs => pure (some chs)) _ r t at rest
    cases listed : addressesOf data with
    | error e | ok chs =>
      rw [listed] at rest
      exact rest.1

theorem crash_of_not_walks {s : (Store × Local) × Batch Value} (endless : ¬ Walks cfg root s.1.1)
    {r : Except Err (List Address)} (ended : Ends medium (getAllChunks cfg root) s r t) :
    ∃ e, r = .error e ∧ ¬ Returned e := by
  have shallow : cfg.depth = 0 := by
    by_contra deep
    exact endless (.inl (Nat.pos_of_ne_zero deep))
  have misaligned : ∀ data, s.1.1.transferDataIndex.lookup root = some data → addressesOf data = .error .panicked := by
    intro data held
    unfold addressesOf
    rw [if_pos]
    exact fun aligned => endless (.inr ⟨data,held,aligned⟩)
  rcases ends_bind.mp ended with ⟨e,rfl,failed⟩ | ⟨known,u,found,rest⟩
  · rcases ends_getTransfer failed with same | ⟨data,held,same⟩
    · cases same
    · rw [misaligned data held] at same
      cases same
      exact ⟨.panicked,rfl,fun returned => returned.1 rfl⟩
  rcases ends_getTransfer found with same | ⟨data,held,same⟩
  · cases same
    simp only [shallow] at rest
    exact ⟨.endless,rest.1,fun returned => returned.2 rfl⟩
  · rw [misaligned data held] at same
    cases same

/-! ### What leaves everything as it was -/

theorem unchanged_of_kept {st st' : Store × Local} (store : st'.1 = st.1) (kept : Kept spared st.2 st'.2)
    (holds : spared st.2.chunkstore) : Unchanged st st' := by
  refine ⟨?_,?_,?_,?_,?_,?_,kept.1,kept.2 holds⟩ <;> rw [store]

variable {st : Store × Local}

theorem atomic_of_safe (spared : Chunkstore → Prop) {c : Call} (safe : Safe medium (Kept spared) st.1 (c.op cfg))
    (holds : spared st.2.chunkstore) : Atomic cfg c st := by
  intro e t _ ended
  obtain ⟨store,kept⟩ := safe st.2 [] e t ended
  exact unchanged_of_kept store kept holds

theorem untracked {l : Local} (free : ¬ Tracked root l) :
    { l with chunkstore := l.chunkstore.cancelFinder root, filestore := l.filestore.delete root } = l := by
  have finder : l.chunkstore.finder.lookup root = none := by
    by_contra some
    exact free (.inl (Option.isSome_iff_ne_none.mpr some))
  have unrecorded : l.filestore.delete root = l.filestore := by
    unfold Filestore.delete
    rw [if_neg fun has => free (.inr has)]
  have unsearched : l.chunkstore.cancelFinder root = l.chunkstore := by
    unfold Chunkstore.cancelFinder
    rw [erase_of_none finder]
  rw [unrecorded,unsearched]

theorem ends_deleteFile {e : Err} :
    Ends medium ((Call.deleteFile root).op cfg) (st,[]) (.error e) t ↔
      Ends medium (setRemoveAll cfg (addressToItem root)) (undirected root st,[]) (.error e) t := by
  constructor
  · intro ended
    rcases ends_bind.mp ended with ⟨e',same,failed⟩ | ⟨_,u,-,same,-⟩
    · cases same
      exact failed
    · cases same
  · intro ended
    exact Ends.bind_error (show Ends medium (DeleteFile cfg root) (st,[]) (.error e) t from ended)

theorem atomic_deleteFile (fine : Deferring cfg (.deleteFile root) st) : Atomic cfg (.deleteFile root) st := by
  intro e t returned ended
  rw [ends_deleteFile] at ended
  by_cases walks : Walks cfg root st.1
  · obtain ⟨free,spared⟩ := fine walks
    have same : undirected root st = st := Prod.ext rfl (untracked free)
    rw [same] at ended
    obtain ⟨store,kept⟩ := safe_setRemoveAll cfg st.2 [] e t ended
    refine unchanged_of_kept store kept (spared.imp_left ?_)
    rintro none ⟨a,listed,drops⟩
    exact none a listed drops
  rcases ends_bind.mp ended with ⟨e',same,failed⟩ | ⟨chunks,u,found,-⟩
  · obtain ⟨e'',same',crashed⟩ := crash_of_not_walks cfg walks failed
    cases same
    cases same'
    exact absurd returned crashed
  · obtain ⟨e',same,-⟩ := crash_of_not_walks cfg walks found
    cases same

theorem atomic_of_deferring {c : Call} (fine : Deferring cfg c st) : Atomic cfg c st := by
  cases c with
  | put mode root chs =>
    have each : ∀ ch ∈ chs, Fine mode root st.1 ch := by
      intro ch member
      cases mode with
      | uploadPin => exact fine.resolve_left (List.ne_nil_of_mem member)
      | requestPin => exact fine.imp_left (fun all => all ch member)
      | request => trivial
      | upload => trivial
      | chain => trivial
    exact atomic_of_safe cfg (fun _ => True) (safe_put cfg each) trivial
  | set mode root addrs =>
    cases mode with
    | sync => exact atomic_of_safe cfg (fun _ => True) (safe_map _ (safe_set cfg (stays_sync cfg root addrs))) trivial
    | unpin => exact atomic_of_safe cfg (fun _ => True) (safe_map _ (safe_set cfg (stays_unpin cfg root addrs))) trivial
    | pin => exact atomic_of_safe cfg (fun _ => True) (safe_map _ (safe_set cfg (stays_pin cfg fine))) trivial
    | remove =>
      refine atomic_of_safe cfg (Sparing (∃ a ∈ addrs, Drops root a st.1) root) (safe_map _ (safe_set cfg ?_)) ?_
      · rw [setAddresses_remove]
        exact stays_removeChunks
      · refine fine.imp_left ?_
        rintro none ⟨a,member,drops⟩
        exact none a member drops
  | updateGC item => exact atomic_of_safe cfg (fun _ => True) (safe_map _ (safe_updateGC cfg item)) trivial
  | deleteFile root => exact atomic_deleteFile cfg fine

end

/-! ### Runs that change something and then fail -/

section
variable {s : Store} {l : Local} {batch : Batch Value}

theorem ends_find (x : Index) (i : Item) (t : (Store × Local) × Batch Value) :
    Ends medium (x.find i : Op (Option Item)) t
      (.ok ((t.1.1.read (x.key i)).map fun v => (x.decode i v).merge i)) t :=
  Ends.bind (ends_get medium) ⟨rfl,rfl⟩

theorem ends_find_error {x : Index} {i : Item} {e : Err} {t : (Store × Local) × Batch Value} :
    Ends medium (x.find i : Op (Option Item)) t (.error e) t := Ends.bind_error (ends_get_error medium e t)

theorem ends_getItem {x : Index} {out : Item} {t : (Store × Local) × Batch Value}
    (found : ((t.1.1.read (x.key i)).map fun v => (x.decode i v).merge i) = some out) :
    Ends medium (x.get i : Op Item) t (.ok out) t := by
  refine Ends.bind (ends_find x i t) ?_
  rw [found]
  exact ⟨rfl,rfl⟩

theorem taken_pinRoot {t : Int} {v : ChunkValue} {n : Nat} (named : root ≠ [])
    (access : s.retrievalAccessIndex.lookup root = some t) (held : s.retrievalDataIndex.lookup root = some v)
    (entry : s.gcIndex.lookup ⟨t,v.binID,root⟩ = some n) (more : n ≠ 1) :
    Ends medium (pinRoot (addressToItem root)) ((s,l),batch) (.ok (-1))
      ((s.write (.gc ⟨t,v.binID,root⟩) (some (dec64 n)),l),batch) := by
  have findsAccess (i : Item) : deferred medium (Index.retrievalAccess.find i : Op _) (s,l) batch =
      (.ok ((s.retrievalAccessIndex.lookup i.address).map (foundAccess i)),(s,l),batch) := rfl
  have findsData (i : Item) : deferred medium (Index.retrievalData.find i : Op _) (s,l) batch =
      (.ok ((s.retrievalDataIndex.lookup i.address).map (foundData i)),(s,l),batch) := rfl
  have findsGc (i : Item) : deferred medium (Index.gc.find i : Op _) (s,l) batch =
      (.ok ((s.gcIndex.lookup (gcKey i)).map (foundGc i)),(s,l),batch) := rfl
  have puts (i : Item) : deferred medium (Index.gc.put i : Op Unit) (s,l) batch =
      (.ok (),(s.write (.gc (gcKey i)) (some i.gCounter),l),batch) := rfl
  have run : deferred medium (pinRoot (addressToItem root)) (s,l) batch =
      (.ok (-1),(s.write (.gc ⟨t,v.binID,root⟩) (some (dec64 n)),l),batch) := by
    unfold pinRoot uncountGC Index.get
    simp [-ite_eq_left_iff,addressToItem,named,deferred_bind,findsAccess,findsData,findsGc,foundAccess,foundData,
      puts,foundGc,gcKey,access,held,deferred,entry,more]
  have ended := ends_deferred medium (pinRoot (addressToItem root)) (s,l) batch
  rwa [run] at ended

theorem taken_setPin (item : Item) (takes : Takes root s) (e : Err) (l : Local) (batch : Batch Value) :
    ∃ s', Ends medium (setPin item (addressToItem root)) ((s,l),batch) (.error e) ((s',l),batch) ∧
      s'.gcIndex ≠ s.gcIndex := by
  obtain ⟨named,t,v,n,access,held,entry,more⟩ := takes
  refine ⟨_,Ends.bind (ends_find _ _ _) (Ends.bind (taken_pinRoot named access held entry more)
    (Ends.bind_error (ends_stage_error _))),fun same => ?_⟩
  have here := congrArg (Finmap.lookup ⟨t,v.binID,root⟩) same
  simp only [Store.write,lookup_update,if_true,entry,Option.some.injEq] at here
  exact (by unfold dec64; omega : dec64 n ≠ n) here

section
variable (cfg : Config)

theorem passes_find {x : Index} {i : Item} : Passes medium s (x.find i : Op (Option Item)) :=
  passes_bind passes_get (fun _ _ => passes_pure)

theorem passes_has {x : Index} {i : Item} : Passes medium s (x.has i : Op Bool) :=
  passes_bind passes_get (fun _ _ => passes_pure)

theorem passes_getItem {x : Index} (there : (s.read (x.key i)).isSome) : Passes medium s (x.get i : Op Item) := by
  refine passes_bind passes_find (fun found can => ?_)
  obtain ⟨v,held⟩ := Option.isSome_iff_exists.mp there
  rw [returns_find can,held]
  exact passes_pure

theorem passes_markDirty {addrs : List Address} : Passes medium s (markDirty addrs) :=
  passes_bind passes_touch (fun _ _ => passes_pure)

theorem passes_putInBatch {x : Index} {i : Item} : Passes medium s (x.putInBatch i : Op Unit) := passes_stage

theorem passes_deleteInBatch {x : Index} {i : Item} : Passes medium s (x.deleteInBatch i : Op Unit) := passes_stage

theorem passes_putUpload (binIDs : BinIDs) (item : Item) : Passes medium s (putUpload cfg binIDs item) := by
  refine passes_bind passes_has (fun stored can => ?_)
  split
  · next there =>
    refine passes_bind (passes_getItem ((returns_has can).symm.trans there)) (fun _ _ => ?_)
    exact passes_bind passes_putInBatch (fun _ _ => passes_pure)
  refine passes_bind (passes_bind passes_touch (fun _ _ => passes_pure)) (fun _ _ => passes_bind ?_ (fun _ _ => ?_))
  · unfold incBinID
    split
    · exact passes_pure
    · exact passes_bind passes_get (fun _ _ => passes_bind passes_pure (fun _ _ => passes_pure))
  · exact passes_bind passes_putInBatch (fun _ _ => passes_pure)

theorem passes_putTransfer {root : Address} (chs : List Address) : Passes medium s (putTransfer root chs) := by
  refine passes_bind passes_has (fun stored can => ?_)
  split
  · next there =>
    exact passes_bind (passes_getItem ((returns_has can).symm.trans there)) (fun _ _ => passes_putInBatch)
  · exact passes_putInBatch

/-- A request with a pin goes past the stored chunks and pins the first new one
    past the batch. -/
theorem taken_requestPin (takes : Takes root s) (new : ∃ ch ∈ chs, s.retrievalDataIndex.lookup ch.address = none)
    (e : Err) (binIDs : BinIDs) (l : Local) (batch : Batch Value) :
    ∃ t, Ends medium (putChunks cfg .requestPin root binIDs chs) ((s,l),batch) (.error e) t ∧
      t.1.1.gcIndex ≠ s.gcIndex := by
  induction chs generalizing l batch binIDs with
  | nil =>
    obtain ⟨ch,member,-⟩ := new
    cases member
  | cons ch chs ih =>
    obtain ⟨⟨there,item,binIDs'⟩,l',batch',stored⟩ :=
      (passes_putUpload cfg binIDs { chunkToItem ch with type := 1 } : Passes medium s _) l batch
    obtain ⟨found,same⟩ := returns_putUpload cfg ⟨l,batch,_,stored⟩
    cases held : s.retrievalDataIndex.lookup ch.address with
    | none =>
      have gone : there = false := by
        rw [show there = (s.retrievalDataIndex.lookup ch.address).isSome from found,held]
        rfl
      have other : ¬ item.address = (addressToItem root).address := by
        obtain ⟨-,t,v,n,-,data,-⟩ := takes
        intro here
        have isRoot : root = ch.address := here.symm.trans (same gone)
        rw [isRoot,held] at data
        cases data
      obtain ⟨s',failed,changed⟩ := taken_setPin item takes e l' batch'
      subst gone
      refine ⟨((s',l'),batch'),Ends.bind_error (Ends.bind_error (Ends.bind stored ?_)),changed⟩
      dsimp only
      rw [if_neg other]
      exact Ends.bind_error failed
    | some v =>
      have known : there = true := by
        rw [show there = (s.retrievalDataIndex.lookup ch.address).isSome from found,held]
        rfl
      subst known
      have later : ∃ ch ∈ chs, s.retrievalDataIndex.lookup ch.address = none := by
        obtain ⟨c,member,absent⟩ := new
        rcases List.mem_cons.mp member with rfl | later
        · rw [held] at absent
          cases absent
        · exact ⟨c,later,absent⟩
      obtain ⟨_,l'',batch'',listed⟩ := (passes_putTransfer [ch.address] : Passes medium s _) l' batch'
      obtain ⟨t,failed,changed⟩ := ih later binIDs' l'' batch''
      refine ⟨t,Ends.bind (Ends.bind (Ends.bind stored ⟨rfl,rfl⟩) (Ends.bind listed ⟨rfl,rfl⟩)) ?_,changed⟩
      exact Ends.bind_error failed

theorem ends_completeRoot (complete : item.storeTimestamp ≠ 0 ∨ Completed item.address s) :
    ∃ out, Ends medium (completeRoot item) ((s,l),batch) (.ok (some out)) ((s,l),batch) ∧ out.address = item.address := by
  by_cases zero : item.storeTimestamp = 0
  · obtain ⟨stored,accessed⟩ := complete.resolve_left (not_not_intro zero)
    obtain ⟨v,held⟩ := Option.isSome_iff_exists.mp stored
    obtain ⟨t,time⟩ := Option.isSome_iff_exists.mp accessed
    have got : Ends medium (Index.retrievalData.get item : Op Item) ((s,l),batch) (.ok (foundData item v)) ((s,l),batch) :=
      ends_getItem (congrArg (Option.map (foundData item)) held)
    have found (i : Item) (same : i.address = item.address) :
        Ends medium (Index.retrievalAccess.find i : Op (Option Item)) ((s,l),batch) (.ok (some (foundAccess i t)))
          ((s,l),batch) := by
      have read := ends_find .retrievalAccess i ((s,l),batch)
      rw [← same] at time
      rwa [show (((s,l),batch).1.1.read (Index.retrievalAccess.key i)).map
        (fun v => (Index.retrievalAccess.decode i v).merge i) = some (foundAccess i t) from
          congrArg (Option.map (foundAccess i)) time] at read
    unfold completeRoot
    rw [if_pos zero]
    exact ⟨_,Ends.bind got (Ends.bind (found _ rfl) ⟨rfl,rfl⟩),rfl⟩
  refine ⟨item,?_,rfl⟩
  unfold completeRoot
  rw [if_neg zero]
  exact ⟨rfl,rfl⟩

/-- Coming to the garbage of a file forgets its vectors, and then the next
    request can fail. -/
theorem dropped_gcRemove (complete : item.storeTimestamp ≠ 0 ∨ Completed item.address s) {e : Err} {l : Local}
    (batch : Batch Value) :
    ∃ l', Ends medium (gcRemove item) ((s,l),batch) (.error e) ((s,l'),batch) ∧ ¬ Known item.address l'.chunkstore := by
  obtain ⟨out,found,same⟩ : ∃ out, Ends medium (completeRoot item) ((s,l),batch) (.ok (some out)) ((s,l),batch) ∧
    out.address = item.address := ends_completeRoot complete
  refine ⟨(forget out.address (s,l)).2,Ends.bind found ?_,?_⟩
  · exact Ends.bind ⟨rfl,rfl⟩ (Ends.bind_error ends_find_error)
  · rw [← same]
    rintro ⟨t,found⟩
    simp only [forget,Chunkstore.get_removeAll] at found
    cases t <;> simp at found

theorem ends_stage {k : Key} {v : Option (Value k)} {t : (Store × Local) × Batch Value} :
    Ends medium (stage k v : Op Unit) t (.ok ()) (t.1,t.2 ++ [⟨k,v⟩]) := .inl ⟨rfl,rfl⟩

theorem ends_releasePin (fresh : item.pinCounter = 0) (last : (s.pinIndex.lookup item.address).getD 0 ≤ 1) (l : Local)
    {batch : Batch Value} :
    ∃ batch', Ends medium (releasePin item) ((s,l),batch) (.ok false) ((s,l),batch') := by
  have found : Ends medium (Index.pin.find item : Op (Option Item)) ((s,l),batch)
      (.ok ((s.pinIndex.lookup item.address).map (foundPin item))) ((s,l),batch) := ends_find .pin item _
  cases held : s.pinIndex.lookup item.address with
  | none =>
    rw [held] at found
    exact ⟨batch,Ends.bind found ⟨rfl,rfl⟩⟩
  | some n =>
    rw [held] at found last
    have none : ¬ 0 < (foundPin item n).pinCounter - 1 := by
      simp only [foundPin,fresh,ite_eq_self]
      simp only [Option.getD_some] at last
      omega
    refine ⟨batch ++ [⟨.pin item.address,Option.none⟩],Ends.bind found ?_⟩
    dsimp
    rw [if_neg none]
    exact Ends.bind ends_stage ⟨rfl,rfl⟩

/-- Removing a chunk that comes to the garbage of its file forgets the vectors of
    the file, and then the removal can fail. -/
theorem dropped_setRemove (drops : Drops root a s) (e : Err) (l : Local) (batch : Batch Value) :
    ∃ t, Ends medium (setRemove a (addressToItem root)) ((s,l),batch) (.error e) t ∧ ¬ Known root t.1.2.chunkstore := by
  have read : Ends medium (Index.retrievalData.find (addressToItem a) : Op (Option Item)) ((s,l),batch)
      (.ok ((s.retrievalDataIndex.lookup a).map (foundData (addressToItem a)))) ((s,l),batch) := ends_find _ _ _
  unfold Drops at drops
  cases held : s.retrievalDataIndex.lookup a with
  | none =>
    rw [held] at drops read
    obtain ⟨l',failed,unknown⟩ := dropped_gcRemove (show _ ∨ Completed (addressToItem root).address s from .inr drops) batch
    exact ⟨_,Ends.bind read failed,unknown⟩
  | some v =>
    rw [held] at drops read
    obtain ⟨counter,pins,complete⟩ := drops
    let found := foundData (addressToItem a) v
    let item : Item := { found with accessTimestamp :=
      (((s.retrievalAccessIndex.lookup a).map (foundAccess found)).getD found).accessTimestamp }
    have access : Ends medium (Index.retrievalAccess.find found : Op (Option Item)) ((s,l),batch)
        (.ok ((s.retrievalAccessIndex.lookup a).map (foundAccess found))) ((s,l),batch) := ends_find _ _ _
    obtain ⟨batch',released⟩ : ∃ batch', Ends medium (releasePin item) ((s,l),batch) (.ok false) ((s,l),batch') :=
      ends_releasePin rfl pins l
    -- The part after the chunk is deleted, for either kind of root.
    have rest : ∃ t, Ends medium (if a = (addressToItem root).address then gcRemove item
        else do
          Index.retrievalAccess.deleteInBatch item
          gcRemove (addressToItem root)) ((s,l),batch' ++ [⟨.retrievalData a,none⟩]) (.error e) t ∧
        ¬ Known root t.1.2.chunkstore := by
      by_cases same : a = root
      · subst same
        rw [if_pos (show a = (addressToItem a).address from rfl)]
        have stamped : item.storeTimestamp ≠ 0 ∨ Completed item.address s := by
          refine complete.symm.imp_left (fun stamped => ?_)
          simpa [item,found,foundData,addressToItem] using stamped.2
        obtain ⟨l',failed,unknown⟩ := dropped_gcRemove stamped (batch' ++ [⟨.retrievalData a,none⟩])
        exact ⟨_,failed,unknown⟩
      rw [if_neg (show ¬ a = (addressToItem root).address from same)]
      have known := complete.resolve_right (fun stamped => same stamped.1)
      obtain ⟨l',failed,unknown⟩ := dropped_gcRemove (show _ ∨ Completed (addressToItem root).address s from .inr known)
        (batch' ++ [⟨.retrievalData a,none⟩] ++ [⟨.retrievalAccess a,none⟩])
      exact ⟨_,Ends.bind ends_stage failed,unknown⟩
    obtain ⟨t,failed,unknown⟩ := rest
    refine ⟨t,Ends.bind read ?_,unknown⟩
    dsimp
    rw [if_neg (show ¬ 1 < found.counter from Nat.not_lt.mpr counter)]
    refine Ends.bind access (Ends.bind released ?_)
    exact Ends.bind ends_stage failed

theorem passes_gcRemove (known : item.storeTimestamp ≠ 0 ∨ (s.retrievalDataIndex.lookup item.address).isSome) :
    Passes medium s (gcRemove item) := by
  have complete : Passes medium s (completeRoot item) := by
    unfold completeRoot
    split
    · next zero =>
      refine passes_bind (passes_getItem (known.resolve_left (not_not_intro zero))) (fun _ _ => ?_)
      exact passes_bind passes_find (fun _ _ => passes_pure)
    · exact passes_pure
  refine passes_bind complete (fun found _ => ?_)
  cases found with
  | none => exact passes_pure
  | some out =>
    refine passes_bind (passes_bind passes_touch (fun _ _ => passes_pure)) (fun _ _ => ?_)
    refine passes_bind passes_find (fun entry _ => ?_)
    cases entry with
    | none => exact passes_pure
    | some gcItem =>
      dsimp only
      split
      · exact passes_bind passes_putInBatch (fun _ _ => passes_pure)
      · refine passes_bind passes_deleteInBatch (fun _ _ => ?_)
        exact passes_bind passes_deleteInBatch (fun _ _ => passes_pure)

theorem passes_setRemove (stored : (s.retrievalDataIndex.lookup root).isSome) (a : Address) :
    Passes medium s (setRemove a (addressToItem root)) := by
  have garbage : Passes medium s (gcRemove (addressToItem root)) := passes_gcRemove (.inr stored)
  refine passes_bind passes_find (fun found can => ?_)
  cases found with
  | none => exact garbage
  | some item =>
    obtain ⟨v,held,rfl⟩ := Option.map_eq_some_iff.mp (returns_findData can).symm
    dsimp only
    split
    · exact passes_bind passes_putInBatch (fun _ _ => passes_pure)
    refine passes_bind passes_find (fun _ _ => passes_bind ?_ (fun pinned _ => ?_))
    · refine passes_bind passes_find (fun pin _ => ?_)
      cases pin with
      | none => exact passes_pure
      | some pinItem =>
        dsimp only
        split
        · exact passes_bind passes_putInBatch (fun _ _ => passes_pure)
        · exact passes_bind passes_deleteInBatch (fun _ _ => passes_pure)
    split
    · exact passes_pure
    refine passes_bind passes_deleteInBatch (fun _ _ => ?_)
    split
    · exact passes_gcRemove (.inr (Option.isSome_iff_exists.mpr ⟨v,held⟩))
    · exact passes_bind passes_deleteInBatch (fun _ _ => garbage)

theorem stored_of_drops (drops : Drops root a s) : (s.retrievalDataIndex.lookup root).isSome := by
  unfold Drops at drops
  cases held : s.retrievalDataIndex.lookup a with
  | none =>
    rw [held] at drops
    exact drops.1
  | some v =>
    rw [held] at drops
    rcases drops.2.2 with complete | ⟨same,-⟩
    · exact complete.1
    · rw [← same,held]
      rfl

theorem dropped_removeChunks (drops : Drops root a s) (member : a ∈ addrs) (e : Err) (l : Local)
    (batch : Batch Value) :
    ∃ t, Ends medium (removeChunks (addressToItem root) addrs) ((s,l),batch) (.error e) t ∧
      ¬ Known root t.1.2.chunkstore := by
  induction addrs generalizing l batch with
  | nil => cases member
  | cons b addrs ih =>
    rcases List.mem_cons.mp member with rfl | later
    · obtain ⟨t,failed,unknown⟩ := dropped_setRemove drops e l batch
      exact ⟨t,Ends.bind_error failed,unknown⟩
    · obtain ⟨c,l',batch',passed⟩ := passes_setRemove (stored_of_drops drops) b l batch
      obtain ⟨t,failed,unknown⟩ := ih later l' batch'
      exact ⟨t,Ends.bind passed (Ends.bind_error failed),unknown⟩

/-- The search for the chunks of a file, or the first request after it, can fail. -/
theorem failed_setRemoveAll (walks : Walks cfg root s) {e : Err} :
    ∃ batch', Ends medium (setRemoveAll cfg (addressToItem root)) ((s,l),batch) (.error e) ((s,l),batch') := by
  rcases walks with deep | ⟨data,held,aligned⟩
  · -- Both the list of the file and its root chunk cannot be read.
    obtain ⟨depth,same⟩ : ∃ depth, cfg.depth = depth + 1 := ⟨cfg.depth - 1,by omega⟩
    have unknown : Ends medium (getTransfer root) ((s,l),batch) (.ok none) ((s,l),batch) := by
      have caught : Ends medium ((Index.transferData.get (addressToItem root) : Op Item).attempt fun _ => true)
          ((s,l),batch) (.ok (.error e)) ((s,l),batch) :=
        ends_attempt.mpr ⟨.error e,Ends.bind_error ends_find_error,rfl⟩
      exact Ends.bind caught ⟨rfl,rfl⟩
    refine ⟨batch,Ends.bind_error (Ends.bind unknown ?_)⟩
    rw [same]
    exact Ends.bind_error (Ends.bind_error (ends_get_error _ _ _))
  obtain ⟨chunks,listed⟩ : ∃ chunks, addressesOf data = .ok chunks := by
    unfold addressesOf
    rw [if_neg (not_not_intro aligned)]
    exact ⟨_,rfl⟩
  have got : Ends medium (Index.transferData.get (addressToItem root) : Op Item) ((s,l),batch)
      (.ok (foundTransfer (addressToItem root) data)) ((s,l),batch) :=
    ends_getItem (congrArg (Option.map (foundTransfer (addressToItem root))) held)
  have known : Ends medium (getTransfer root) ((s,l),batch) (.ok (some chunks)) ((s,l),batch) := by
    refine Ends.bind (ends_attempt.mpr ⟨_,got,rfl⟩) ?_
    change Ends medium ((settle (addressesOf data)).bind fun chs => pure (some chs)) _ _ _
    rw [listed]
    exact ⟨rfl,rfl⟩
  have found : Ends medium (getAllChunks cfg root) ((s,l),batch) (.ok chunks) ((s,l),batch) :=
    Ends.bind known ⟨rfl,rfl⟩
  refine ⟨batch,Ends.bind found ?_⟩
  cases chunks with
  | nil => exact Ends.bind ⟨rfl,rfl⟩ (Ends.bind_error (ends_stage_error _))
  | cons a chunks => exact Ends.bind_error (Ends.bind_error (Ends.bind_error ends_find_error))

end
end

/-! ### The equivalence -/

section
variable (cfg : Config) {st : Store × Local}

theorem returned_invalid : Returned .invalidArgument := ⟨nofun,nofun⟩

theorem deferring_put (atomic : Atomic cfg (.put mode root chs) st) : Deferring cfg (.put mode root chs) st := by
  obtain ⟨_,l,batch,marked⟩ := (passes_markDirty : Passes medium st.1 _) st.2 []
  -- A run of the loop that fails with other garbage is a run of the call.
  have refuted : ∀ t, Ends medium (putChunks cfg mode root [] chs) ((st.1,l),batch) (.error .invalidArgument) t →
      t.1.1.gcIndex = st.1.gcIndex := fun t failed =>
    (atomic .invalidArgument t returned_invalid (Ends.bind marked (Ends.bind_error failed))).gc
  cases mode with
  | request => trivial
  | upload => trivial
  | chain => trivial
  | uploadPin =>
    cases chs with
    | nil => exact .inl rfl
    | cons ch chs =>
      refine .inr fun takes => ?_
      obtain ⟨r,l',batch',stored⟩ := passes_putUpload cfg [] { chunkToItem ch with type := 1 } l batch
      obtain ⟨s',failed,changed⟩ := taken_setPin { chunkToItem ch with type := 1 } takes .invalidArgument l' batch'
      exact changed (refuted _ (Ends.bind_error (Ends.bind stored (Ends.bind_error failed))))
  | requestPin =>
    by_cases stored : ∀ ch ∈ chs, (st.1.retrievalDataIndex.lookup ch.address).isSome
    · exact .inl stored
    refine .inr fun takes => ?_
    simp only [not_forall] at stored
    obtain ⟨ch,member,absent⟩ := stored
    obtain ⟨t,failed,changed⟩ := taken_requestPin cfg takes
      ⟨ch,member,Option.not_isSome_iff_eq_none.mp absent⟩ .invalidArgument [] l batch
    exact changed (refuted t failed)

theorem deferring_set {mode : ModeSet} (atomic : Atomic cfg (.set mode root addrs) st) :
    Deferring cfg (.set mode root addrs) st := by
  obtain ⟨_,l,batch,marked⟩ := (passes_markDirty : Passes medium st.1 _) st.2 []
  have unchanged : ∀ t, Ends medium (setAddresses cfg mode root addrs) ((st.1,l),batch) (.error .invalidArgument) t →
      Unchanged st t.1 := fun t failed =>
    atomic .invalidArgument t returned_invalid (Ends.bind_error (Ends.bind marked (Ends.bind_error failed)))
  cases mode with
  | sync => trivial
  | unpin => trivial
  | pin =>
    cases addrs with
    | nil => exact .inl nofun
    | cons a addrs =>
      cases held : st.1.retrievalDataIndex.lookup a with
      | none =>
        refine .inl fun b first => ?_
        cases first
        exact held
      | some v =>
        refine .inr fun takes => ?_
        obtain ⟨s',failed,changed⟩ := taken_setPin (addressToItem a) takes .invalidArgument l batch
        refine changed (unchanged ((s',l),batch)
          (Ends.bind_error (Ends.bind (Ends.bind (ends_get medium) ⟨rfl,rfl⟩) ?_))).gc
        rw [if_pos]
        · exact failed
        · exact Option.isSome_iff_exists.mpr ⟨v,held⟩
  | remove =>
    by_cases known : Known root st.2.chunkstore
    · refine .inl fun a member drops => ?_
      obtain ⟨t,failed,unknown⟩ := dropped_removeChunks drops member .invalidArgument l batch
      rw [← setAddresses_remove cfg] at failed
      rw [(unchanged t failed).chunkstore] at unknown
      exact unknown known
    · exact .inr known

theorem deferring_deleteFile (atomic : Atomic cfg (.deleteFile root) st) : Deferring cfg (.deleteFile root) st := by
  have unchanged : ∀ t, Ends medium (setRemoveAll cfg (addressToItem root)) (undirected root st,[])
      (.error .invalidArgument) t → Unchanged st t.1 := fun t failed =>
    atomic .invalidArgument t returned_invalid ((ends_deleteFile cfg).mpr failed)
  intro walks
  constructor
  · intro tracked
    obtain ⟨batch',failed⟩ : ∃ batch', Ends medium (setRemoveAll cfg (addressToItem root))
      (undirected root st,[]) (.error .invalidArgument) (undirected root st,batch') :=
      failed_setRemoveAll cfg (show Walks cfg root (undirected root st).1 from walks)
    have same := unchanged _ failed
    rcases tracked with searched | recorded
    · have finder : (st.2.chunkstore.finder.erase root).lookup root = st.2.chunkstore.finder.lookup root :=
        congrArg (fun cs => cs.finder.lookup root) same.chunkstore
      rw [Finmap.lookup_erase] at finder
      rw [← finder] at searched
      cases searched
    have record : (st.2.filestore.delete root).get root = st.2.filestore.get root :=
      congrArg (fun fs => fs.get root) same.filestore
    rw [Filestore.get_delete] at record
    have there : (st.2.filestore.get root).isSome := recorded
    rw [← record] at there
    cases there
  by_cases known : Known root st.2.chunkstore
  · refine .inl fun a listed drops => ?_
    obtain ⟨chunks,⟨l,batch,t,found⟩,member⟩ := listed
    have walked : Ends medium (getAllChunks cfg root) (undirected root st,[]) (.ok chunks) (undirected root st,[]) :=
      ends_quiet_local (quiet_getAllChunks cfg root) found rfl
    obtain ⟨t,failed,unknown⟩ := dropped_removeChunks drops member .invalidArgument (undirected root st).2 []
    rw [(unchanged t (Ends.bind walked (Ends.bind_error failed))).chunkstore] at unknown
    exact unknown known
  · exact .inr known

/-- A call that returns an error leaves the indexes, the size and both stores as
    they were, whichever requests to the database fail, exactly when nothing that
    it does at once can come before an error: for a pin that is to lower a
    counter of its file past the batch, for a removal to forget who has the
    chunks of a file that is known, and for a deletion also to forget a search or
    a record. -/
theorem atomic_iff (c : Call) (st : Store × Local) : Atomic cfg c st ↔ Deferring cfg c st := by
  constructor
  · intro atomic
    cases c with
    | put mode root chs => exact deferring_put cfg atomic
    | set mode root addrs => exact deferring_set cfg atomic
    | updateGC item => trivial
    | deleteFile root => exact deferring_deleteFile cfg atomic
  · exact atomic_of_deferring cfg

end

/-- Two chunks are put one after the other for the file of the first. -/
def fileOfTwo : Store × Local :=
  (run .leveldb (put steady .request (sample 1).address [sample 2])
    (run .leveldb (put steady .request (sample 1).address [sample 1]) ({},{})).2).2

def pinMissing : Except Err Unit × (Store × Local) :=
  run .leveldb (Localstore.set steady .pin (sample 1).address [(sample 2).address,(sample 3).address]) fileOfTwo

/-- The call fails, no chunk is pinned, and the file counts one chunk less. -/
theorem missing_pinned :
    pinMissing.1 = .error .storageNotFound ∧ pinMissing.2.1.pinIndex = ∅ ∧
      fileOfTwo.1.gcIndex.lookup ⟨2,1,(sample 1).address⟩ = some 2 ∧
        pinMissing.2.1.gcIndex.lookup ⟨2,1,(sample 1).address⟩ = some 1 := by
  decide +kernel

end FavorX.Atomicity

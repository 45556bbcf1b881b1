import FavorX.Frames

/-!
What the operations of the local store read after they staged it: which keys each
operation must find unstaged and which keys it stages (`Apart`).
-/
namespace FavorX.Separation
open FiniteMaps Shed Localstore Effects Frames
open Batches hiding get put fail

/-- Sets of keys that go by addresses. -/
structure Keys where
  data : Address → Prop := fun _ => False
  access : Address → Prop := fun _ => False
  transfer : Address → Prop := fun _ => False
  gc : Address → Prop := fun _ => False
  pin : Address → Prop := fun _ => False
  bins : Prop := False
  size : Prop := False

def Keys.has (s : Keys) : Key → Prop
  | .retrievalData a => s.data a
  | .retrievalAccess a => s.access a
  | .transferData a => s.transfer a
  | .gc g => s.gc g.address
  | .pin a => s.pin a
  | .binIDs _ => s.bins
  | .gcSize => s.size

abbrev nothing : Key → Prop := fun _ => False

variable {item : Item} {root : Address}

variable {x : Index} {i : Item}

section
variable (cfg : Config) {refuse : (k : Key) → Option (Value k) → Option Err} {P R : Key → Prop} {st : Store × Local}

section
variable (unstaged : ¬ P (x.key i))
include unstaged

theorem apart_find : Apart medium refuse P P (x.find i : Op (Option Item)) st :=
  apart_bind (apart_get unstaged) (fun _ _ _ => apart_pure)

theorem apart_has : Apart medium refuse P P (x.has i : Op Bool) st :=
  apart_bind (apart_get unstaged) (fun _ _ _ => apart_pure)

/-- Reading an index fails only where it holds nothing, which is harmless as
    long as nothing is staged. -/
theorem apart_getItem (held : (st.1.read (x.key i)).isSome ∨ ∀ k, ¬ P k) :
    Apart medium refuse P P (x.get i : Op Item) st := by
  refine apart_bind (apart_find unstaged) (fun found t ran => ?_)
  have value : through medium refuse (x.find i : Op (Option Item)) st =
    (.ok ((st.1.read (x.key i)).map (fun v => (x.decode i v).merge i)),st) := rfl
  rw [value] at ran
  cases ran
  rcases held with held | clean
  · obtain ⟨v,some⟩ := Option.isSome_iff_exists.mp held
    rw [some]
    exact apart_pure
  · cases st.1.read (x.key i) with
    | some v => exact apart_pure
    | none => exact apart_mono (fun _ within => List.eq_nil_iff_forall_not_mem.mpr within) clean (fun _ => id)

end

theorem apart_putInBatch (accepted : refuse (x.key i) (some (x.encode i)) = none) (may : R (x.key i))
    (more : ∀ k, P k → R k) : Apart medium refuse P R (x.putInBatch i : Op Unit) st :=
  apart_stage accepted may more

theorem apart_now : Apart medium refuse P P (now cfg) st := apart_bind (apart_touch) (fun _ _ _ => apart_pure)

theorem apart_markDirty {addrs : List Address} : Apart medium refuse P P (markDirty addrs) st :=
  apart_bind apart_touch (fun _ _ _ => apart_pure)

variable (accepts : Accepting refuse)

include accepts

theorem apart_putUpload (named : item.address ≠ []) (data : ¬ P (.retrievalData item.address))
    (bins : ∀ po, ¬ P (.binIDs po)) (may : R (.retrievalData item.address)) (more : ∀ k, P k → R k) {binIDs : BinIDs} :
    Apart medium refuse P R (putUpload cfg binIDs item) st := by
  refine apart_bind (apart_has data) (fun stored t ran => ?_)
  rw [hasData] at ran
  cases ran
  split
  · next held =>
    refine apart_bind (apart_getItem data (.inl held)) (fun i t ran => ?_)
    have same : i.address = item.address := by
      obtain ⟨v,found⟩ := Option.isSome_iff_exists.mp held
      rw [through_getItem,findData,found] at ran
      cases ran
      rfl
    refine apart_bind (apart_putInBatch (accepts.data _ _ (same ▸ named)) ?_ more) (fun _ _ _ => apart_pure)
    exact (congrArg (fun a => R (.retrievalData a)) same).mpr may
  · refine apart_bind (apart_now cfg) (fun _ _ _ => ?_)
    refine apart_bind ?_ (fun _ _ _ =>
      apart_bind (apart_putInBatch (accepts.data _ _ named) may more) (fun _ _ _ => apart_pure))
    unfold incBinID
    split
    · exact apart_pure
    · exact apart_bind (apart_get (bins _)) (fun _ _ _ => apart_pure)

theorem apart_accessedAt (named : item.address ≠ []) (unstaged : ¬ P (.retrievalAccess item.address))
    (may : R (.retrievalAccess item.address)) (more : ∀ k, P k → R k) :
    Apart medium refuse P R (accessedAt cfg item) st := by
  refine apart_bind (apart_find unstaged) (fun found _ _ => ?_)
  cases found with
  | some i => exact apart_mono apart_pure (fun _ => id) more
  | none =>
    refine apart_bind (apart_now cfg) (fun _ _ _ => ?_)
    exact apart_bind (apart_putInBatch (accepts.access _ _ named) may more) (fun _ _ _ => apart_pure)

omit accepts in
theorem apart_knownBin (unstaged : item.binID = 0 → ¬ P (.retrievalData item.address)) :
    Apart medium refuse P P (knownBin item) st := by
  unfold knownBin
  split
  · next zero => exact apart_bind (apart_find (unstaged zero)) (fun _ _ _ => apart_pure)
  · exact apart_pure

theorem apart_countGC (unstaged : ¬ P (.gc (gcKey item))) (may : R (.gc (gcKey item))) (more : ∀ k, P k → R k) :
    Apart medium refuse P R (countGC item) st := by
  refine apart_bind (apart_find unstaged) (fun found _ ran => ?_)
  rw [findGc] at ran
  cases held : st.1.gcIndex.lookup (gcKey item) with
  | none | some n =>
    rw [held] at ran
    cases ran
    exact apart_putInBatch (accepts.gc _ _) may more

/-- The entries of a file can be read and staged. -/
structure Countable (P R : Key → Prop) (root : Address) : Prop where
  access : ¬ P (.retrievalAccess root)
  gc : ∀ g : GcKey, g.address = root → ¬ P (.gc g)
  mayAccess : R (.retrievalAccess root)
  mayGc : ∀ g : GcKey, g.address = root → R (.gc g)

theorem apart_setGC (free : Countable P R item.address) (data : item.binID = 0 → ¬ P (.retrievalData item.address))
    (more : ∀ k, P k → R k) : Apart medium refuse P R (setGC cfg item) st := by
  unfold setGC
  split
  · exact apart_mono apart_pure (fun _ => id) more
  next named =>
  -- the access time is staged before the entry is read
  let Q : Key → Prop := fun k => P k ∨ k = .retrievalAccess item.address
  have within : ∀ k, Q k → R k := fun k => Or.rec (more k) (fun same => same ▸ free.mayAccess)
  refine apart_bind (Q := Q) (apart_accessedAt cfg accepts named free.access (.inr rfl) (fun _ => .inl))
    (fun accessed _ _ => ?_)
  refine apart_bind (apart_knownBin (fun zero => ?_)) (fun b _ _ => ?_)
  · rintro (staged | same)
    · exact data zero staged
    · cases same
  refine apart_bind (apart_countGC accepts ?_ (free.mayGc _ rfl) within) (fun _ _ _ => apart_pure)
  rintro (staged | same)
  · exact free.gc _ rfl staged
  · cases same

omit accepts in
theorem apart_putTransfer {chs : List Address} (unstaged : ¬ P (.transferData root)) (may : R (.transferData root))
    (more : ∀ k, P k → R k) (full : chs.flatten ≠ [])
    (accepted : ∀ v, v ≠ [] → refuse (.transferData root) (some v) = none) :
    Apart medium refuse P R (putTransfer root chs) st := by
  have grown : ∀ old : Bytes, old ++ chs.flatten ≠ [] := fun old => by simp [full]
  refine apart_bind (apart_has unstaged) (fun listed t ran => ?_)
  rw [hasTransfer] at ran
  cases ran
  split
  · next held =>
    refine apart_bind (apart_getItem unstaged (.inl held)) (fun item t ran => ?_)
    obtain ⟨v,found⟩ := Option.isSome_iff_exists.mp held
    rw [through_getItem,findTransfer,found] at ran
    cases ran
    exact apart_putInBatch (accepted _ (grown v)) may more
  · exact apart_putInBatch (accepted _ (grown [])) may more

end

section
variable (cfg : Config) {refuse : (k : Key) → Option (Value k) → Option Err} (accepts : Accepting refuse)
variable {P R : Key → Prop} {st : Store × Local}
include accepts

/-- A request stages the chunk, and for a new one what concerns its root. The
    root chunk is not read if it is the new chunk itself. -/
theorem apart_cacheRequest {ch : Chunk} (data : ¬ P (.retrievalData ch.address)) (bins : ∀ po, ¬ P (.binIDs po))
    (mayData : R (.retrievalData ch.address)) (free : st.1.retrievalDataIndex.lookup ch.address = none → root = [] ∨
      Countable P R root ∧ (root ≠ ch.address → ¬ P (.retrievalData root))) (more : ∀ k, P k → R k) (binIDs : BinIDs) (t : Nat) :
    Apart medium refuse P R
      (putRequest cfg binIDs { chunkToItem ch with type := t } (addressToItem root) false) st := by
  let Q : Key → Prop := fun k => P k ∨ k = .retrievalData ch.address
  have within : ∀ k, Q k → R k := fun k => Or.rec (more k) (fun same => same ▸ mayData)
  refine apart_bind (Q := Q) (apart_putUpload cfg accepts (Chunk.named ch) data bins (.inr rfl) (fun _ => .inl))
    (fun ⟨stored,item,binIDs'⟩ mid ran => ?_)
  cases held : st.1.retrievalDataIndex.lookup ch.address with
  | some v =>
    obtain ⟨_,run⟩ := putUpload_stored cfg accepts held binIDs t
    rw [run] at ran
    cases ran
    exact apart_mono apart_pure (fun _ => id) within
  | none =>
    rw [putUpload_new cfg accepts held] at ran
    cases ran
    refine apart_bind ?_ (fun _ _ _ => apart_pure)
    change Apart medium refuse Q R (setGC cfg (if ch.address = root then _ else addressToItem root)) _
    have counted : Countable P R root → Countable Q R root := by
      refine fun free => ⟨?_,?_,free.mayAccess,free.mayGc⟩
      · rintro (staged | other)
        · exact free.access staged
        · cases other
      · rintro g same (staged | other)
        · exact free.gc g same staged
        · cases other
    split
    · next same =>
      -- the bin id of a new root chunk is known
      have named : root ≠ [] := same ▸ Chunk.named ch
      obtain ⟨free,_⟩ := (free held).resolve_left named
      exact apart_setGC cfg accepts (counted free) (fun zero => nomatch zero) within
    next other =>
    rcases free held with nil | ⟨free,unstaged⟩
    · subst nil
      exact apart_mono apart_pure (fun _ => id) within
    refine apart_setGC cfg accepts (counted free) (fun _ => ?_) within
    rintro (staged | same)
    · exact unstaged (Ne.symm other) staged
    · cases same
      exact other rfl

theorem apart_incGCSize (unstaged : ¬ P .gcSize) (change : Int) :
    Apart medium refuse P (fun k => P k ∨ k = .gcSize) (incGCSizeInBatch change) st := by
  have same : Apart medium refuse P (fun k => P k ∨ k = .gcSize) (pure () : Op Unit) st :=
    apart_mono apart_pure (fun _ => id) (fun _ => .inl)
  unfold incGCSizeInBatch
  split
  · exact same
  refine apart_bind (apart_get unstaged) (fun size t ran => ?_)
  dsimp only
  split
  · exact apart_stageAnyway (accepts.gcSize _) (.inr rfl) (fun _ => .inl)
  split
  · exact same
  · exact apart_stageAnyway (accepts.gcSize _) (.inr rfl) (fun _ => .inl)

theorem apart_putBinIDs (may : ∀ po, R (.binIDs po)) {binIDs : BinIDs} :
    Apart medium refuse R R (putBinIDs binIDs) st := by
  induction binIDs generalizing st with
  | nil => exact apart_pure
  | cons b rest ih =>
    exact apart_bind (apart_stageAnyway (accepts.binIDs _ _) (may _) (fun _ => id)) (fun _ _ _ => ih)

theorem apart_put {mode : ModePut} {chs : List Chunk} (size : ¬ P .gcSize)
    (all : Apart medium refuse nothing P (putChunks cfg mode root [] chs) (recordDirty (chs.map (·.address)) st)) :
    Apart medium refuse nothing nothing (put cfg mode root chs) st := by
  let Q : Key → Prop := fun k => P k ∨ ∃ po, k = .binIDs po
  have unread : ¬ Q .gcSize := by
    rintro (staged | ⟨_,other⟩)
    · exact size staged
    · cases other
  refine apart_bind apart_markDirty (fun _ t ran => ?_)
  cases ran
  refine apart_bind (Q := Q) (apart_mono all (fun _ => id) (fun _ => .inl)) (fun ⟨exist,c,binIDs⟩ _ _ => ?_)
  refine apart_bind (apart_putBinIDs accepts (fun po => .inr ⟨po,rfl⟩)) (fun _ _ _ => ?_)
  refine apart_bind (apart_incGCSize accepts unread c) (fun _ _ _ => ?_)
  exact apart_bind apart_commit (fun _ _ _ => apart_pure)

def requestKeys (root : Address) (ch : Chunk) : Keys :=
  { data := (· = ch.address), access := (· = root), transfer := (· = root), gc := (· = root) }

theorem apart_putChunk_cache {mode : ModePut} {ch : Chunk} (caches : mode = .request ∨ mode = .chain)
    (accepted : ∀ v, v ≠ [] → refuse (.transferData root) (some v) = none) (binIDs : BinIDs) :
    Apart medium refuse nothing (requestKeys root ch).has (putChunk cfg mode root binIDs ch) st := by
  have request : ∀ t, Apart medium refuse nothing
      (fun k => (requestKeys root ch).has k ∧ ¬ k = .transferData root)
      (putRequest cfg binIDs { chunkToItem ch with type := t } (addressToItem root) false) st := by
    intro t
    refine apart_cacheRequest cfg accepts id (fun _ => id) ⟨rfl,by simp⟩ (fun _ => .inr ⟨?_,fun _ => id⟩)
      (fun _ => False.elim) binIDs t
    exact ⟨id,fun _ _ => id,⟨rfl,by simp⟩,fun g same => ⟨same,by simp⟩⟩
  rcases caches with rfl | rfl
  · refine apart_bind (request 1) (fun ⟨stored,c,binIDs'⟩ _ _ => ?_)
    refine apart_bind (Q := (requestKeys root ch).has) (apart_putTransfer (fun staged => staged.2 rfl) rfl
      (fun _ => And.left) ?_ accepted) (fun _ _ _ => apart_pure)
    simp [Chunk.named]
  · exact apart_mono (request 2) (fun _ => id) (fun _ => And.left)

theorem apart_putOne {mode : ModePut} {ch : Chunk} (caches : mode = .request ∨ mode = .chain)
    (accepted : ∀ v, v ≠ [] → refuse (.transferData root) (some v) = none) :
    Apart medium refuse nothing nothing (put cfg mode root [ch]) st := by
  refine apart_put cfg accepts (P := (requestKeys root ch).has) id ?_
  refine apart_bind (apart_putChunk_cache cfg accepts caches accepted []) (fun ⟨stored,c,binIDs⟩ _ _ => ?_)
  exact apart_bind apart_pure (fun _ _ _ => apart_pure)

theorem apart_updateGC (accepted : ∀ v, refuse (.retrievalAccess item.address) v = none) :
    Apart medium refuse nothing nothing (updateGC cfg item) st := by
  refine apart_bind apart_markDirty (fun _ _ _ => ?_)
  refine apart_bind (Q := nothing) (apart_quiet quiet_find) (fun accessItem _ _ => ?_)
  dsimp only
  split
  · exact apart_pure
  refine apart_bind (Q := nothing) (apart_quiet (quiet_storedItem _)) (fun i _ _ => ?_)
  refine apart_bind (Q := nothing) (apart_quiet (quiet_findGC _)) (fun found _ _ => ?_)
  cases found with
  | none => exact apart_pure
  | some gcItem =>
    refine apart_bind (apart_stage (accepts.gc _ _) trivial (fun _ _ => trivial)) (fun _ _ _ => ?_)
    refine apart_bind (apart_now cfg) (fun _ _ _ => ?_)
    refine apart_bind (apart_putInBatch (accepts.gc _ _) trivial (fun _ => id)) (fun _ _ _ => ?_)
    refine apart_bind (apart_putInBatch (accepted _) trivial (fun _ => id)) (fun _ _ _ => ?_)
    exact apart_commit

end

def never : (k : Key) → Option (Value k) → Option Err := fun _ _ => none

theorem never_accepting : Accepting never :=
  ⟨fun _ _ _ => rfl,fun _ _ _ => rfl,fun _ _ _ => rfl,fun _ _ _ _ => rfl,fun _ _ => rfl,fun _ _ => rfl,fun _ => rfl⟩

end FavorX.Separation

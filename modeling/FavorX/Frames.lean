import FavorX.Effects
import FavorX.Faults

/-!
Which parts of the database each operation of the local store can write, whatever
it reads. Everything else is what it was before, on any store that writes
through and also where the operation fails half way.
-/
namespace FavorX.Frames
open FiniteMaps Shed Presence Localstore Effects
open Batches hiding get put fail
open Faults (Calm calm_bind calm_quiet calm_stage calm_stageAnyway calm_touch)

inductive Part
  | data
  | access
  | transfer
  | gc
  | pin
  | binIDs
  | gcSize
  deriving DecidableEq

def part : Key → Part
  | .retrievalData _ => .data
  | .retrievalAccess _ => .access
  | .transferData _ => .transfer
  | .gc _ => .gc
  | .pin _ => .pin
  | .binIDs _ => .binIDs
  | .gcSize => .gcSize

def partOf : Index → Part
  | .retrievalData => .data
  | .retrievalAccess => .access
  | .transferData => .transfer
  | .gc => .gc
  | .pin => .pin

theorem part_key (x : Index) (i : Item) : part (x.key i) = partOf x := by
  cases x <;> rfl

def Only {α : Type} (parts : List Part) (p : Op α) : Prop := p.Writes (fun k => part k ∈ parts)

variable {more parts : List Part} {x : Index}

section
variable {α β : Type} {parts : List Part}

theorem only_mono {p : Op α} (only : Only parts p) (weaker : parts ⊆ more) : Only more p :=
  writes_mono (fun _ inside => weaker inside) only

theorem only_bind {p : Op α} {f : α → Op β} (first : Only parts p) (rest : ∀ a, Only parts (f a)) :
    Only parts (p >>= f) := writes_bind first rest

theorem only_pure {a : α} : Only parts (pure a : Op α) := trivial

theorem only_find {x : Index} {i : Item} : Only parts (x.find i : Op (Option Item)) := writes_quiet (quiet_find)

theorem only_getItem {x : Index} {i : Item} : Only parts (x.get i : Op Item) := writes_quiet (quiet_getItem)

section
variable (inside : partOf x ∈ parts)
include inside

theorem only_put {i : Item} : Only parts (x.put i : Op Unit) :=
  ⟨by simpa only [part_key],fun _ => writes_settle⟩

theorem only_putInBatch (i : Item) : Only parts (x.putInBatch i : Op Unit) :=
  writes_stage (by rwa [part_key]) _

theorem only_deleteInBatch {i : Item} : Only parts (x.deleteInBatch i : Op Unit) :=
  writes_stage (by rwa [part_key]) _

end

theorem only_touch {f : Local → Local} : Only parts (touch f : Op Local) := fun _ => trivial

end

def Beside (l l' : Local) : Prop := l'.filestore = l.filestore ∧ l'.chunkstore = l.chunkstore

instance : IsPreorder Local Beside where
  refl _ := ⟨rfl,rfl⟩
  trans _ _ _ first second := ⟨second.1.trans first.1,second.2.trans first.2⟩

/-- The program stages writes of these parts and does nothing else but note a reading of the clock or an address. -/
structure Staged {α : Type} (parts : List Part) (p : Op α) : Prop where
  only : Only parts p
  calm : Calm Beside p

section
variable {α β : Type} {parts : List Part}

theorem staged_mono {p : Op α} (staged : Staged parts p) (weaker : parts ⊆ more) : Staged more p :=
  ⟨only_mono staged.only weaker,staged.calm⟩

theorem staged_bind {p : Op α} {f : α → Op β} (first : Staged parts p) (rest : ∀ a, Staged parts (f a)) :
    Staged parts (p >>= f) := ⟨only_bind first.only fun a => (rest a).only,calm_bind first.calm fun a => (rest a).calm⟩

theorem staged_pure {a : α} : Staged parts (pure a : Op α) := ⟨trivial,trivial⟩

theorem staged_quiet {p : Op α} (quiet : p.Quiet) : Staged parts p := ⟨writes_quiet quiet,calm_quiet quiet⟩

theorem staged_find {x : Index} {i : Item} : Staged parts (x.find i : Op (Option Item)) := staged_quiet (quiet_find)

theorem staged_has {x : Index} {i : Item} : Staged parts (x.has i : Op Bool) := staged_quiet (quiet_has)

theorem staged_getItem {x : Index} {i : Item} : Staged parts (x.get i : Op Item) := staged_quiet (quiet_getItem)

theorem staged_putInBatch (inside : partOf x ∈ parts) {i : Item} :
    Staged parts (x.putInBatch i : Op Unit) := ⟨only_putInBatch inside i,calm_stage⟩

theorem staged_deleteInBatch (inside : partOf x ∈ parts) {i : Item} :
    Staged parts (x.deleteInBatch i : Op Unit) := ⟨only_deleteInBatch inside,calm_stage⟩

theorem staged_stageAnyway {k : Key} (inside : part k ∈ parts) (v : Option (Value k)) :
    Staged parts (stageAnyway k v : Op Unit) := ⟨⟨inside,fun _ => trivial⟩,calm_stageAnyway _⟩

end

section
variable (cfg : Config)

theorem staged_now (parts : List Part) : Staged parts (now cfg) :=
  staged_bind ⟨only_touch,calm_touch fun _ => ⟨rfl,rfl⟩⟩ (fun _ => staged_pure)

theorem staged_markDirty (parts : List Part) (addrs : List Address) : Staged parts (markDirty addrs) := by
  refine staged_bind ⟨only_touch,calm_touch fun l => ?_⟩ (fun _ => staged_pure)
  split <;> exact ⟨rfl,rfl⟩

theorem staged_incBinID (parts : List Part) (binIDs : BinIDs) (po : Nat) : Staged parts (incBinID binIDs po) := by
  unfold incBinID
  split
  · exact staged_pure
  · exact staged_bind (staged_quiet quiet_get) (fun _ => staged_bind staged_pure (fun _ => staged_pure))

theorem staged_incGCSize {change : Int} : Staged [.gcSize] (incGCSizeInBatch change) := by
  unfold incGCSizeInBatch
  split
  · exact staged_pure
  refine staged_bind (staged_quiet quiet_get) (fun _ => ?_)
  split
  · exact staged_stageAnyway (by decide) _
  dsimp only
  split
  · exact staged_pure
  · exact staged_stageAnyway (by decide) _

theorem staged_putBinIDs {binIDs : BinIDs} : Staged [.binIDs] (putBinIDs binIDs) := by
  induction binIDs with
  | nil => exact staged_pure
  | cons b rest ih => exact staged_bind (staged_stageAnyway (k := .binIDs b.1) (List.mem_singleton.mpr rfl) _) (fun _ => ih)

theorem staged_putUpload (binIDs : BinIDs) (item : Item) : Staged [.data] (putUpload cfg binIDs item) := by
  refine staged_bind staged_has (fun stored => ?_)
  split
  · refine staged_bind staged_getItem (fun _ => ?_)
    exact staged_bind (staged_putInBatch (by decide)) (fun _ => staged_pure)
  · refine staged_bind (staged_now cfg _) (fun _ => staged_bind (staged_incBinID _ _ _) (fun _ => ?_))
    exact staged_bind (staged_putInBatch (by decide)) (fun _ => staged_pure)

theorem staged_accessedAt {item : Item} : Staged [.access] (accessedAt cfg item) := by
  refine staged_bind staged_find (fun found => ?_)
  cases found with
  | some i => exact staged_pure
  | none =>
    refine staged_bind (staged_now cfg _) (fun _ => ?_)
    exact staged_bind (staged_putInBatch (by decide)) (fun _ => staged_pure)

theorem staged_knownBin {parts : List Part} {item : Item} : Staged parts (knownBin item) := by
  unfold knownBin
  split
  · exact staged_bind staged_find (fun _ => staged_pure)
  · exact staged_pure

theorem staged_countGC {item : Item} : Staged [.gc] (countGC item) := by
  refine staged_bind staged_find (fun found => ?_)
  cases found <;> exact staged_putInBatch (by decide)

theorem staged_setGC {item : Item} : Staged [.access,.gc] (setGC cfg item) := by
  unfold setGC
  split
  · exact staged_pure
  · refine staged_bind (staged_mono (staged_accessedAt cfg) (by decide)) (fun _ => ?_)
    refine staged_bind staged_knownBin (fun _ => ?_)
    exact staged_bind (staged_mono staged_countGC (by decide)) (fun _ => staged_pure)

theorem only_uncountGC {item : Item} : Only [.gc] (uncountGC item) := by
  refine only_bind only_find (fun found => ?_)
  cases found with
  | none => exact only_pure
  | some gcItem =>
    dsimp only
    split
    · exact only_deleteInBatch (by decide)
    · exact only_put (by decide)

variable (rootItem : Item) (addr : Address)

theorem only_pinRoot : Only [.gc] (pinRoot rootItem) := by
  unfold pinRoot
  split
  · exact only_pure
  refine only_bind only_find (fun found => ?_)
  cases found with
  | none => exact only_pure
  | some i =>
    refine only_bind only_getItem (fun _ => ?_)
    exact only_bind only_uncountGC (fun _ => only_pure)

theorem only_setPin (item rootItem : Item) : Only [.gc,.pin] (setPin item rootItem) := by
  refine only_bind only_find (fun _ => ?_)
  refine only_bind (only_mono (only_pinRoot _) (by decide)) (fun _ => ?_)
  exact only_bind (only_putInBatch (by decide) _) (fun _ => only_pure)

theorem staged_putTransfer (chs : List Address) : Staged [.transfer] (putTransfer addr chs) := by
  refine staged_bind staged_has (fun stored => ?_)
  split
  · exact staged_bind staged_getItem (fun _ => staged_putInBatch (by decide))
  · exact staged_putInBatch (by decide)

theorem staged_unsync {item : Item} : Staged [.gc] (unsync item) := by
  refine staged_bind staged_find (fun found => ?_)
  cases found with
  | none => exact staged_pure
  | some i => exact staged_bind (staged_deleteInBatch (by decide)) (fun _ => staged_pure)

theorem staged_setSync : Staged [.access,.gc] (setSync cfg addr) := by
  refine staged_bind staged_find (fun found => ?_)
  cases found with
  | none => exact staged_pure
  | some i =>
    refine staged_bind (staged_mono staged_unsync (by decide)) (fun _ => staged_bind (staged_now cfg _) (fun _ => ?_))
    refine staged_bind (staged_putInBatch (by decide)) (fun _ => staged_bind staged_has (fun pinned => ?_))
    split
    · exact staged_pure
    · exact staged_bind (staged_putInBatch (by decide)) (fun _ => staged_pure)

theorem quiet_completeRoot : (completeRoot rootItem).Quiet := by
  unfold completeRoot
  split
  · exact quiet_bind quiet_getItem (fun _ => quiet_bind quiet_find (fun _ => trivial))
  · trivial

theorem staged_dropGC : Staged [.access,.gc] (dropGC rootItem) := by
  refine staged_bind staged_find (fun found => ?_)
  cases found with
  | none => exact staged_pure
  | some gcItem =>
    dsimp only
    split
    · exact staged_bind (staged_putInBatch (by decide)) (fun _ => staged_pure)
    · refine staged_bind (staged_deleteInBatch (by decide)) (fun _ => ?_)
      exact staged_bind (staged_deleteInBatch (by decide)) (fun _ => staged_pure)

variable {rootItem} in
theorem only_gcRemove : Only [.access,.gc] (gcRemove rootItem) := by
  refine only_bind (writes_quiet (quiet_completeRoot _)) (fun found => ?_)
  cases found with
  | none => exact only_pure
  | some rootItem => exact only_bind (only_bind only_touch (fun _ => only_pure)) (fun _ => (staged_dropGC _).only)

theorem staged_releasePin {item : Item} : Staged [.pin] (releasePin item) := by
  refine staged_bind staged_find (fun found => ?_)
  cases found with
  | none => exact staged_pure
  | some pinItem =>
    dsimp only
    split
    · exact staged_bind (staged_putInBatch (by decide)) (fun _ => staged_pure)
    · exact staged_bind (staged_deleteInBatch (by decide)) (fun _ => staged_pure)

theorem only_setRemove {rootItem : Item} : Only [.data,.access,.gc,.pin] (setRemove addr rootItem) := by
  refine only_bind only_find (fun found => ?_)
  cases found with
  | none => exact only_mono only_gcRemove (by decide)
  | some item =>
    dsimp only
    split
    · exact only_bind (only_putInBatch (by decide) _) (fun _ => only_pure)
    refine only_bind only_find (fun i => only_bind (only_mono staged_releasePin.only (by decide)) (fun pinned => ?_))
    split
    · exact only_pure
    refine only_bind (only_deleteInBatch (by decide)) (fun _ => ?_)
    split
    · exact only_mono only_gcRemove (by decide)
    · refine only_bind (only_deleteInBatch (by decide)) (fun _ => ?_)
      exact only_mono only_gcRemove (by decide)

theorem staged_unpinRoot : Staged [.access,.gc] (unpinRoot cfg rootItem) := by
  unfold unpinRoot
  split
  · exact staged_pure
  · refine staged_bind (staged_mono (staged_accessedAt cfg) (by decide)) (fun _ => ?_)
    refine staged_bind staged_getItem (fun _ => ?_)
    exact staged_bind (staged_mono staged_countGC (by decide)) (fun _ => staged_pure)

theorem staged_setUnpin (item rootItem : Item) : Staged [.access,.gc,.pin] (setUnpin cfg item rootItem) := by
  refine staged_bind staged_getItem (fun i => ?_)
  split
  · exact staged_bind (staged_putInBatch (by decide)) (fun _ => staged_pure)
  · refine staged_bind (staged_deleteInBatch (by decide)) (fun _ => ?_)
    exact staged_mono (staged_unpinRoot cfg _) (by decide)

theorem only_renewGC (gcItem item : Item) : Only [.access,.gc] (renewGC cfg gcItem item) := by
  refine only_bind (only_deleteInBatch (by decide)) (fun _ => only_bind (staged_now cfg _).only (fun _ => ?_))
  refine only_bind (only_putInBatch (by decide) _) (fun _ => ?_)
  exact only_bind (only_putInBatch (by decide) _) (fun _ => writes_commit)

section
variable (item : Item)

theorem quiet_findGC : (findGC item).Quiet := by
  refine quiet_bind quiet_find (fun found => ?_)
  cases found with
  | some _ => trivial
  | none =>
    dsimp only
    split
    · trivial
    · exact quiet_find

theorem quiet_storedItem {accessItem : Option Item} : (storedItem item accessItem).Quiet := by
  unfold storedItem
  split
  · exact quiet_bind quiet_find (fun _ => trivial)
  · trivial

theorem only_updateGC : Only [.access,.gc] (updateGC cfg item) := by
  refine only_bind (staged_markDirty _ _).only (fun _ => only_bind only_find (fun _ => ?_))
  dsimp only
  split
  · exact only_pure
  refine only_bind (writes_quiet (quiet_storedItem _)) (fun _ => only_bind (writes_quiet (quiet_findGC _)) (fun found => ?_))
  cases found with
  | none => exact only_pure
  | some gcItem => exact only_renewGC cfg _ _

end

theorem only_removeChunks {chunks : List Address} : Only [.data,.access,.gc,.pin] (removeChunks rootItem chunks) := by
  induction chunks with
  | nil => exact only_pure
  | cons a as ih => exact only_bind (only_setRemove _) (fun _ => only_bind ih (fun _ => only_pure))

end

section
variable {α : Type} {parts : List Part} {p : Op α} (only : Only parts p)
variable {refuse : (k : Key) → Option (Value k) → Option Err} {st st' : Store × Local} {r : Except Err α}
variable (run : through medium refuse p st = (r,st'))
include only run

theorem kept {k : Key} (outside : part k ∉ parts) : st'.1.read k = st.1.read k := by
  have same := read_through medium refuse only outside st
  rwa [run] at same

theorem kept_data (outside : Part.data ∉ parts) : st'.1.retrievalDataIndex = st.1.retrievalDataIndex :=
  Finmap.ext_lookup fun a => kept only run (k := .retrievalData a) outside

theorem kept_access (outside : Part.access ∉ parts) : st'.1.retrievalAccessIndex = st.1.retrievalAccessIndex :=
  Finmap.ext_lookup fun a => kept only run (k := .retrievalAccess a) outside

theorem kept_transfer (outside : Part.transfer ∉ parts) : st'.1.transferDataIndex = st.1.transferDataIndex :=
  Finmap.ext_lookup fun a => kept only run (k := .transferData a) outside

theorem kept_gc (outside : Part.gc ∉ parts) : st'.1.gcIndex = st.1.gcIndex :=
  Finmap.ext_lookup fun g => kept only run (k := .gc g) outside

theorem kept_pin (outside : Part.pin ∉ parts) : st'.1.pinIndex = st.1.pinIndex :=
  Finmap.ext_lookup fun a => kept only run (k := .pin a) outside

end
end FavorX.Frames

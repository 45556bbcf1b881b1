import FavorX.Separation

/-!
The entry of a file in the garbage collection index. Its key repeats the access
time and the bin id of the root, and is right as long as no root chunk arrives
after the file was counted under the bin id 0.
-/
namespace FavorX.GcEntries
open FiniteMaps Shed Localstore Effects Frames Separation
open Batches hiding get put fail

/-- Every entry has the access time and the bin id of its root, and the zero
    address is not accessed. -/
structure Entered (s : Store) : Prop where
  keyed : ∀ g n, s.gcIndex.lookup g = some n →
    s.retrievalAccessIndex.lookup g.address = some g.accessTimestamp ∧ g.binID = rootBin g.address s
  nameless : s.retrievalAccessIndex.lookup [] = none

/-- The same chunks, access times and entries. -/
structure SameEntries (s s' : Store) : Prop where
  data : s'.retrievalDataIndex = s.retrievalDataIndex
  access : s'.retrievalAccessIndex = s.retrievalAccessIndex
  gc : s'.gcIndex = s.gcIndex

theorem Entered.congr {s s' : Store} (holds : Entered s) (same : SameEntries s s') : Entered s' := by
  refine ⟨fun g n held => ?_,same.access ▸ holds.nameless⟩
  rw [same.gc] at held
  simpa only [rootBin,same.data,same.access] using holds.keyed g n held

variable {root : Address}

section
variable (cfg : Config) {st : Store × Local}

def Uncounted (a : Address) (s : Store) : Prop := ∀ g n, s.gcIndex.lookup g = some n → g.address ≠ a

/-- Chunks change without a trace in the entries if the bin ids of counted roots stay. -/
theorem entered_setData {a : Address} {v : ChunkValue} (holds : Entered st.1)
    (fine : Uncounted a st.1 ∨ ∃ w, st.1.retrievalDataIndex.lookup a = some w ∧ v.binID = w.binID) :
    Entered (setData a (some v) st).1 := by
  refine ⟨fun g n held => ?_,holds.nameless⟩
  obtain ⟨accessed,bin⟩ := holds.keyed g n held
  refine ⟨accessed,bin.trans ?_⟩
  simp only [rootBin,setData,lookup_update]
  split
  · next same =>
    rcases fine with uncounted | ⟨w,stored,kept⟩
    · exact absurd same (uncounted g n held)
    · rw [same,stored]
      simp [kept]
  · rfl

theorem entered_cache (named : root ≠ []) (holds : Entered st.1) : Entered (cache cfg root st).1 := by
  have data : (access cfg root st).1.retrievalDataIndex = st.1.retrievalDataIndex := by
    unfold access
    split <;> rfl
  have gc : (access cfg root st).1.gcIndex = st.1.gcIndex := by
    unfold access
    split <;> rfl
  have times : ∀ a, (access cfg root st).1.retrievalAccessIndex.lookup a =
      if a = root then some (accessTime cfg root st) else st.1.retrievalAccessIndex.lookup a := by
    intro a
    unfold access accessTime
    cases known : st.1.retrievalAccessIndex.lookup root with
    | some t =>
      simp only [Option.isSome_some,if_true,Option.getD_some]
      split
      · next same => rw [same,known]
      · rfl
    | none => simp [setAccess,tick,lookup_update]
  refine ⟨fun g n held => ?_,?_⟩
  · change (update (access cfg root st).1.gcIndex (rootKey cfg root st) _).lookup g = some n at held
    change (access cfg root st).1.retrievalAccessIndex.lookup g.address = _ ∧
      g.binID = ((((access cfg root st).1.retrievalDataIndex).lookup g.address).map (·.binID)).getD 0
    rw [gc,lookup_update] at held
    rw [times,data]
    split at held
    · next same =>
      subst same
      exact ⟨if_pos rfl,rfl⟩
    obtain ⟨accessed,bin⟩ := holds.keyed g n held
    refine ⟨?_,bin⟩
    split
    · next same =>
      rw [same] at accessed
      rw [accessTime,accessed,Option.getD_some]
    · exact accessed
  · change (access cfg root st).1.retrievalAccessIndex.lookup [] = _
    rw [times,if_neg (Ne.symm named)]
    exact holds.nameless

theorem entered_cached {ch : Chunk} (holds : Entered st.1)
    (fresh : st.1.retrievalDataIndex.lookup ch.address = none → Uncounted ch.address st.1) (t : Nat) (binIDs : BinIDs) :
    Entered (cached cfg root t binIDs ch st).1 := by
  unfold cached
  cases held : st.1.retrievalDataIndex.lookup ch.address with
  | some v => exact entered_setData holds (.inr ⟨v,held,rfl⟩)
  | none =>
    have stored : Entered (storeNew cfg binIDs ch t st).1 :=
      entered_setData (show Entered (tick st).1 from holds) (.inl (fresh held))
    dsimp only
    split
    · exact stored
    · next named => exact entered_cache cfg named stored

variable {refuse : (k : Key) → Option (Value k) → Option Err} (accepts : Accepting refuse)
include accepts

/-- What putting one chunk does to the chunks, the access times and the entries,
    whether or not it returns an error. -/
theorem putOne_entries {mode : ModePut} (caches : mode = .request ∨ mode = .chain) {root : Address} (ch : Chunk)
    (st : Store × Local) : ∃ t, SameEntries (cached cfg root t [] ch (recordDirty [ch.address] st)).1
      (through medium refuse (put cfg mode root [ch]) st).2.1 := by
  have finished : ∀ t r (mid : Store × Local), SameEntries (cached cfg root t [] ch (recordDirty [ch.address] st)).1 mid.1 →
      through medium refuse (putChunk cfg mode root [] ch) (recordDirty [ch.address] st) = (r,mid) →
      SameEntries (cached cfg root t [] ch (recordDirty [ch.address] st)).1
        (through medium refuse (put cfg mode root [ch]) st).2.1 := by
    intro t r mid same ran
    rw [put_run accepts]
    simp only [putChunks,bind_eq,through_bind,List.map_cons,List.map_nil,ran]
    cases r with
    | error e => exact same
    | ok r =>
      have rest := finished_same (r.2.1 + 0) r.2.2 mid
      exact ⟨rest.data.trans same.data,rest.access.trans same.access,rest.gc.trans same.gc⟩
  rcases caches with rfl | rfl
  · have ran := putChunk_listed cfg accepts root [] ch (recordDirty [ch.address] st)
    rcases listed : through medium refuse (putTransfer root [ch.address])
      (cached cfg root 1 [] ch (recordDirty [ch.address] st)) with ⟨out,mid⟩
    have only := (staged_putTransfer root [ch.address]).only
    have same : SameEntries (cached cfg root 1 [] ch (recordDirty [ch.address] st)).1 mid.1 :=
      ⟨kept_data only listed (by decide),kept_access only listed (by decide),kept_gc only listed (by decide)⟩
    rw [listed] at ran
    cases out with
    | error err | ok _ => exact ⟨1,finished 1 _ mid same ran⟩
  · exact ⟨2,finished 2 _ _ ⟨rfl,rfl,rfl⟩ (putRequest_cached cfg accepts 2 [] ch (recordDirty [ch.address] st))⟩

end

theorem Entered.unique {s : Store} (holds : Entered s) {g h : GcKey} {n m : Nat} (one : s.gcIndex.lookup g = some n)
    (other : s.gcIndex.lookup h = some m) (same : g.address = h.address) : g = h := by
  obtain ⟨accessed,bin⟩ := holds.keyed g n one
  obtain ⟨accessed',bin'⟩ := holds.keyed h m other
  rw [same] at accessed
  cases g
  cases h
  simp_all

theorem Entered.uncounted {s : Store} (holds : Entered s) {a : Address}
    (unaccessed : s.retrievalAccessIndex.lookup a = none) : Uncounted a s := by
  rintro g n held rfl
  rw [(holds.keyed g n held).1] at unaccessed
  cases unaccessed

section
variable (cfg : Config) {st : Store × Local}

theorem entered_renewed {g : GcKey} {n : Nat} (named : g.address ≠ []) (holds : Entered st.1)
    (held : st.1.gcIndex.lookup g = some n) {m : Nat} :
    Entered (renewed cfg g (rootBin g.address st.1) m st).1 := by
  refine ⟨fun h k found => ?_,?_⟩
  · change (update (update st.1.gcIndex g none) ⟨cfg.now st.2.ticks,rootBin g.address st.1,g.address⟩ (some m)).lookup h =
      some k at found
    change (update st.1.retrievalAccessIndex g.address (some (cfg.now st.2.ticks))).lookup h.address = _ ∧
      h.binID = rootBin h.address st.1
    simp only [lookup_update] at found ⊢
    split at found
    · next same =>
      subst same
      exact ⟨if_pos rfl,rfl⟩
    split at found
    · cases found
    next other =>
    have elsewhere : h.address ≠ g.address := fun same => other (holds.unique found held same)
    rw [if_neg elsewhere]
    exact holds.keyed h k found
  · change (update st.1.retrievalAccessIndex g.address (some (cfg.now st.2.ticks))).lookup [] = none
    rw [lookup_update,if_neg (Ne.symm named)]
    exact holds.nameless

theorem entryOf_held {g : GcKey} {n : Nat} {s : Store} (found : entryOf (addressToItem root) s = some (g,n)) :
    s.gcIndex.lookup g = some n ∧ g.address = root := by
  unfold entryOf entryAt at found
  cases held : s.gcIndex.lookup (entryKey (addressToItem root) s) with
  | some m =>
    rw [held] at found
    cases found
    exact ⟨held,rfl⟩
  | none =>
    rw [held] at found
    obtain ⟨m,zero,same⟩ := Option.map_eq_some_iff.mp found
    cases same
    exact ⟨zero,rfl⟩

variable {refuse : (k : Key) → Option (Value k) → Option Err} (accepts : Accepting refuse)

theorem updateGC_unaccessed (unaccessed : st.1.retrievalAccessIndex.lookup root = none) :
    through medium refuse (updateGC cfg (addressToItem root)) st = (.ok (),recordDirty [root] st) := by
  unfold updateGC
  have still : (recordDirty [root] st).1.retrievalAccessIndex.lookup root = none := unaccessed
  simp [addressToItem,still]

include accepts in
theorem entered_updateGC (holds : Entered st.1) :
    Entered (through medium refuse (updateGC cfg (addressToItem root)) st).2.1 := by
  by_cases nil : root = []
  · subst nil
    rw [updateGC_unaccessed cfg holds.nameless]
    exact holds
  rw [updateGC_run cfg accepts nil]
  split
  · exact holds
  cases found : entryOf (addressToItem root) st.1 with
  | none => exact holds
  | some entry =>
    obtain ⟨g,n⟩ := entry
    obtain ⟨held,same⟩ := entryOf_held found
    have bin : renewedBin (addressToItem root) st.1 = rootBin g.address (recordDirty [root] st).1 := by rw [same]; rfl
    dsimp only
    rw [bin]
    exact entered_renewed cfg (same ▸ nil) (show Entered (recordDirty [root] st).1 from holds) held

end

section
variable (cfg : Config)

/-- Puts of one chunk that count it as garbage, and updates of a root. -/
def Caching : Call → Prop
  | .put mode _ chs => (mode = .request ∨ mode = .chain) ∧ ∃ ch, chs = [ch]
  | .updateGC item => ∃ root, item = addressToItem root
  | _ => False

/-- A chunk that is put is stored already, or no file is counted under its
    address yet. -/
def RootFirst (c : Call) (st : Store × Local) : Prop :=
  Caching c ∧ ∀ mode root chs, c = .put mode root chs → ∀ ch ∈ chs,
    st.1.retrievalDataIndex.lookup ch.address = none → Uncounted ch.address st.1

theorem caching_through {c : Call} (caching : Caching c) (d : Driver) (st : Store × Local) :
    ∃ refuse, Accepting refuse ∧ run d (c.op cfg) st = through medium refuse (c.op cfg) st := by
  cases d with
  | wiredtiger => exact ⟨refused,refused_accepting,rfl⟩
  | leveldb =>
    refine ⟨never,never_accepting,?_⟩
    rw [run,deferred_of_apart medium never]
    cases c with
    | put mode root chs =>
      obtain ⟨caches,ch,rfl⟩ := caching
      exact apart_putOne cfg never_accepting caches (fun _ _ => rfl)
    | updateGC item => exact apart_bind (apart_updateGC cfg never_accepting (fun _ => rfl)) (fun _ _ _ => apart_pure)
    | set mode root addrs | deleteFile root => exact caching.elim

theorem entered_step {c : Call} {st : Store × Local} (d : Driver) (holds : Entered st.1) (allowed : RootFirst c st) :
    Entered (after cfg d c st).1 := by
  obtain ⟨caching,fresh⟩ := allowed
  obtain ⟨refuse,accepts,ran⟩ := caching_through cfg caching d st
  unfold after
  rw [ran]
  cases c with
  | put mode root chs =>
    obtain ⟨caches,ch,rfl⟩ := caching
    obtain ⟨t,same⟩ := putOne_entries cfg accepts caches ch st
    exact (entered_cached cfg (show Entered (recordDirty [ch.address] st).1 from holds)
      (fresh mode root [ch] rfl ch List.mem_cons_self) t []).congr same
  | updateGC item =>
    obtain ⟨root,rfl⟩ := caching
    have updated : Entered (through medium refuse (updateGC cfg (addressToItem root)) st).2.1 :=
      entered_updateGC cfg accepts holds
    simp only [Call.op,bind_eq,through_bind]
    rcases ended : through medium refuse (updateGC cfg (addressToItem root)) st with ⟨(_ | _),_⟩ <;>
      rw [ended] at updated <;> exact updated
  | set mode root addrs | deleteFile root => exact caching.elim

theorem entered_run {d : Driver} {st : Store × Local} (reached : Reached cfg d RootFirst st) : Entered st.1 := by
  induction reached with
  | start l => exact ⟨nofun,rfl⟩
  | call c _ allowed ih => exact entered_step cfg d ih allowed

/-- On either driver, where no root chunk arrives after its file was counted,
    a file has at most one entry, under the access time of the root and the bin
    id of the root chunk. -/
theorem one_entry {d : Driver} {st : Store × Local} (reached : Reached cfg d RootFirst st) (root : Address) :
    (∀ g h n m, st.1.gcIndex.lookup g = some n → st.1.gcIndex.lookup h = some m → g.address = root →
      h.address = root → g = h) ∧
    ∀ g n, st.1.gcIndex.lookup g = some n → g.address = root →
      ∃ t, st.1.retrievalAccessIndex.lookup root = some t ∧ g = ⟨t,rootBin root st.1,root⟩ := by
  have holds := entered_run cfg reached
  refine ⟨fun g h n m one other same same' => holds.unique one other (same.trans same'.symm),fun g n held same => ?_⟩
  subst same
  obtain ⟨accessed,bin⟩ := holds.keyed g n held
  exact ⟨g.accessTimestamp,accessed,by rw [← bin]⟩

end

theorem one_entry_root_first :
    let first := after steady .leveldb (.put .request (sample 1).address [sample 1]) ({},{})
    let second := after steady .leveldb (.put .request (sample 1).address [sample 2]) first
    second.1.gcIndex.lookup ⟨2,1,(sample 1).address⟩ = some 2 ∧
      ∃ t, second.1.retrievalAccessIndex.lookup (sample 1).address = some t ∧
        (⟨2,1,(sample 1).address⟩ : GcKey) = ⟨t,rootBin (sample 1).address second.1,(sample 1).address⟩ := by
  intro first second
  have start : RootFirst (.put .request (sample 1).address [sample 1]) ({},{}) := by
    refine ⟨⟨.inl rfl,_,rfl⟩,?_⟩
    rintro _ _ _ ⟨⟩ ch _ _ g n held
    cases held
  have once : Reached steady .leveldb RootFirst first := .call _ (.start {}) start
  have next : RootFirst (.put .request (sample 1).address [sample 2]) first := by
    refine ⟨⟨.inl rfl,_,rfl⟩,?_⟩
    rintro _ _ _ ⟨⟩ ch member _
    rw [List.mem_singleton.mp member]
    exact (entered_run steady once).uncounted (by decide +kernel)
  exact ⟨by decide +kernel,(one_entry steady (.call _ once next) _).2 _ 2 (by decide +kernel) rfl⟩

/-- A chunk that arrives before its root chunk is counted under the bin id 0,
    and the root chunk under its own. -/
theorem two_entries :
    ∃ st, Reached steady .wiredtiger (fun c _ => Caching c) st ∧ ∃ g h n m, st.1.gcIndex.lookup g = some n ∧
      st.1.gcIndex.lookup h = some m ∧ g.address = (sample 1).address ∧ h.address = (sample 1).address ∧ g ≠ h := by
  refine ⟨_,.call (.put .request (sample 1).address [sample 1]) (.call (.put .request (sample 1).address [sample 2])
    (.start {}) ⟨.inl rfl,_,rfl⟩) ⟨.inl rfl,_,rfl⟩,⟨2,0,(sample 1).address⟩,⟨2,2,(sample 1).address⟩,1,1,?_,?_,rfl,rfl,?_⟩
  all_goals decide +kernel

section
variable (cfg : Config)

/-- The results of some calls, one after the other, and the state after them. -/
def outcomes (d : Driver) : List Call → Store × Local → List (Except Err (List Bool)) × (Store × Local)
  | [],st => ([],st)
  | c :: calls,st =>
    let r := run d (c.op cfg) st
    let rest := outcomes d calls r.2
    (r.1 :: rest.1,rest.2)

/-- Wiredtiger turns writes under an empty address down. -/
def Named : Call → Prop
  | .put mode root _ => mode = .request → root ≠ []
  | .updateGC item => item.address ≠ []
  | _ => True

theorem run_agrees {c : Call} (caching : Caching c) (named : Named c) (st : Store × Local) :
    run .leveldb (c.op cfg) st = run .wiredtiger (c.op cfg) st := by
  obtain ⟨refuse,accepts,ran⟩ := caching_through cfg caching .leveldb st
  rw [ran]
  cases c with
  | put mode root chs =>
    obtain ⟨caches,ch,rfl⟩ := caching
    have chunk : ∀ st, through medium refuse (putChunk cfg mode root [] ch) st =
        through medium refused (putChunk cfg mode root [] ch) st := by
      intro st
      rcases caches with rfl | rfl
      · rw [putChunk_listed cfg accepts,putChunk_listed cfg refused_accepting,
          putTransfer_run accepts (named rfl) (Chunk.named ch),putTransfer_run refused_accepting (named rfl) (Chunk.named ch)]
      · exact (putRequest_cached cfg accepts 2 [] ch st).trans (putRequest_cached cfg refused_accepting 2 [] ch st).symm
    show through medium refuse (put cfg mode root [ch]) st = through medium refused (put cfg mode root [ch]) st
    rw [put_run accepts,put_run refused_accepting]
    simp only [putChunks,bind_eq,through_bind,chunk]
    rfl
  | updateGC item =>
    simp only [run,Call.op,bind_eq,through_bind,updateGC_run cfg accepts named,updateGC_run cfg refused_accepting named]
    rfl
  | set mode root addrs | deleteFile root => exact caching.elim

/-- Batches that are written at once and batches that wait for the commit give the same results and stores. -/
theorem drivers_agree {calls : List Call} (caching : ∀ c ∈ calls, Caching c ∧ Named c) (st : Store × Local) :
    outcomes cfg .leveldb calls st = outcomes cfg .wiredtiger calls st := by
  induction calls generalizing st with
  | nil => rfl
  | cons c calls ih =>
    obtain ⟨⟨caches,named⟩,rest⟩ := List.forall_mem_cons.mp caching
    simp only [outcomes,run_agrees cfg caches named,ih rest]

end

theorem drivers_agree_pair :
    let calls := [.put .request (sample 1).address [sample 1],.put .chain (sample 1).address [sample 2]]
    outcomes steady .leveldb calls ({},{}) = outcomes steady .wiredtiger calls ({},{}) := by
  refine drivers_agree steady ?_ _
  simp [Caching,Named,Chunk.named]

end FavorX.GcEntries

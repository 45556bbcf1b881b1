import FavorX.Frames

/-!
The size of the garbage collection index against what its entries count. Where
every part of an operation changes the entries by what it returns (`Shift`), the
size stays the sum of all counters.
-/
namespace FavorX.GcSize
open FiniteMaps Shed Localstore Effects Frames
open Batches hiding get put fail

/-- What all entries of the garbage collection index count together. -/
def garbage (s : Store) : Nat := total (fun _ n => n) s.gcIndex

def Counted (s : Store) : Prop := ∀ g n, s.gcIndex.lookup g = some n → 0 < n

/-- The entries count `c` chunks more, and the stored size is the same. -/
structure Shift (c : Int) (st st' : Store × Local) : Prop where
  sum : (garbage st'.1 : Int) = garbage st.1 + c
  counted : Counted st'.1
  size : st'.1.gcSize = st.1.gcSize

/-! ### Changes of single entries -/

variable {g : GcKey} {n b : Nat}

theorem counter_le {s : Store} (held : s.gcIndex.lookup g = some n) : n ≤ garbage s :=
  le_total (fun _ n => n) held

variable {st st' : Store × Local}

theorem shift_refl (counted : Counted st.1) : Shift 0 st st := ⟨by omega,counted,rfl⟩

theorem shift_trans {c c' : Int} {st st' st'' : Store × Local} (first : Shift c st st') (second : Shift c' st' st'') :
    Shift (c + c') st st'' :=
  ⟨by rw [second.sum,first.sum]; omega,second.counted,second.size.trans first.size⟩

theorem shift_same (counted : Counted st.1) (gc : st'.1.gcIndex = st.1.gcIndex) (size : st'.1.gcSize = st.1.gcSize) :
    Shift 0 st st' :=
  ⟨by simp only [garbage,gc]; omega,by unfold Counted; rw [gc]; exact counted,size⟩

theorem shift_only {α : Type} (parts : List Part) {p : Op α} (only : Only parts p) (gc : Part.gc ∉ parts)
    (size : Part.gcSize ∉ parts) {refuse : (k : Key) → Option (Value k) → Option Err} {r : Except Err α}
    (counted : Counted st.1) (run : through medium refuse p st = (r,st')) : Shift 0 st st' :=
  shift_same counted (kept_gc only run gc) (kept only run (k := .gcSize) size)

section
variable (counted : Counted st.1)
include counted

theorem shift_setGc (g : GcKey) {v : Option Nat} (positive : v ≠ some 0) :
    Shift ((v.getD 0 : Nat) - ((st.1.gcIndex.lookup g).getD 0 : Nat)) st (setGc g v st) := by
  refine ⟨?_,fun h n held => ?_,rfl⟩
  · have sum := total_update (fun _ n => n) st.1.gcIndex g v
    have old : (st.1.gcIndex.lookup g).elim 0 (fun n => n) = (st.1.gcIndex.lookup g).getD 0 := by
      cases st.1.gcIndex.lookup g <;> rfl
    have new : v.elim 0 (fun n => n) = v.getD 0 := by cases v <;> rfl
    rw [old] at sum
    simp only [garbage,setGc]
    omega
  simp only [setGc,lookup_update] at held
  split at held
  · have : n ≠ 0 := fun zero => positive (by rw [held,zero])
    omega
  · exact counted h n held

theorem shift_gcAdd (room : garbage st.1 + 1 < 2 ^ 64) {g : GcKey} : Shift 1 st (gcAdd g st) := by
  have next : ((st.1.gcIndex.lookup g).map inc64).getD 1 = (st.1.gcIndex.lookup g).getD 0 + 1 := by
    cases held : st.1.gcIndex.lookup g with
    | none => rfl
    | some n =>
      have := counter_le held
      exact Nat.mod_eq_of_lt (by omega)
  have shift := shift_setGc counted g (v := some ((st.1.gcIndex.lookup g).getD 0 + 1)) (by simp)
  simp only [Option.getD_some] at shift
  unfold gcAdd
  rw [next]
  convert shift using 1
  omega

theorem shift_gcTake (room : garbage st.1 < 2 ^ 64) (held : st.1.gcIndex.lookup g = some n) :
    Shift (-1) st (gcTake g st) := by
  have positive := counted g n held
  have bounded := counter_le held
  unfold gcTake
  simp only [held]
  split
  · next one =>
    have shift := shift_setGc counted g (v := none) (by simp)
    simpa [held,one] using shift
  next more =>
  have shift := shift_setGc counted g (v := some (n - 1)) (by simp; omega)
  rw [dec64_eq positive (by omega)]
  convert shift using 1
  simp only [held,Option.getD_some]
  omega

theorem shift_gcDrop (room : garbage st.1 < 2 ^ 64) (g : GcKey) : Shift (dropChange g st) st (gcDrop g st) := by
  unfold gcDrop dropChange
  cases held : st.1.gcIndex.lookup g with
  | none => simpa using shift_refl counted
  | some n =>
    have positive := counted g n held
    have bounded := counter_le held
    simp only [Option.isSome_some,if_true]
    split
    · next more =>
      have shift := shift_setGc counted g (v := some (n - 1)) (by simp; omega)
      rw [dec64_eq positive (by omega)]
      convert shift using 1
      simp only [held,Option.getD_some]
      omega
    next last =>
    have first : Shift 0 st (setAccess g.address none st) := shift_same counted rfl rfl
    have second := shift_setGc first.counted g (v := none) (by simp)
    have shift := shift_trans first second
    convert shift using 1
    simp only [setAccess,held,Option.getD_some,Option.getD_none]
    omega

/-! ### Operations -/

end

variable {root : Address} {item : Item}

variable {a : Address}

section
variable (cfg : Config) {refuse : (k : Key) → Option (Value k) → Option Err} (accepts : Accepting refuse)
variable {st st' : Store × Local} {c : Int}

include accepts in
theorem dropGC_shift (counted : Counted st.1) (room : garbage st.1 < 2 ^ 64)
    (run : through medium refuse (dropGC item) st = (.ok c,st')) : Shift c st st' ∧ c ≤ 0 := by
  unfold dropGC at run
  simp only [bind_eq,through_bind,findGc] at run
  have shift := shift_gcDrop counted room (gcKey item)
  unfold gcDrop dropChange at shift
  cases held : st.1.gcIndex.lookup (gcKey item) with
  | none =>
    simp only [held,Option.map_none,pure_eq,through_done] at run shift
    cases run
    exact ⟨by simpa using shift,le_rfl⟩
  | some n =>
    have positive := counted _ _ held
    have same : (foundGc item n).gCounter = n := by simp [foundGc]; omega
    simp only [held,Option.map_some,same,Option.isSome_some,if_true] at run shift
    split at run
    · next more =>
      simp only [more,if_true] at shift
      simp only [through_bind,putGc accepts,pure_eq,through_done] at run
      cases run
      exact ⟨shift,by omega⟩
    next last =>
    simp only [last,if_false] at shift
    obtain ⟨_,mid,first,rest⟩ := through_bind_ok run
    have gone := staged_ok first
    subst gone
    simp only [through_bind,deleteGc accepts,pure_eq,through_done] at rest
    cases rest
    exact ⟨shift,by omega⟩

include accepts in
theorem gcRemove_shift (counted : Counted st.1) (room : garbage st.1 < 2 ^ 64)
    (run : through medium refuse (gcRemove item) st = (.ok c,st')) : Shift c st st' ∧ c ≤ 0 := by
  obtain ⟨found,mid,completed,rest⟩ := through_bind_ok run
  have quiet := through_quiet medium refuse (quiet_completeRoot item) st
  rw [completed] at quiet
  simp only at quiet
  subst quiet
  cases found with
  | none => cases rest; exact ⟨shift_refl counted,le_rfl⟩
  | some rootItem =>
    obtain ⟨_,mid',forgotten,dropped⟩ := through_bind_ok rest
    cases forgotten
    have first : Shift 0 mid (forget rootItem.address mid) := shift_same counted rfl rfl
    obtain ⟨second,less⟩ := dropGC_shift accepts first.counted room dropped
    exact ⟨by simpa using shift_trans first second,less⟩

include accepts in
theorem setRemove_shift {rootItem : Item} (counted : Counted st.1) (room : garbage st.1 < 2 ^ 64)
    (run : through medium refuse (setRemove a rootItem) st = (.ok c,st')) : Shift c st st' ∧ c ≤ 0 := by
  unfold setRemove at run
  simp only [bind_eq,through_bind,findData] at run
  cases held : st.1.retrievalDataIndex.lookup (addressToItem a).address with
  | none =>
    simp only [held,Option.map_none] at run
    exact gcRemove_shift accepts counted room run
  | some v =>
    simp only [held,Option.map_some] at run
    split at run
    · obtain ⟨_,mid,written,rest⟩ := through_bind_ok run
      cases rest
      exact ⟨shift_only [.data] (only_putInBatch (by decide) _) (by decide) (by decide) counted written,le_rfl⟩
    obtain ⟨_,_,accessed,run⟩ := through_bind_ok run
    cases accessed
    obtain ⟨pinned,mid,released,run⟩ := through_bind_ok run
    have first := shift_only [.pin] staged_releasePin.only (by decide) (by decide) counted released
    cases pinned with
    | true => cases run; exact ⟨first,le_rfl⟩
    | false =>
      obtain ⟨_,mid',deleted,run⟩ := through_bind_ok run
      have second := shift_only [.data] (only_deleteInBatch (by decide)) (by decide) (by decide) first.counted deleted
      have room' : garbage mid'.1 < 2 ^ 64 := by have := first.sum; have := second.sum; omega
      split at run
      · obtain ⟨third,less⟩ := gcRemove_shift accepts second.counted room' run
        exact ⟨by simpa using shift_trans (shift_trans first second) third,less⟩
      obtain ⟨_,mid'',cleared,run⟩ := through_bind_ok run
      have third := shift_only [.access] (only_deleteInBatch (by decide)) (by decide) (by decide) second.counted cleared
      have room'' : garbage mid''.1 < 2 ^ 64 := by have := third.sum; omega
      obtain ⟨fourth,less⟩ := gcRemove_shift accepts third.counted room'' run
      exact ⟨by simpa using shift_trans (shift_trans (shift_trans first second) third) fourth,less⟩


theorem shift_cache (counted : Counted st.1) (room : garbage st.1 + 1 < 2 ^ 64) (root : Address) :
    Shift 1 st (cache cfg root st) := by
  have gc : (access cfg root st).1.gcIndex = st.1.gcIndex := by
    unfold access
    split <;> rfl
  have first : Shift 0 st (access cfg root st) := shift_same counted gc (by unfold access; split <;> rfl)
  have room' : garbage (access cfg root st).1 + 1 < 2 ^ 64 := by have := first.sum; omega
  simpa [cache] using shift_trans first (shift_gcAdd first.counted room')

/-- What counts the chunks of a root that is stored and was accessed. -/
def countedFor (root : Address) (s : Store) : Nat :=
  match s.retrievalAccessIndex.lookup root, s.retrievalDataIndex.lookup root with
  | some t, some v => (s.gcIndex.lookup ⟨t,v.binID,root⟩).getD 0
  | _, _ => 0

/-- Every chunk that is pinned finds one of the file to take out of the garbage. -/
def Takable (root : Address) (st : Store × Local) (n : Nat) : Prop :=
  garbage st.1 < 2 ^ 64 ∧ (root = [] ∨ st.1.retrievalAccessIndex.lookup root = none ∨ n ≤ countedFor root st.1)

theorem countedFor_gcTake {t : Int} {v : ChunkValue} (accessed : st.1.retrievalAccessIndex.lookup root = some t)
    (held : st.1.retrievalDataIndex.lookup root = some v) (entry : st.1.gcIndex.lookup ⟨t,v.binID,root⟩ = some n)
    (positive : 0 < n) (room : n < 2 ^ 64) : countedFor root (gcTake ⟨t,v.binID,root⟩ st).1 = n - 1 := by
  unfold gcTake
  simp only [entry]
  split
  · next one => simp [countedFor,setGc,accessed,held,lookup_update,one]
  · next more => simp [countedFor,setGc,accessed,held,lookup_update,dec64_eq positive room]

include accepts in
theorem pinRoot_cases (known : b = 0 ∨ b = rootBin root st.1)
    (run : through medium refuse (pinRoot { addressToItem root with binID := b }) st = (.ok c,st')) :
    (c = 0 ∧ st' = st ∧ (root = [] ∨ st.1.retrievalAccessIndex.lookup root = none)) ∨
      ∃ t v, root ≠ [] ∧ st.1.retrievalAccessIndex.lookup root = some t ∧ st.1.retrievalDataIndex.lookup root = some v ∧
        c = -1 ∧ st' = gcTake ⟨t,v.binID,root⟩ st := by
  rw [pinRoot_run accepts known] at run
  split at run
  · next nil =>
    cases run
    exact .inl ⟨rfl,rfl,.inl nil⟩
  next named =>
  cases accessed : st.1.retrievalAccessIndex.lookup root with
  | none =>
    simp only [accessed] at run
    cases run
    exact .inl ⟨rfl,rfl,.inr rfl⟩
  | some t =>
    cases held : st.1.retrievalDataIndex.lookup root with
    | none => simp only [accessed,held] at run; cases run
    | some v =>
      simp only [accessed,held] at run
      cases run
      exact .inr ⟨t,v,named,rfl,rfl,rfl,rfl⟩

include accepts in
theorem pinRoot_takable (known : b = 0 ∨ b = rootBin root st.1) (counted : Counted st.1)
    (takable : Takable root st (n + 1))
    (run : through medium refuse (pinRoot { addressToItem root with binID := b }) st = (.ok c,st')) :
    Shift c st st' ∧ Takable root st' n ∧ st'.1.retrievalDataIndex = st.1.retrievalDataIndex := by
  obtain ⟨room,enough⟩ := takable
  obtain ⟨rfl,rfl,free⟩ | ⟨t,v,named,accessed,held,rfl,rfl⟩ := pinRoot_cases accepts known run
  · exact ⟨shift_refl counted,⟨room,free.imp_right .inl⟩,rfl⟩
  simp only [named,accessed,false_or,reduceCtorEq,countedFor,held] at enough
  cases entry : st.1.gcIndex.lookup ⟨t,v.binID,root⟩ with
  | none => simp [entry] at enough
  | some m =>
    simp only [entry,Option.getD_some] at enough
    have bounded := counter_le entry
    have shift := shift_gcTake counted room entry
    have left := countedFor_gcTake accessed held entry (by omega) (by omega)
    refine ⟨shift,⟨by have := shift.sum; omega,.inr (.inr (by omega))⟩,?_⟩
    unfold gcTake
    rw [entry]
    rfl

/-! ### Loops -/

variable {c : Int}

/-- What is done for one element of a list shifts the counters by what it returns while
    `J` holds, and keeps `J` for the elements after it. -/
def Shifts {α β : Type} (refuse : (k : Key) → Option (Value k) → Option Err) (p : α → Op β) (change : β → Int)
    (J : Store × Local → List α → Prop) : Prop :=
  ∀ st a as r st', Counted st.1 → J st (a :: as) → through medium refuse (p a) st = (.ok r,st') →
    Shift (change r) st st' ∧ J st' as

variable {cfg} in
theorem putChunks_shift {mode : ModePut} {J : Store × Local → List Chunk → Prop} {chs : List Chunk} {exist : List Bool}
    {binIDs binIDs' : BinIDs} (step : ∀ binIDs, Shifts refuse (putChunk cfg mode root binIDs) (·.2.1) J)
    (counted : Counted st.1) (holds : J st chs)
    (run : through medium refuse (putChunks cfg mode root binIDs chs) st = (.ok (exist,c,binIDs'),st')) :
    Shift c st st' ∧ J st' [] := by
  induction chs generalizing binIDs st exist c with
  | nil =>
    cases run
    exact ⟨shift_refl counted,holds⟩
  | cons ch chs ih =>
    obtain ⟨⟨e,c1,b1⟩,mid,first,run⟩ := through_bind_ok run
    obtain ⟨⟨ex,c2,b2⟩,last,second,run⟩ := through_bind_ok run
    obtain ⟨shift,next⟩ := step binIDs st ch chs _ mid counted holds first
    cases run
    obtain ⟨shift',holds'⟩ := ih shift.counted next second
    exact ⟨shift_trans shift shift',holds'⟩

variable {cfg} in
theorem setAddresses_shift {mode : ModeSet} {J : Store × Local → List Address → Prop} {as : List Address}
    (step : Shifts refuse (setAddress cfg mode root) id J) (counted : Counted st.1) (holds : J st as)
    (run : through medium refuse (setAddresses cfg mode root as) st = (.ok c,st')) : Shift c st st' ∧ J st' [] := by
  induction as generalizing st c with
  | nil =>
    cases run
    exact ⟨shift_refl counted,holds⟩
  | cons a as ih =>
    obtain ⟨c1,mid,first,run⟩ := through_bind_ok run
    obtain ⟨c2,last,second,run⟩ := through_bind_ok run
    obtain ⟨shift,next⟩ := step st a as c1 mid counted holds first
    cases run
    obtain ⟨shift',holds'⟩ := ih shift.counted next second
    exact ⟨shift_trans shift shift',holds'⟩

/-! ### Puts -/

theorem putUpload_shift {binIDs : BinIDs} {r : Except Err (Bool × Item × BinIDs)} (counted : Counted st.1)
    (run : through medium refuse (putUpload cfg binIDs item) st = (r,st')) : Shift 0 st st' :=
  shift_only [.data] (staged_putUpload cfg _ _).only (by decide) (by decide) counted run

theorem shift_storeNew (counted : Counted st.1) (binIDs : BinIDs) (ch : Chunk) (t : Nat) :
    Shift 0 st (storeNew cfg binIDs ch t st) := shift_same counted rfl rfl

theorem shift_setData (counted : Counted st.1) (a : Address) (v : Option ChunkValue) :
    Shift 0 st (setData a v st) := shift_same counted rfl rfl

include accepts in
theorem putRequest_shift {ch : Chunk} {binIDs : BinIDs} {t : Nat} {e : Bool} {binIDs' : BinIDs}
    (counted : Counted st.1) (room : garbage st.1 + 1 < 2 ^ 64)
    (run : through medium refuse (putRequest cfg binIDs { chunkToItem ch with type := t } (addressToItem root) false) st = (.ok (e,c,binIDs'),st')) :
    Shift c st st' ∧ c ≤ 1 := by
  cases held : st.1.retrievalDataIndex.lookup ch.address with
  | some v =>
    rw [putRequest_stored cfg accepts held] at run
    cases run
    exact ⟨shift_setData counted _ _,by omega⟩
  | none =>
    have stored := shift_storeNew cfg counted binIDs ch t
    have room' : garbage (storeNew cfg binIDs ch t st).1 + 1 < 2 ^ 64 := by have := stored.sum; omega
    by_cases nil : root = []
    · subst nil
      rw [putRequest_nil cfg accepts held] at run
      cases run
      exact ⟨stored,by omega⟩
    · rw [putRequest_new cfg accepts held nil] at run
      cases run
      exact ⟨by simpa using shift_trans stored (shift_cache cfg stored.counted room' root),by omega⟩

variable (binIDs : BinIDs)

include accepts in
theorem request_shift : Shifts refuse (putChunk cfg .request root binIDs) (·.2.1)
    fun st chs => garbage st.1 + chs.length < 2 ^ 64 := by
  intro st ch chs ⟨e,c,binIDs'⟩ st' counted room run
  simp only [List.length_cons] at room
  obtain ⟨⟨e1,c1,b1⟩,mid,requested,run⟩ := through_bind_ok run
  obtain ⟨_,last,listed,run⟩ := through_bind_ok run
  cases run
  obtain ⟨first,less⟩ := putRequest_shift cfg accepts counted (by omega) requested
  have second := shift_only [.transfer] (staged_putTransfer _ _).only (by decide) (by decide) first.counted listed
  have shift := shift_trans first second
  rw [add_zero] at shift
  exact ⟨shift,by have := shift.sum; omega⟩

include accepts in
theorem chain_shift : Shifts refuse (putChunk cfg .chain root binIDs) (·.2.1)
    fun st chs => garbage st.1 + chs.length < 2 ^ 64 := by
  intro st ch chs ⟨e,c,binIDs'⟩ st' counted room run
  simp only [List.length_cons] at room
  obtain ⟨shift,less⟩ := putRequest_shift cfg accepts counted (by omega) run
  exact ⟨shift,by have := shift.sum; dsimp only; omega⟩

theorem upload_shift : Shifts refuse (putChunk cfg .upload root binIDs) (·.2.1)
    fun st _ => garbage st.1 < 2 ^ 64 := by
  intro st ch chs ⟨e,c,binIDs'⟩ st' counted room run
  obtain ⟨_,mid,uploaded,run⟩ := through_bind_ok run
  cases run
  have shift := putUpload_shift cfg counted uploaded
  exact ⟨shift,by have := shift.sum; omega⟩

/-- Nothing is counted for a root, or its counters cannot be found. -/
def Unlisted (root : Address) (s : Store) : Prop :=
  root = [] ∨ s.retrievalAccessIndex.lookup root = none ∨ ∀ g n, s.gcIndex.lookup g = some n → g.address ≠ root

include accepts in
theorem pinRoot_unlisted (unlisted : Unlisted root st.1)
    (run : through medium refuse (pinRoot (addressToItem root)) st = (.ok c,st')) : st' = st := by
  obtain ⟨-,same,-⟩ | ⟨t,v,named,accessed,-,-,rfl⟩ := pinRoot_cases accepts (.inl rfl) run
  · exact same
  have none := (unlisted.resolve_left named).resolve_left (by simp [accessed])
  unfold gcTake
  cases entry : st.1.gcIndex.lookup ⟨t,v.binID,root⟩ with
  | none => rfl
  | some n => exact absurd rfl (none _ _ entry)

include accepts in
theorem uploadPin_shift : Shifts refuse (putChunk cfg .uploadPin root binIDs) (·.2.1)
    fun st _ => garbage st.1 < 2 ^ 64 ∧ Unlisted root st.1 := by
  intro st ch chs ⟨e,c,binIDs'⟩ st' counted ⟨room,unlisted⟩ run
  obtain ⟨_,mid,uploaded,run⟩ := through_bind_ok run
  obtain ⟨c1,last,pinned,run⟩ := through_bind_ok run
  cases run
  have uploads := (staged_putUpload cfg binIDs { chunkToItem ch with type := 1 }).only
  have unlisted' : Unlisted root mid.1 := by
    unfold Unlisted
    rw [kept_gc uploads uploaded (by decide),kept_access uploads uploaded (by decide)]
    exact unlisted
  obtain ⟨_,_,found,pinned⟩ := through_bind_ok pinned
  cases found
  obtain ⟨c2,mid',rooted,pinned⟩ := through_bind_ok pinned
  have same := pinRoot_unlisted accepts unlisted' rooted
  subst same
  obtain ⟨_,_,written,done⟩ := through_bind_ok pinned
  cases done
  have pins : ∀ i : Item, Only [.pin] (Index.pin.putInBatch i : Op Unit) := only_putInBatch (by decide)
  have first := putUpload_shift cfg counted uploaded
  have second := shift_only [.pin] (pins _) (by decide) (by decide) first.counted written
  have both := shift_trans first second
  refine ⟨both,by have := both.sum; omega,?_⟩
  unfold Unlisted
  rw [kept_gc (pins _) written (by decide),kept_access (pins _) written (by decide)]
  exact unlisted'

end

/-! ### Pinning puts -/

def freshCount (s : Store) (chs : List Chunk) : Nat :=
  ((chs.map (·.address)).toFinset.filter (fun a => s.retrievalDataIndex.lookup a = none)).card

variable {v w : ChunkValue}

theorem freshCount_stored {s s' : Store} {ch : Chunk} (chs : List Chunk)
    (held : s.retrievalDataIndex.lookup ch.address = some v)
    (data : s'.retrievalDataIndex = s.retrievalDataIndex.insert ch.address w) :
    freshCount s' chs = freshCount s (ch :: chs) := by
  unfold freshCount
  congr 1
  ext a
  simp only [List.map_cons,List.toFinset_cons,Finset.mem_filter,Finset.mem_insert,data,lookup_insert_eq]
  by_cases same : a = ch.address
  · subst same
    simp [held]
  · simp [same]

theorem freshCount_new {s s' : Store} {ch : Chunk} (chs : List Chunk)
    (absent : s.retrievalDataIndex.lookup ch.address = none)
    (data : s'.retrievalDataIndex = s.retrievalDataIndex.insert ch.address w) :
    freshCount s' chs + 1 = freshCount s (ch :: chs) := by
  unfold freshCount
  have apart : ch.address ∉ (chs.map (·.address)).toFinset.filter (fun a => s'.retrievalDataIndex.lookup a = none) := by
    simp [data]
  rw [← Finset.card_insert_of_notMem apart]
  congr 1
  ext a
  simp only [List.map_cons,List.toFinset_cons,Finset.mem_filter,Finset.mem_insert,data,lookup_insert_eq]
  by_cases same : a = ch.address
  · subst same
    simp [absent]
  · simp [same]

/-- Every new chunk finds one of the file to take out of the garbage. -/
def Pinnable (root : Address) (st : Store × Local) (chs : List Chunk) : Prop :=
  garbage st.1 < 2 ^ 64 ∧
    (root = [] ∨ st.1.retrievalAccessIndex.lookup root = none ∨ freshCount st.1 chs ≤ countedFor root st.1)

theorem countedFor_countUp (held : st.1.retrievalDataIndex.lookup a = some v) (root : Address) (t : Nat) :
    countedFor root (setData a (some (countUp v t)) st).1 = countedFor root st.1 := by
  unfold countedFor
  simp only [setData,lookup_update]
  by_cases same : root = a
  · subst same
    rw [if_pos rfl,held]
    cases st.1.retrievalAccessIndex.lookup root <;> rfl
  · rw [if_neg same]

theorem countedFor_storeNew (cfg : Config) {ch : Chunk} (absent : st.1.retrievalDataIndex.lookup ch.address = none)
    (binIDs : BinIDs) (t : Nat) (root : Address) :
    countedFor root st.1 ≤ countedFor root (storeNew cfg binIDs ch t st).1 := by
  unfold countedFor
  simp only [storeNew,setData,tick,lookup_update]
  by_cases same : root = ch.address
  · subst same
    rw [absent]
    cases st.1.retrievalAccessIndex.lookup ch.address <;> exact Nat.zero_le _
  · rw [if_neg same]

theorem requestPin_shift (cfg : Config) (binIDs : BinIDs) :
    Shifts refused (putChunk cfg .requestPin root binIDs) (·.2.1) (Pinnable root) := by
  intro st ch chs ⟨e,c,binIDs'⟩ st' counted ⟨room,enough⟩ run
  obtain ⟨⟨e1,c1,b1⟩,mid,requested,run⟩ := through_bind_ok run
  obtain ⟨_,last,listed,run⟩ := through_bind_ok run
  cases run
  have transfers := (staged_putTransfer root [ch.address]).only
  -- the transfer list is written after everything that is counted
  suffices counts : Shift c st mid ∧ Pinnable root mid chs by
    obtain ⟨first,pinnable⟩ := counts
    have second := shift_only [.transfer] transfers (by decide) (by decide) first.counted listed
    refine ⟨by simpa using shift_trans first second,?_⟩
    unfold Pinnable freshCount countedFor garbage
    rw [kept_access transfers listed (by decide),kept_data transfers listed (by decide),
      kept_gc transfers listed (by decide)]
    exact pinnable
  change through medium refused (putRequest cfg binIDs _ _ true) st = _ at requested
  cases held : st.1.retrievalDataIndex.lookup ch.address with
  | some v =>
    rw [putRequest_stored cfg refused_accepting held] at requested
    cases requested
    refine ⟨shift_setData counted _ _,room,enough.imp_right (Or.imp_right fun enough => ?_)⟩
    rw [countedFor_countUp held,freshCount_stored chs held rfl]
    exact enough
  | none =>
    have stored := shift_storeNew cfg counted binIDs ch 1
    have fresh : freshCount (storeNew cfg binIDs ch 1 st).1 chs + 1 = freshCount st.1 (ch :: chs) :=
      freshCount_new chs held rfl
    have takable : Takable root (storeNew cfg binIDs ch 1 st) (freshCount (storeNew cfg binIDs ch 1 st).1 chs + 1) :=
      ⟨room,enough.imp_right (Or.imp_right fun enough => by
        have := countedFor_storeNew cfg held binIDs 1 root
        omega)⟩
    rw [putRequest_pin cfg refused_accepting held] at requested
    split at requested
    · next pinned =>
      cases requested
      obtain ⟨taken,takable',data⟩ :=
        pinRoot_takable refused_accepting (known_bin cfg binIDs ch 1 root st) stored.counted takable pinned
      have added : Shift 0 _ (addPin ch.address _) := shift_same taken.counted rfl rfl
      refine ⟨by simpa using shift_trans (shift_trans stored taken) added,?_⟩
      have left := congrArg (fun data => ((chs.map (·.address)).toFinset.filter (fun a => data.lookup a = none)).card) data
      exact ⟨takable'.1,takable'.2.imp_right (Or.imp_right fun enough => left.trans_le enough)⟩
    · cases requested

/-! ### Sets -/

section
variable (cfg : Config) {refuse : (k : Key) → Option (Value k) → Option Err} (accepts : Accepting refuse)

include accepts in
theorem remove_shift : Shifts refuse (setAddress cfg .remove root) id fun st _ => garbage st.1 < 2 ^ 64 := by
  intro st a as c st' counted room run
  obtain ⟨shift,less⟩ := setRemove_shift accepts counted room run
  exact ⟨shift,by have := shift.sum; omega⟩

include accepts in
theorem pin_shift : Shifts refuse (setAddress cfg .pin root) id fun st as => Takable root st as.length := by
  intro st a as c st' counted takable run
  obtain ⟨stored,_,found,run⟩ := through_bind_ok run
  cases found
  split at run
  · obtain ⟨_,_,found,run⟩ := through_bind_ok run
    cases found
    obtain ⟨c1,mid,rooted,run⟩ := through_bind_ok run
    obtain ⟨_,last,written,run⟩ := through_bind_ok run
    cases run
    obtain ⟨first,takable',-⟩ := pinRoot_takable accepts (.inl rfl) counted takable rooted
    have pins : ∀ i : Item, Only [.pin] (Index.pin.putInBatch i : Op Unit) := only_putInBatch (by decide)
    have second := shift_only [.pin] (pins _) (by decide) (by decide) first.counted written
    have both := shift_trans first second
    rw [add_zero] at both
    refine ⟨both,?_⟩
    show Takable root st' as.length
    unfold Takable countedFor garbage
    rw [kept_access (pins _) written (by decide),kept_data (pins _) written (by decide),
      kept_gc (pins _) written (by decide)]
    exact takable'
  · cases run

include accepts in
theorem unpin_shift : Shifts refuse (setAddress cfg .unpin root) id
    fun st as => garbage st.1 + as.length < 2 ^ 64 := by
  intro st a as c st' counted room run
  simp only [List.length_cons] at room
  obtain ⟨i,mid,found,run⟩ := through_bind_ok run
  have first := shift_only [] only_getItem (by decide) (by decide) counted found
  split at run
  · obtain ⟨_,last,written,run⟩ := through_bind_ok run
    cases run
    have second := shift_only [.pin] (only_putInBatch (by decide) _) (by decide) (by decide) first.counted written
    have both := shift_trans first second
    exact ⟨both,by have := both.sum; omega⟩
  obtain ⟨_,last,deleted,run⟩ := through_bind_ok run
  have second := shift_only [.pin] (only_deleteInBatch (by decide)) (by decide) (by decide) first.counted deleted
  have both := shift_trans first second
  have room' : garbage last.1 + 1 < 2 ^ 64 := by have := both.sum; omega
  rw [unpinRoot_run cfg accepts] at run
  split at run
  · cases run
    exact ⟨both,by have := both.sum; omega⟩
  split at run
  · cases run
    have all := shift_trans both (shift_cache cfg both.counted room' root)
    exact ⟨by simpa using all,by have := all.sum; omega⟩
  · cases run

/-- The stored addresses differ, each is pinned, and each that was accessed is
    counted exactly once. -/
def Syncable (st : Store × Local) (addrs : List Address) : Prop :=
  (addrs.filter (fun a => (st.1.retrievalDataIndex.lookup a).isSome)).Nodup ∧
    ∀ a ∈ addrs, ∀ v, st.1.retrievalDataIndex.lookup a = some v → (st.1.pinIndex.lookup a).isSome ∧
      ∀ t, st.1.retrievalAccessIndex.lookup a = some t → st.1.gcIndex.lookup ⟨t,v.binID,a⟩ = some 1

theorem shift_unsynced (counted : Counted st.1)
    (once : ∀ t, st.1.retrievalAccessIndex.lookup a = some t → st.1.gcIndex.lookup ⟨t,b,a⟩ = some 1) :
    Shift (unsyncChange a st) st (unsynced a b st) := by
  unfold unsynced unsyncChange
  cases accessed : st.1.retrievalAccessIndex.lookup a with
  | none => exact shift_refl counted
  | some t =>
    have shift := shift_setGc counted ⟨t,b,a⟩ (v := none) (by simp)
    simpa [once t accessed] using shift

theorem gc_unsynced (b : Nat) (st : Store × Local) (other : g.address ≠ a) :
    (unsynced a b st).1.gcIndex.lookup g = st.1.gcIndex.lookup g := by
  unfold unsynced
  cases st.1.retrievalAccessIndex.lookup a with
  | none => rfl
  | some t =>
    have ne : g ≠ ⟨t,b,a⟩ := fun same => other (by rw [same])
    simp [setGc,lookup_update,ne]

include accepts in
theorem sync_ok (held : st.1.retrievalDataIndex.lookup a = some v) (pinned : (st.1.pinIndex.lookup a).isSome)
    (run : through medium refuse (setSync cfg a) st = (.ok c,st')) :
    c = unsyncChange a st ∧ st' = synced cfg a v.binID st := by
  obtain ⟨found,_,looked,run⟩ := through_bind_ok run
  rw [findData] at looked
  cases looked
  simp only [addressToItem,held,Option.map_some,foundData,ite_eq_self] at run
  obtain ⟨c1,mid,left,run⟩ := through_bind_ok run
  rw [through_unsync accepts rfl] at left
  cases left
  obtain ⟨t,_,read,run⟩ := through_bind_ok run
  rw [through_now,ticks_unsynced] at read
  cases read
  obtain ⟨_,mid',written,run⟩ := through_bind_ok run
  have accessed : mid' = synced cfg a v.binID st := staged_ok written
  subst accessed
  obtain ⟨still,_,looked,run⟩ := through_bind_ok run
  rw [hasPin] at looked
  cases looked
  have still : ((synced cfg a v.binID st).1.pinIndex.lookup a).isSome := by
    simpa [synced,setAccess,tick] using pinned
  simp only [still,if_true] at run
  cases run
  exact ⟨rfl,rfl⟩

include accepts in
theorem sync_shift : Shifts refuse (setAddress cfg .sync root) id
    fun st as => garbage st.1 < 2 ^ 64 ∧ Syncable st as := by
  intro st a as c st' counted ⟨room,distinct,safe⟩ run
  change through medium refuse (setSync cfg a) st = _ at run
  cases held : st.1.retrievalDataIndex.lookup a with
  | none =>
    rw [setSync_absent cfg held] at run
    cases run
    refine ⟨shift_refl counted,room,?_,fun b member => safe b (List.mem_cons_of_mem _ member)⟩
    simpa [List.filter_cons,held] using distinct
  | some v =>
    obtain ⟨pinned,once⟩ := safe a List.mem_cons_self v held
    obtain ⟨rfl,rfl⟩ := sync_ok cfg accepts held pinned run
    have first := shift_unsynced counted once
    have second : Shift 0 (unsynced a v.binID st) (synced cfg a v.binID st) := shift_same first.counted rfl rfl
    have both := shift_trans first second
    rw [add_zero] at both
    have less : unsyncChange a st ≤ 0 := by unfold unsyncChange; split <;> omega
    have data : (synced cfg a v.binID st).1.retrievalDataIndex = st.1.retrievalDataIndex := by
      unfold synced unsynced
      split <;> rfl
    have access : ∀ b, b ≠ a →
        (synced cfg a v.binID st).1.retrievalAccessIndex.lookup b = st.1.retrievalAccessIndex.lookup b := by
      intro b other
      unfold synced unsynced
      split <;> simp [setAccess,tick,setGc,lookup_update,other]
    simp only [List.filter_cons,held,Option.isSome_some,if_true,List.nodup_cons] at distinct
    refine ⟨both,by have := both.sum; omega,?_,?_⟩
    · rw [data]
      exact distinct.2
    intro b member w stored
    rw [data] at stored
    have other : b ≠ a := by
      intro same
      subst same
      exact distinct.1 (List.mem_filter.mpr ⟨member,by simp [stored]⟩)
    obtain ⟨pinned',once'⟩ := safe b (List.mem_cons_of_mem _ member) w stored
    refine ⟨by simpa [synced,setAccess,tick] using pinned',fun t accessed => ?_⟩
    rw [access b other] at accessed
    have same := gc_unsynced v.binID st (show (⟨t,w.binID,b⟩ : GcKey).address ≠ a from other)
    exact same.trans (once' t accessed)

end

/-! ### Updates -/

/-- The entry of an item does not move onto another entry. -/
def Movable (cfg : Config) (item : Item) (st : Store × Local) : Prop :=
  ∀ g n, entryOf item st.1 = some (g,n) →
    g = ⟨cfg.now st.2.ticks,renewedBin item st.1,item.address⟩ ∨
      st.1.gcIndex.lookup ⟨cfg.now st.2.ticks,renewedBin item st.1,item.address⟩ = none

theorem entryOf_held {s : Store} (entry : entryOf item s = some (g,n)) :
    s.gcIndex.lookup g = some n ∧ g.address = item.address := by
  unfold entryOf entryAt at entry
  cases held : s.gcIndex.lookup (entryKey item s) with
  | some m => rw [held] at entry; cases entry; exact ⟨held,rfl⟩
  | none =>
    rw [held] at entry
    obtain ⟨m,found,same⟩ := Option.map_eq_some_iff.mp entry
    cases same
    exact ⟨found,rfl⟩

theorem shift_renewed {cfg : Config} (counted : Counted st.1) (held : st.1.gcIndex.lookup g = some n)
    (free : g = ⟨cfg.now st.2.ticks,b,g.address⟩ ∨ st.1.gcIndex.lookup ⟨cfg.now st.2.ticks,b,g.address⟩ = none) :
    Shift 0 st (renewed cfg g b n st) := by
  have positive := counted g n held
  have first := shift_setGc counted g (v := none) (by simp)
  have second : Shift 0 (setGc g none st) (tick (setGc g none st)) := shift_same first.counted rfl rfl
  have third := shift_setGc second.counted ⟨cfg.now st.2.ticks,b,g.address⟩ (v := some n) (by simp; omega)
  have empty : (tick (setGc g none st)).1.gcIndex.lookup ⟨cfg.now st.2.ticks,b,g.address⟩ = none := by
    simp only [tick,setGc,lookup_update]
    split
    · rfl
    · next other => exact free.resolve_left (Ne.symm other)
  rw [empty] at third
  have fourth : Shift 0 (setGc ⟨cfg.now st.2.ticks,b,g.address⟩ (some n) (tick (setGc g none st)))
      (renewed cfg g b n st) := shift_same third.counted rfl rfl
  have all := shift_trans (shift_trans (shift_trans first second) third) fourth
  simpa [held] using all

section
variable (cfg : Config)

theorem renewGC_nil {gcItem : Item} (nil : item.address = [])
    (run : through medium refused (renewGC cfg gcItem item) st = (.ok (),st')) : False := by
  obtain ⟨_,_,_,run⟩ := through_bind_ok run
  obtain ⟨_,_,_,run⟩ := through_bind_ok run
  obtain ⟨_,_,_,run⟩ := through_bind_ok run
  obtain ⟨_,_,written,_⟩ := through_bind_ok run
  cases item
  subst nil
  cases written

theorem updateGC_nil (nil : item.address = []) (run : through medium refused (updateGC cfg item) st = (.ok (),st')) :
    st' = recordDirty [item.address] st := by
  obtain ⟨_,_,dirty,run⟩ := through_bind_ok run
  cases dirty
  obtain ⟨_,_,found,run⟩ := through_bind_ok run
  cases found
  dsimp only at run
  split at run
  · cases run; rfl
  obtain ⟨_,_,stored,run⟩ := through_bind_ok run
  rw [through_storedItem] at stored
  cases stored
  obtain ⟨moved,_,found,run⟩ := through_bind_ok run
  rw [through_findGC] at found
  cases found
  split at run
  · cases run; rfl
  · exact (renewGC_nil cfg (by exact nil) run).elim

theorem updateGC_shift (counted : Counted st.1) (movable : Movable cfg item st)
    (run : through medium refused (updateGC cfg item) st = (.ok (),st')) : Shift 0 st st' := by
  have dirty : Shift 0 st (recordDirty [item.address] st) := shift_same counted rfl rfl
  by_cases nil : item.address = []
  · rw [updateGC_nil cfg nil run]
    exact dirty
  rw [updateGC_run cfg refused_accepting nil] at run
  split at run
  · cases run; exact dirty
  cases entry : entryOf item st.1 with
  | none => rw [entry] at run; cases run; exact dirty
  | some e =>
    obtain ⟨g,n⟩ := e
    obtain ⟨held,same⟩ := entryOf_held entry
    have positive := counted g n held
    rw [entry] at run
    simp only [show n ≠ 0 by omega,if_false] at run
    cases run
    have moved : Shift 0 (recordDirty [item.address] st) (renewed cfg g (renewedBin item st.1) n _) :=
      shift_renewed dirty.counted held (by rw [same,ticks_recordDirty]; exact movable g n entry)
    simpa using shift_trans dirty moved

end

/-! ### Runs -/

def callSize : Call → Nat
  | .put _ _ chs => chs.length
  | .set _ _ addrs => addrs.length
  | .updateGC _ => 0
  | .deleteFile _ => 0

def Accounted (s : Store) : Prop := s.gcSize.getD 0 = garbage s

/-- What a call has to find so that it changes the size by what it changes the
    counters. The counters have room for its chunks. A pin finds a chunk of the
    file in the garbage for every chunk that it takes out of it, and an upload
    with pins, which never changes the size, finds none. A synced chunk is
    pinned, is counted once if it was accessed, and is named once. The entry of
    an updated item does not move onto another one. -/
def Balanced (cfg : Config) (c : Call) (st : Store × Local) : Prop :=
  garbage st.1 + callSize c < 2 ^ 64 ∧
    match c with
    | .put .requestPin root chs =>
      root = [] ∨ st.1.retrievalAccessIndex.lookup root = none ∨ freshCount st.1 chs ≤ countedFor root st.1
    | .put .uploadPin root chs => chs = [] ∨ Unlisted root st.1
    | .put _ _ _ => True
    | .set .sync _ addrs => Syncable st addrs
    | .set .pin root addrs =>
      root = [] ∨ st.1.retrievalAccessIndex.lookup root = none ∨ addrs.length ≤ countedFor root st.1
    | .set _ _ _ => True
    | .updateGC item => Movable cfg item st
    | .deleteFile _ => True

theorem resize_accounted (accounted : Accounted st.1) (shift : Shift c st st') (room : garbage st'.1 < 2 ^ 64) :
    Accounted (resize c st').1 ∧ Counted (resize c st').1 := by
  have sum := shift.sum
  unfold Accounted at accounted ⊢
  rw [← shift.size] at accounted
  have same : (resize c st').1.gcIndex = st'.1.gcIndex := by
    unfold resize
    dsimp only
    split
    · rfl
    · split
      · rfl
      · split <;> rfl
  refine ⟨?_,by unfold Counted; rw [same]; exact shift.counted⟩
  unfold garbage
  rw [same]
  change _ = garbage st'.1
  unfold resize
  dsimp only
  split
  · omega
  split
  · rw [Option.getD_some]
    omega
  split
  · omega
  · rw [Option.getD_some]
    omega

theorem keepBins_keeps {binIDs : BinIDs} (st : Store × Local) :
    (keepBins binIDs st).1.gcIndex = st.1.gcIndex ∧ (keepBins binIDs st).1.gcSize = st.1.gcSize := by
  induction binIDs generalizing st with
  | nil => exact ⟨rfl,rfl⟩
  | cons b rest ih => exact ih ({ st.1 with binIDs := st.1.binIDs.insert b.1 b.2 },st.2)

section
variable (cfg : Config)

theorem put_shift {mode : ModePut} {chs : List Chunk} {exist : List Bool} {binIDs : BinIDs} (counted : Counted st.1)
    (balanced : Balanced cfg (.put mode root chs) st)
    (run : through medium refused (putChunks cfg mode root [] chs) st = (.ok (exist,c,binIDs),st')) :
    Shift c st st' ∧ garbage st'.1 < 2 ^ 64 := by
  obtain ⟨room,safe⟩ := balanced
  cases mode with
  | request => exact putChunks_shift (request_shift cfg refused_accepting) counted room run
  | requestPin =>
    obtain ⟨shift,last⟩ := putChunks_shift (requestPin_shift cfg) counted ⟨by omega,safe⟩ run
    exact ⟨shift,last.1⟩
  | upload => exact putChunks_shift (upload_shift cfg) counted (by omega) run
  | uploadPin =>
    rcases safe with rfl | unlisted
    · cases run
      exact ⟨shift_refl counted,by omega⟩
    · obtain ⟨shift,last⟩ := putChunks_shift (uploadPin_shift cfg refused_accepting) counted ⟨by omega,unlisted⟩ run
      exact ⟨shift,last.1⟩
  | chain => exact putChunks_shift (chain_shift cfg refused_accepting) counted room run

theorem set_shift {mode : ModeSet} {addrs : List Address} (counted : Counted st.1)
    (balanced : Balanced cfg (.set mode root addrs) st)
    (run : through medium refused (setAddresses cfg mode root addrs) st = (.ok c,st')) :
    Shift c st st' ∧ garbage st'.1 < 2 ^ 64 := by
  obtain ⟨room,safe⟩ := balanced
  cases mode with
  | sync =>
    obtain ⟨shift,last⟩ := setAddresses_shift (sync_shift cfg refused_accepting) counted ⟨by omega,safe⟩ run
    exact ⟨shift,last.1⟩
  | remove => exact setAddresses_shift (remove_shift cfg refused_accepting) counted (by omega) run
  | pin =>
    obtain ⟨shift,last⟩ := setAddresses_shift (pin_shift cfg refused_accepting) counted ⟨by omega,safe⟩ run
    exact ⟨shift,last.1⟩
  | unpin => exact setAddresses_shift (unpin_shift cfg refused_accepting) counted room run

theorem delete_accounted (accounted : Accounted st.1) (counted : Counted st.1) (room : garbage st.1 < 2 ^ 64)
    (run : through medium refused (DeleteFile cfg root) st = (.ok (),st')) : Accounted st'.1 ∧ Counted st'.1 := by
  change through medium refused (setRemoveAll cfg (addressToItem root)) (undirected root st) = _ at run
  rw [setRemoveAll_run cfg refused_accepting (delete_named cfg run)] at run
  split at run
  · cases run
  split at run
  · next removed =>
    cases run
    have counted' : Counted (undirected root st).1 := counted
    have accounted' : Accounted (undirected root st).1 := accounted
    rw [← setAddresses_remove cfg] at removed
    obtain ⟨shift,room'⟩ := setAddresses_shift (remove_shift cfg refused_accepting) counted' room removed
    have listed : Shift 0 _ (setTransfer (addressToItem root).address none _) := shift_same shift.counted rfl rfl
    exact resize_accounted accounted' (by simpa using shift_trans shift listed) room'
  · cases run

theorem balanced_step {call : Call} (accounted : Accounted st.1) (counted : Counted st.1)
    (succeeds : Succeeds cfg .wiredtiger call st) (balanced : Balanced cfg call st) :
    Accounted (after cfg .wiredtiger call st).1 ∧ Counted (after cfg .wiredtiger call st).1 := by
  obtain ⟨r,ok⟩ := succeeds
  unfold after
  rcases result : run .wiredtiger (call.op cfg) st with ⟨r',st'⟩
  rw [result] at ok
  subst ok
  cases call with
  | put mode root chs =>
    change through medium refused (Localstore.put cfg mode root chs) st = _ at result
    rw [put_run refused_accepting] at result
    have counted' : Counted (recordDirty (chs.map (·.address)) st).1 := counted
    have accounted' : Accounted (recordDirty (chs.map (·.address)) st).1 := accounted
    have balanced' : Balanced cfg (.put mode root chs) (recordDirty (chs.map (·.address)) st) := by
      cases mode <;> exact balanced
    split at result
    · next exist c binIDs mid stored =>
      cases result
      obtain ⟨shift,room⟩ := put_shift cfg counted' balanced' stored
      obtain ⟨gc,size⟩ := keepBins_keeps mid
      have bins : Shift 0 mid (keepBins binIDs mid) := shift_same shift.counted gc size
      exact resize_accounted accounted' (by simpa using shift_trans shift bins) (by have := bins.sum; omega)
    · cases result
  | set mode root addrs =>
    obtain ⟨_,mid,done,last⟩ := through_bind_ok result
    cases last
    rw [set_run cfg refused_accepting] at done
    have counted' : Counted (recordDirty addrs st).1 := counted
    have accounted' : Accounted (recordDirty addrs st).1 := accounted
    have balanced' : Balanced cfg (.set mode root addrs) (recordDirty addrs st) := by
      cases mode <;> exact balanced
    split at done
    · next changed =>
      cases done
      obtain ⟨shift,room⟩ := set_shift cfg counted' balanced' changed
      exact resize_accounted accounted' shift room
    · cases done
  | updateGC item =>
    obtain ⟨_,mid,done,last⟩ := through_bind_ok result
    cases last
    have shift := updateGC_shift cfg counted balanced.2 done
    refine ⟨?_,shift.counted⟩
    have sum := shift.sum
    unfold Accounted at accounted ⊢
    dsimp only
    rw [shift.size]
    omega
  | deleteFile root =>
    obtain ⟨_,mid,done,last⟩ := through_bind_ok result
    cases last
    exact delete_accounted cfg accounted counted balanced.1 done

/-- In every run whose calls return no error and are balanced, the stored size
    is the sum of all counters in every state. -/
theorem gcSize_accounted {st : Store × Local}
    (reached : Reached cfg .wiredtiger (fun c st => Succeeds cfg .wiredtiger c st ∧ Balanced cfg c st) st) :
    st.1.gcSize.getD 0 = garbage st.1 := by
  have both : Accounted st.1 ∧ Counted st.1 := by
    induction reached with
    | start l => exact ⟨rfl,fun g n held => by cases held⟩
    | call c _ allowed ih => exact balanced_step cfg ih.1 ih.2 allowed.1 allowed.2
  exact both.1

end

/-- Storing a chunk and syncing it, both without an error, leaves the size 1 and
    no counter above 0. -/
theorem gcSize_drifts :
    ∃ st, Reached steady .wiredtiger (Succeeds steady .wiredtiger) st ∧ st.1.gcSize.getD 0 ≠ garbage st.1 := by
  refine ⟨_,.call (.set .sync [] [(sample 1).address]) (.call (.put .upload [] [sample 1]) (.start {}) ⟨[false],?_⟩)
    ⟨[],?_⟩,?_⟩
  · decide +kernel
  · decide +kernel
  · decide +kernel

theorem gcSize_accounted_pinned :
    let first := after steady .wiredtiger (.put .request (sample 1).address [sample 1]) ({},{})
    let second := after steady .wiredtiger (.put .requestPin (sample 1).address [sample 2]) first
    freshCount first.1 [sample 2] = 1 ∧ second.1.gcSize.getD 0 = garbage second.1 := by
  refine ⟨by decide +kernel,gcSize_accounted steady (.call _ (.call _ (.start {}) ⟨⟨[false],?_⟩,?_,trivial⟩)
    ⟨⟨[false],?_⟩,?_,.inr (.inr ?_)⟩)⟩
  all_goals decide +kernel
end FavorX.GcSize

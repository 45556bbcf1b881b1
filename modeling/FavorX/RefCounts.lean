import FavorX.Frames

/-!
The reference counters of chunks that files share. The counter of a chunk is the
number of its occurrences in all transfer lists, as long as no deletion releases
what no list holds.
-/
namespace FavorX.RefCounts
open FiniteMaps Shed Localstore Effects Frames
open Batches hiding get put fail

/-- The addresses in a transfer list, the last one first. -/
def pieces (data : Bytes) : List Address := ((addressesOf data).toOption).getD []

/-- The number of occurrences of a chunk in all transfer lists. -/
def occurrences (s : Store) (c : Address) : Nat := total (fun _ data => (pieces data).count c) s.transferDataIndex

def references (s : Store) (c : Address) : Nat := (s.retrievalDataIndex.lookup c).elim 0 (·.counter)

theorem pieces_nil : pieces [] = [] := rfl

theorem pieces_append {data a : Bytes} (aligned : data.length % hashSize = 0) (sized : a.length = hashSize) :
    pieces (data ++ a) = a :: pieces data := by
  obtain ⟨n,length⟩ : ∃ n, data.length = n * hashSize := ⟨data.length / hashSize,by
    have := Nat.div_add_mod data.length hashSize
    rw [Nat.mul_comm]
    omega⟩
  have total : (data ++ a).length = (n + 1) * hashSize := by rw [List.length_append,length,sized,Nat.succ_mul]
  have positive : 0 < hashSize := by decide
  have read : ∀ i ∈ List.range n, Manifest.slice (data ++ a) (i * hashSize) (i * hashSize + hashSize) =
      Manifest.slice data (i * hashSize) (i * hashSize + hashSize) := by
    intro i inside
    have below : (i + 1) * hashSize ≤ n * hashSize := Nat.mul_le_mul_right _ (List.mem_range.mp inside)
    rw [Nat.succ_mul] at below
    simp only [Manifest.slice,Nat.add_sub_cancel_left]
    rw [List.drop_append_of_le_length (by omega),List.take_append_of_le_length (by rw [List.length_drop]; omega)]
  have last : Manifest.slice (data ++ a) (n * hashSize) (n * hashSize + hashSize) = a := by
    simp only [Manifest.slice,Nat.add_sub_cancel_left]
    rw [← length,List.drop_left,← sized,List.take_length]
  simp only [pieces,addressesOf,total,length,Nat.mul_mod_left,ne_eq,not_true_eq_false,if_false,Except.toOption,
    Option.getD_some,Nat.mul_div_cancel _ positive,List.range_succ,List.reverse_append,List.reverse_singleton,
    List.singleton_append,List.map_cons,last]
  congr 1
  simp only [List.map_reverse]
  congr 1
  exact List.map_congr_left read

theorem length_of_mem {data : Bytes} {c : Address} (listed : c ∈ pieces data) : c.length = hashSize := by
  unfold pieces addressesOf at listed
  split at listed
  · simp [Except.toOption] at listed
  next aligned =>
  simp only [Except.toOption,Option.getD_some,List.mem_map,List.mem_reverse,List.mem_range] at listed
  obtain ⟨i,inside,rfl⟩ := listed
  have whole := Nat.div_mul_le_self data.length hashSize
  have below : (i + 1) * hashSize ≤ data.length / hashSize * hashSize := Nat.mul_le_mul_right _ inside
  rw [Nat.succ_mul] at below
  simp only [Manifest.slice,Nat.add_sub_cancel_left,List.length_take,List.length_drop]
  omega

/-- Every counter is the number of occurrences, and every stored chunk has some.
    The lists are whole addresses, nothing is pinned, and every stored chunk has
    a store timestamp. -/
structure Referenced (s : Store) : Prop where
  counted : ∀ c, references s c = occurrences s c
  positive : ∀ c v, s.retrievalDataIndex.lookup c = some v → 0 < v.counter
  aligned : ∀ r data, s.transferDataIndex.lookup r = some data → data.length % hashSize = 0
  unpinned : ∀ a, s.pinIndex.lookup a = none
  stamped : ∀ c v, s.retrievalDataIndex.lookup c = some v → v.storeTimestamp ≠ 0

theorem Referenced.congr {s s' : Store} (holds : Referenced s) (data : s'.retrievalDataIndex = s.retrievalDataIndex)
    (transfer : s'.transferDataIndex = s.transferDataIndex) (pin : s'.pinIndex = s.pinIndex) : Referenced s' := by
  refine ⟨?_,?_,?_,?_,?_⟩
  · simpa only [references,occurrences,data,transfer] using holds.counted
  · simpa only [data] using holds.positive
  · simpa only [transfer] using holds.aligned
  · simpa only [pin] using holds.unpinned
  · simpa only [data] using holds.stamped

theorem references_update (s : Store) (a c : Address) (v : Option ChunkValue) :
    references { s with retrievalDataIndex := update s.retrievalDataIndex a v } c =
      if c = a then v.elim 0 (·.counter) else references s c := by
  simp only [references,lookup_update]
  split <;> rfl

variable {root : Address}

variable {s : Store} {a : Address}

theorem occurrences_append (sized : a.length = hashSize)
    (aligned : ∀ data, s.transferDataIndex.lookup root = some data → data.length % hashSize = 0) (c : Address) :
    occurrences { s with
      transferDataIndex := update s.transferDataIndex root (some ((s.transferDataIndex.lookup root).getD [] ++ a)) } c =
      occurrences s c + if c = a then 1 else 0 := by
  have sum := total_update (fun (_ : Address) data => (pieces data).count c) s.transferDataIndex root
    (some ((s.transferDataIndex.lookup root).getD [] ++ a))
  have grown : pieces ((s.transferDataIndex.lookup root).getD [] ++ a) =
      a :: pieces ((s.transferDataIndex.lookup root).getD []) := by
    cases held : s.transferDataIndex.lookup root with
    | none => exact pieces_append rfl sized
    | some data => exact pieces_append (aligned data held) sized
  have old : (s.transferDataIndex.lookup root).elim 0 (fun data => (pieces data).count c) =
      (pieces ((s.transferDataIndex.lookup root).getD [])).count c := by
    cases s.transferDataIndex.lookup root <;> rfl
  simp only [Option.elim_some,grown,List.count_cons,old] at sum
  have flip : (if a = c then 1 else 0) = if c = a then 1 else 0 := by simp only [eq_comm]
  simp only [beq_iff_eq] at sum
  simp only [occurrences]
  omega

theorem occurrences_forgotten (s : Store) (root c : Address) :
    occurrences { s with transferDataIndex := update s.transferDataIndex root none } c +
      (pieces ((s.transferDataIndex.lookup root).getD [])).count c = occurrences s c := by
  have sum := total_update (fun (_ : Address) data => (pieces data).count c) s.transferDataIndex root none
  simp only [occurrences]
  cases held : s.transferDataIndex.lookup root with
  | none => simpa [held,pieces_nil] using sum
  | some data => simpa [held] using sum

theorem occurs {c : Address} :
    0 < occurrences s c ↔ ∃ r data, s.transferDataIndex.lookup r = some data ∧ c ∈ pieces data := by
  rw [Nat.pos_iff_ne_zero,ne_eq,occurrences,total_eq_zero]
  simp only [List.count_eq_zero,not_forall,not_not,exists_prop]

theorem references_pos (holds : Referenced s) (c : Address) :
    0 < references s c ↔ (s.retrievalDataIndex.lookup c).isSome := by
  unfold references
  cases held : s.retrievalDataIndex.lookup c with
  | none => simp
  | some v => simpa using holds.positive c v held

variable {st st' : Store × Local}

section
variable (cfg : Config)

section
variable (root : Address)

def putValue (t : Nat) (binIDs : BinIDs) (ch : Chunk) (st : Store × Local) : ChunkValue :=
  match st.1.retrievalDataIndex.lookup ch.address with
  | some v => countUp v t
  | none => newValue cfg binIDs ch t st

theorem cached_kept (t : Nat) (binIDs : BinIDs) (ch : Chunk) (st : Store × Local) :
    (cached cfg root t binIDs ch st).1.retrievalDataIndex =
      update st.1.retrievalDataIndex ch.address (some (putValue cfg t binIDs ch st)) ∧
    (cached cfg root t binIDs ch st).1.transferDataIndex = st.1.transferDataIndex ∧
    (cached cfg root t binIDs ch st).1.pinIndex = st.1.pinIndex := by
  unfold cached putValue
  cases st.1.retrievalDataIndex.lookup ch.address with
  | some v => exact ⟨rfl,rfl,rfl⟩
  | none =>
    dsimp only
    split
    · exact ⟨rfl,rfl,rfl⟩
    · simp only [cache,gcAdd,access]
      split <;> exact ⟨rfl,rfl,rfl⟩

variable (binIDs : BinIDs) (ch : Chunk)

theorem requested_transfer (st : Store × Local) :
    (requested cfg root binIDs ch st).1.transferDataIndex = update st.1.transferDataIndex root
      (some ((st.1.transferDataIndex.lookup root).getD [] ++ ch.address)) := by
  simp only [requested,addTransfer,setTransfer,(cached_kept cfg root 1 binIDs ch st).2.1]

theorem requested_data (st : Store × Local) :
    (requested cfg root binIDs ch st).1.retrievalDataIndex =
      update st.1.retrievalDataIndex ch.address (some (putValue cfg 1 binIDs ch st)) :=
  (cached_kept cfg root 1 binIDs ch st).1

theorem requested_pin (st : Store × Local) : (requested cfg root binIDs ch st).1.pinIndex = st.1.pinIndex :=
  (cached_kept cfg root 1 binIDs ch st).2.2

end

theorem putValue_counter (t : Nat) (binIDs : BinIDs) (ch : Chunk) (st : Store × Local) :
    (putValue cfg t binIDs ch st).counter = references st.1 ch.address + 1 := by
  unfold putValue references
  cases st.1.retrievalDataIndex.lookup ch.address <;> rfl

theorem putValue_stamped (stamped : ∀ c v, st.1.retrievalDataIndex.lookup c = some v → v.storeTimestamp ≠ 0) (t : Nat)
    (binIDs : BinIDs) (ch : Chunk) : (putValue cfg t binIDs ch st).storeTimestamp ≠ 0 := by
  unfold putValue
  cases held : st.1.retrievalDataIndex.lookup ch.address with
  | some w => exact stamped _ w held
  | none => exact (cfg.now_pos _).ne'

theorem referenced_requested (root : Address) (binIDs : BinIDs) (ch : Chunk) (holds : Referenced st.1) :
    Referenced (requested cfg root binIDs ch st).1 := by
  have data := requested_data cfg root binIDs ch st
  have transfer := requested_transfer cfg root binIDs ch st
  refine ⟨fun c => ?_,fun c v held => ?_,fun r list held => ?_,fun a => ?_,fun c v held => ?_⟩
  · have grown := occurrences_append ch.sized (holds.aligned root) c
    have counted := references_update st.1 ch.address c (some (putValue cfg 1 binIDs ch st))
    simp only [references,occurrences] at grown counted ⊢
    rw [data,transfer,counted,grown]
    split
    · next same => rw [same,Option.elim_some,putValue_counter,holds.counted]; rfl
    · exact holds.counted c
  · rw [data,lookup_update] at held
    split at held
    · cases held
      rw [putValue_counter]
      omega
    · exact holds.positive c v held
  · rw [transfer,lookup_update] at held
    split at held
    · cases held
      have whole : ((st.1.transferDataIndex.lookup root).getD []).length % hashSize = 0 := by
        cases listed : st.1.transferDataIndex.lookup root with
        | none => rfl
        | some list => exact holds.aligned root list listed
      rw [List.length_append,ch.sized,Nat.add_mod_right,whole]
    · exact holds.aligned r list held
  · rw [requested_pin]
    exact holds.unpinned a
  rw [data,lookup_update] at held
  split at held
  · cases held
    exact putValue_stamped cfg holds.stamped 1 binIDs ch
  · exact holds.stamped c v held

theorem referenced_put {chs : List Chunk} {exist : List Bool} (holds : Referenced st.1)
    (run : through medium refused (put cfg .request root chs) st = (.ok exist,st')) : Referenced st'.1 := by
  rcases put_named cfg run with named | rfl
  · obtain ⟨_,c,binIDs,mid,ran,kept⟩ := put_request cfg refused_accepting named (I := fun _ st => Referenced st.1)
      (fun _ binIDs ch st holds => referenced_requested cfg root binIDs ch holds) chs holds
    have same := finished_same c binIDs mid
    rw [ran] at run
    cases run
    exact kept.congr same.data same.transfer same.pin
  · cases run
    exact holds

end

variable {list chunks : List Address}

section
variable {refuse : (k : Key) → Option (Value k) → Option Err} (accepts : Accepting refuse)

/-- What is left of a value when one reference is released. -/
def released (v : ChunkValue) : Option ChunkValue :=
  if 1 < v.counter then some { v with counter := v.counter - 1 } else none

include accepts in
theorem setRemove_releases {rootItem : Item} {v : ChunkValue} {c : Int} (named : a ≠ [])
    (held : st.1.retrievalDataIndex.lookup a = some v) (stamped : v.storeTimestamp ≠ 0)
    (unpinned : st.1.pinIndex.lookup a = none) (run : through medium refuse (setRemove a rootItem) st = (.ok c,st')) :
    st'.1.retrievalDataIndex = update st.1.retrievalDataIndex a (released v) ∧ st'.1.pinIndex = st.1.pinIndex := by
  have free : ¬ 1 < (st.1.pinIndex.lookup a).getD 0 := by simp [unpinned]
  unfold released
  by_cases more : 1 < v.counter
  · rw [setRemove_referenced accepts named held more] at run
    cases run
    rw [if_pos more]
    exact ⟨rfl,rfl⟩
  rw [if_neg more]
  by_cases same : a = rootItem.address
  · rw [setRemove_root accepts named held (by omega) stamped free same.symm] at run
    cases run
    rw [unstored,setPins_none unpinned]
    exact ⟨by unfold gcDrop; split <;> [rfl; split <;> rfl],by unfold gcDrop; split <;> [rfl; split <;> rfl]⟩
  · rw [setRemove_other accepts named held (by omega) free same,unstored,setPins_none unpinned] at run
    have pins := kept_pin only_gcRemove run (by decide)
    exact ⟨kept_data only_gcRemove run (by decide),pins⟩

/-- Every stored chunk can be released as often as it occurs in a list. -/
structure Releasable (s : Store) (list : List Address) : Prop where
  sized : ∀ c ∈ list, c.length = hashSize
  enough : ∀ c, list.count c ≤ references s c
  positive : ∀ c v, s.retrievalDataIndex.lookup c = some v → 0 < v.counter
  unpinned : ∀ a, s.pinIndex.lookup a = none
  stamped : ∀ c v, s.retrievalDataIndex.lookup c = some v → v.storeTimestamp ≠ 0

theorem releasable_head (holds : Releasable s (a :: list)) :
    ∃ v, s.retrievalDataIndex.lookup a = some v ∧ 0 < v.counter ∧ a ≠ [] := by
  have counted : 0 < references s a := by
    have enough := holds.enough a
    rw [List.count_cons_self] at enough
    omega
  cases held : s.retrievalDataIndex.lookup a with
  | none => simp [references,held] at counted
  | some v =>
    refine ⟨v,rfl,holds.positive a v held,?_⟩
    rintro rfl
    cases holds.sized [] List.mem_cons_self

include accepts in
theorem releasable_step {rootItem : Item} {c : Int} (holds : Releasable st.1 (a :: list))
    (run : through medium refuse (setRemove a rootItem) st = (.ok c,st')) :
    Releasable st'.1 list ∧ ∀ b, references st'.1 b + (if b = a then 1 else 0) = references st.1 b := by
  obtain ⟨v,held,left,named⟩ := releasable_head holds
  obtain ⟨data,pins⟩ := setRemove_releases accepts named held (holds.stamped a v held) (holds.unpinned a) run
  have fewer : ∀ b, references st'.1 b + (if b = a then 1 else 0) = references st.1 b := by
    intro b
    have updated := references_update st.1 a b (released v)
    simp only [references] at updated ⊢
    rw [data,updated]
    split
    · next same =>
      subst same
      rw [held,released]
      split
      · simp only [Option.elim_some]
        omega
      · simp only [Option.elim_none,Option.elim_some]
        omega
    · rfl
  refine ⟨⟨fun b listed => holds.sized b (List.mem_cons_of_mem a listed),fun b => ?_,fun b w found => ?_,fun b => ?_,
    fun b w found => ?_⟩,fewer⟩
  · have enough := holds.enough b
    have one := fewer b
    rw [List.count_cons] at enough
    simp only [beq_iff_eq,@eq_comm _ a b] at enough
    omega
  · rw [data,lookup_update] at found
    split at found
    · unfold released at found
      split at found
      · cases found
        simp only
        omega
      · cases found
    · exact holds.positive b w found
  · rw [pins]
    exact holds.unpinned b
  rw [data,lookup_update] at found
  split at found
  · unfold released at found
    split at found
    · cases found
      exact holds.stamped a v held
    · cases found
  · exact holds.stamped b w found

include accepts in
/-- Removing the chunks of a list releases one reference for each occurrence. -/
theorem releasable_run {rootItem : Item} {c : Int} (holds : Releasable st.1 list)
    (run : through medium refuse (removeChunks rootItem list) st = (.ok c,st')) :
    Releasable st'.1 [] ∧ ∀ b, references st'.1 b + list.count b = references st.1 b := by
  induction list generalizing st c with
  | nil =>
    cases run
    exact ⟨holds,fun b => by simp⟩
  | cons a list ih =>
    obtain ⟨_,mid,first,run⟩ := through_bind_ok run
    obtain ⟨_,_,rest,run⟩ := through_bind_ok run
    cases run
    obtain ⟨still,one⟩ := releasable_step accepts holds first
    obtain ⟨done,all⟩ := ih still rest
    refine ⟨done,fun b => ?_⟩
    have := one b
    have := all b
    rw [List.count_cons]
    simp only [beq_iff_eq,@eq_comm _ a b]
    omega

end

section
variable (cfg : Config) {refuse : (k : Key) → Option (Value k) → Option Err}

theorem getAllChunks_listed {data : Bytes} (listed : st.1.transferDataIndex.lookup root = some data)
    (aligned : data.length % hashSize = 0) :
    (through medium refuse (getAllChunks cfg root) st).1 = .ok (pieces data) := by
  unfold getAllChunks
  simp only [bind_eq,through_bind,getTransfer_run,listed,addressesOf,aligned,ne_eq,not_true_eq_false,if_false,pieces,
    Except.toOption]
  rfl

/-- A deletion finds the list of the file, or nothing to walk. -/
def Listed (root : Address) (s : Store) : Prop :=
  (s.transferDataIndex.lookup root).isSome ∨ s.retrievalDataIndex.lookup root = none

theorem getAllChunks_pieces (known : Listed root st.1)
    (aligned : ∀ data, st.1.transferDataIndex.lookup root = some data → data.length % hashSize = 0)
    (walked : (through medium refuse (getAllChunks cfg root) st).1 = .ok chunks) :
    chunks = pieces ((st.1.transferDataIndex.lookup root).getD []) := by
  cases listed : st.1.transferDataIndex.lookup root with
  | some data =>
    rw [getAllChunks_listed cfg listed (aligned data listed)] at walked
    cases walked
    rfl
  | none =>
    rw [Listed,listed] at known
    simp only [Option.isSome_none,Bool.false_eq_true,false_or] at known
    unfold getAllChunks at walked
    simp only [bind_eq,through_bind,getTransfer_run,listed] at walked
    cases depth : cfg.depth with
    | zero =>
      rw [depth] at walked
      cases walked
    | succ fuel =>
      rw [depth] at walked
      simp [getChunk,addressToItem,known] at walked
      exact walked

theorem deleteFile_ran (run : through medium refused (DeleteFile cfg root) st = (.ok (),st')) :
    root ≠ [] ∧ ∃ chunks c mid, (through medium refused (getAllChunks cfg root) (undirected root st)).1 = .ok chunks ∧
      through medium refused (removeChunks (addressToItem root) chunks) (undirected root st) = (.ok c,mid) ∧
      SameIndexes (setTransfer root none mid) st' := by
  change through medium refused (setRemoveAll cfg (addressToItem root)) (undirected root st) = _ at run
  have named := delete_named cfg run
  rw [setRemoveAll_run cfg refused_accepting named] at run
  split at run
  · cases run
  next chunks walked =>
  split at run
  · next c mid removed =>
    cases run
    exact ⟨named,chunks,c,mid,walked,removed,resize_same⟩
  · cases run

theorem referenced_delete (holds : Referenced st.1) (known : Listed root st.1)
    (run : through medium refused (DeleteFile cfg root) st = (.ok (),st')) : Referenced st'.1 := by
  obtain ⟨named,chunks,c,mid,walked,removed,same⟩ := deleteFile_ran cfg run
  have list := getAllChunks_pieces cfg (show Listed root (undirected root st).1 from known) (holds.aligned root) walked
  change chunks = pieces ((st.1.transferDataIndex.lookup root).getD []) at list
  have forgotten := occurrences_forgotten st.1 root
  have start : Releasable (undirected root st).1 chunks := by
    refine ⟨fun b listed => ?_,fun b => ?_,holds.positive,holds.unpinned,holds.stamped⟩
    · rw [list] at listed
      exact length_of_mem listed
    have counted := holds.counted b
    have part := forgotten b
    rw [list]
    change _ ≤ references st.1 b
    omega
  obtain ⟨done,left⟩ := releasable_run refused_accepting start removed
  have transfer := kept_transfer (only_removeChunks _) removed (by decide)
  have after : Referenced (setTransfer root none mid).1 := by
    refine ⟨fun b => ?_,done.positive,fun r data found => ?_,done.unpinned,done.stamped⟩
    · have counted := holds.counted b
      have part := forgotten b
      have less := left b
      change references mid.1 b + chunks.count b = references st.1 b at less
      change references mid.1 b = total _ (update mid.1.transferDataIndex root none)
      rw [transfer]
      simp only [occurrences,← list] at part counted
      change _ = total _ (update st.1.transferDataIndex root none)
      omega
    change (update mid.1.transferDataIndex root none).lookup r = some data at found
    rw [transfer,lookup_update] at found
    split at found
    · cases found
    · exact holds.aligned r data found
  exact after.congr same.data same.transfer same.pin

end

section
variable (cfg : Config)

/-- The call is a put on request or a deletion and returns no error. -/
def Shares (c : Call) (st : Store × Local) : Prop :=
  Succeeds cfg .wiredtiger c st ∧
    match c with
    | .put .request _ _ => True
    | .deleteFile _ => True
    | _ => False

/-- A deletion, too, finds the list of the file, or nothing to walk. -/
def Releases (c : Call) (st : Store × Local) : Prop :=
  Shares cfg c st ∧ ∀ root, c = .deleteFile root → Listed root st.1

theorem referenced_step {c : Call} (holds : Referenced st.1) (allowed : Releases cfg c st) :
    Referenced (after cfg .wiredtiger c st).1 := by
  obtain ⟨⟨⟨r,ok⟩,shares⟩,known⟩ := allowed
  have ran : through medium refused (c.op cfg) st = (.ok r,after cfg .wiredtiger c st) := Prod.ext ok rfl
  cases c with
  | put mode root chs =>
    cases mode with
    | request => exact referenced_put cfg holds ran
    | _ => exact shares.elim
  | deleteFile root =>
    obtain ⟨_,mid,deleted,rest⟩ := through_bind_ok ran
    have last : mid = after cfg .wiredtiger (.deleteFile root) st := congrArg Prod.snd rest
    rw [← last]
    exact referenced_delete cfg holds (known root rfl) deleted
  | set mode root addrs | updateGC item => exact shares.elim

theorem referenced_run (reached : Reached cfg .wiredtiger (Releases cfg) st) : Referenced st.1 := by
  induction reached with
  | start l => exact ⟨fun _ => rfl,nofun,nofun,fun _ => rfl,nofun⟩
  | call c _ allowed ih => exact referenced_step cfg ih allowed

theorem stored_iff (holds : Referenced s) (c : Address) :
    (s.retrievalDataIndex.lookup c).isSome ↔
      ∃ r data, s.transferDataIndex.lookup r = some data ∧ c ∈ pieces data := by
  rw [← references_pos holds,holds.counted,occurs]

theorem deleteFile_lists {a b : Address} (other : b ≠ a) (ok : Succeeds cfg .wiredtiger (.deleteFile a) st) :
    (after cfg .wiredtiger (.deleteFile a) st).1.transferDataIndex.lookup b = st.1.transferDataIndex.lookup b := by
  obtain ⟨r,ok⟩ := ok
  have ran : through medium refused ((Call.deleteFile a).op cfg) st =
    (.ok r,after cfg .wiredtiger (.deleteFile a) st) := Prod.ext ok rfl
  obtain ⟨_,mid,deleted,rest⟩ := through_bind_ok ran
  have last : mid = after cfg .wiredtiger (.deleteFile a) st := congrArg Prod.snd rest
  obtain ⟨_,_,_,left,_,removed,same⟩ := deleteFile_ran cfg deleted
  have transfer := kept_transfer (only_removeChunks _) removed (by decide)
  rw [← last,same.transfer]
  change (update left.1.transferDataIndex a none).lookup b = _
  rw [lookup_update,if_neg other,transfer]
  rfl

/-- Where every deletion finds the list of its file, or a root chunk that is not
    stored, the stored chunks are those in the lists and every counter is the
    number of occurrences; deleting a file keeps the chunks of the others. -/
theorem references_counted {st : Store × Local} (reached : Reached cfg .wiredtiger (Releases cfg) st) (c : Address) :
    ((st.1.retrievalDataIndex.lookup c).isSome ↔
      ∃ r data, st.1.transferDataIndex.lookup r = some data ∧ c ∈ pieces data) ∧
    (∀ v, st.1.retrievalDataIndex.lookup c = some v → v.counter = occurrences st.1 c) ∧
    ∀ a b data, b ≠ a → Releases cfg (.deleteFile a) st → st.1.transferDataIndex.lookup b = some data →
      c ∈ pieces data → ((after cfg .wiredtiger (.deleteFile a) st).1.retrievalDataIndex.lookup c).isSome := by
  have holds := referenced_run cfg reached
  refine ⟨stored_iff holds c,fun v held => ?_,fun a b data other allowed listed inside => ?_⟩
  · rw [← holds.counted,references,held,Option.elim_some]
  · rw [stored_iff (referenced_step cfg holds allowed)]
    exact ⟨b,data,(deleteFile_lists cfg other allowed.1.1).trans listed,inside⟩

end

theorem references_counted_shared :
    let first := after steady .wiredtiger (.put .request (sample 1).address [sample 1]) ({},{})
    let second := after steady .wiredtiger (.put .request (sample 2).address [sample 1]) first
    occurrences second.1 (sample 1).address = 2 ∧
      ((after steady .wiredtiger (.deleteFile (sample 1).address) second).1.retrievalDataIndex.lookup
        (sample 1).address).isSome := by
  have first : Releases steady (.put .request (sample 1).address [sample 1]) ({},{}) :=
    ⟨⟨⟨[false],by decide +kernel⟩,trivial⟩,nofun⟩
  have second : Releases steady (.put .request (sample 2).address [sample 1])
      (after steady .wiredtiger (.put .request (sample 1).address [sample 1]) ({},{})) :=
    ⟨⟨⟨[true],by decide +kernel⟩,trivial⟩,nofun⟩
  refine ⟨by decide +kernel,(references_counted steady (.call _ (.call _ (.start {}) first) second) _).2.2
    (sample 1).address (sample 2).address (sample 1).address (by decide) ⟨⟨⟨[],by decide +kernel⟩,trivial⟩,?_⟩
    (by decide +kernel) (by decide +kernel)⟩
  rintro root ⟨⟩
  exact .inl (by decide +kernel)

/-- Deleting a file twice takes its root chunk from the other file that holds
    it: the second time there is no list, and the chunk itself is walked. -/
theorem shared_chunk_lost :
    ∃ st, Reached steady .wiredtiger (Shares steady) st ∧
      st.1.transferDataIndex.lookup (sample 2).address = some (sample 1).address ∧
      (sample 1).address ∈ pieces (sample 1).address ∧
      st.1.retrievalDataIndex.lookup (sample 1).address = none := by
  let a := (sample 1).address
  let b := (sample 2).address
  refine ⟨_,.call (.deleteFile a) (.call (.deleteFile a) (.call (.put .request b [sample 1])
    (.call (.put .request a [sample 1]) (.start {}) ⟨⟨[false],?_⟩,trivial⟩) ⟨⟨[true],?_⟩,trivial⟩)
    ⟨⟨[],?_⟩,trivial⟩) ⟨⟨[],?_⟩,trivial⟩,?_,?_,?_⟩
  all_goals decide +kernel
end FavorX.RefCounts

import FavorX.RefCounts

/-!
Deleting a file. Its chunks are released in the reverse of the order they were
put in; a deletion fails exactly if the root chunk goes before another one
(`removeChunks_succeeds`).
-/
namespace FavorX.Deletion
open FiniteMaps Shed Localstore Effects Frames RefCounts
open Batches hiding get put fail

/-- The chunks that are released after the last release of the root. -/
def early (root : Address) (list : List Address) : List Address := list.reverse.takeWhile (· ≠ root)

/-- The root outlives the list, or else every chunk that is released after the
    root does. -/
def Orderly (references : Address → Nat) (root : Address) (list : List Address) : Prop :=
  list.count root < references root ∨ ∀ c ∈ early root list, list.count c < references c

variable {root : Address} {list : List Address}

theorem early_listed {a : Address} (listed : root ∈ list) : early root (a :: list) = early root list := by
  unfold early
  rw [List.reverse_cons,List.takeWhile_append,if_neg]
  intro whole
  have all : list.reverse.takeWhile (· ≠ root) = list.reverse := (List.takeWhile_prefix _).eq_of_length whole
  rw [List.takeWhile_eq_self_iff] at all
  simpa using all root (List.mem_reverse.mpr listed)

theorem early_unlisted (unlisted : root ∉ list) : early root list = list.reverse := by
  rw [early,List.takeWhile_eq_self_iff]
  intro c member
  simpa using fun same : c = root => unlisted (same ▸ List.mem_reverse.mp member)

theorem orderly_cons {f g : Address → Nat} {a : Address} (fewer : ∀ b, g b + (if b = a then 1 else 0) = f b)
    (enough : ∀ b, (a :: list).count b ≤ f b) (runs : ¬ (a ≠ root ∧ f a = 1 ∧ f root = 0)) :
    Orderly f root (a :: list) ↔ Orderly g root list := by
  have same : ∀ b, (a :: list).count b < f b ↔ list.count b < g b := by
    intro b
    have one := fewer b
    rw [List.count_cons]
    simp only [beq_iff_eq,@eq_comm _ a b]
    omega
  unfold Orderly
  simp only [same]
  by_cases listed : root ∈ list
  · rw [early_listed listed]
  rw [early_unlisted listed]
  by_cases root_first : a = root
  · rw [early,List.reverse_cons,List.takeWhile_append]
    rw [if_pos (by rw [show list.reverse.takeWhile (· ≠ root) = list.reverse from early_unlisted listed])]
    simp [root_first]
  rw [early_unlisted (by simp [Ne.symm root_first,listed])]
  constructor
  · rintro (outlives | all)
    · exact .inl outlives
    · exact .inr fun c member => all c (by simpa using .inl (List.mem_reverse.mp member))
  rintro (outlives | all)
  · exact .inl outlives
  by_cases again : a ∈ list
  · refine .inr fun c member => all c ?_
    simp only [List.mem_reverse,List.mem_cons] at member ⊢
    rcases member with rfl | member
    · exact again
    · exact member
  have absent := List.count_eq_zero.mpr again
  have missing := List.count_eq_zero.mpr listed
  have mine := fewer a
  have roots := fewer root
  rw [if_pos rfl] at mine
  rw [if_neg (Ne.symm root_first)] at roots
  by_cases last : f a = 1
  · exact .inl (by have : f root ≠ 0 := fun zero => runs ⟨root_first,last,zero⟩; omega)
  refine .inr fun c member => ?_
  simp only [List.mem_reverse,List.mem_cons] at member
  rcases member with rfl | member
  · omega
  · exact all c (List.mem_reverse.mpr member)

variable {st : Store × Local}

section
variable {refuse : (k : Key) → Option (Value k) → Option Err} (accepts : Accepting refuse)
include accepts

/-- A release fails only if it is the last one of its chunk and the root chunk
    is gone. -/
theorem setRemove_succeeds {a : Address} (named : root ≠ []) (holds : Releasable st.1 (a :: list)) :
    (∃ c st', through medium refuse (setRemove a (addressToItem root)) st = (.ok c,st')) ↔
      ¬ (a ≠ root ∧ references st.1 a = 1 ∧ references st.1 root = 0) := by
  obtain ⟨v,held,positive,named'⟩ := releasable_head holds
  have free : ¬ 1 < (st.1.pinIndex.lookup a).getD 0 := by simp [holds.unpinned a]
  have counter : references st.1 a = v.counter := by rw [references,held,Option.elim_some]
  by_cases more : 1 < v.counter
  · rw [setRemove_referenced accepts named' held more]
    exact ⟨fun _ => by omega,fun _ => ⟨_,_,rfl⟩⟩
  by_cases same : a = root
  · rw [setRemove_root accepts named' held (by omega) (holds.stamped a v held) free same.symm]
    exact ⟨fun _ both => both.1 same,fun _ => ⟨_,_,rfl⟩⟩
  rw [setRemove_other accepts named' held (by omega) free same,gcRemove_run accepts named]
  have kept : (setAccess a none (unstored a st)).1.retrievalDataIndex.lookup root =
      st.1.retrievalDataIndex.lookup root := by
    change (update st.1.retrievalDataIndex a none).lookup root = _
    rw [lookup_update,if_neg (Ne.symm same)]
  rw [kept]
  cases stored : st.1.retrievalDataIndex.lookup root with
  | none =>
    have gone : references st.1 root = 0 := by rw [references,stored,Option.elim_none]
    exact ⟨by rintro ⟨_,_,⟨⟩⟩,fun runs => absurd ⟨same,by omega,gone⟩ runs⟩
  | some w =>
    have left : references st.1 root ≠ 0 := by
      rw [references,stored]
      exact (holds.positive root w stored).ne'
    refine ⟨fun _ both => left both.2.2,fun _ => ?_⟩
    cases (setAccess a none (unstored a st)).1.retrievalAccessIndex.lookup root with
    | none | some t => exact ⟨_,_,rfl⟩

/-- A deletion succeeds exactly if the root chunk is not gone before another
    chunk goes. -/
theorem removeChunks_succeeds (named : root ≠ []) (holds : Releasable st.1 list) :
    (∃ c st', through medium refuse (removeChunks (addressToItem root) list) st = (.ok c,st')) ↔
      Orderly (references st.1) root list := by
  induction list generalizing st with
  | nil => exact ⟨fun _ => .inr (fun c member => by simp [early] at member),fun _ => ⟨_,_,rfl⟩⟩
  | cons a list ih =>
    have first := setRemove_succeeds accepts named holds
    constructor
    · rintro ⟨c,st',run⟩
      obtain ⟨_,mid,one,run⟩ := through_bind_ok run
      obtain ⟨_,_,rest,_⟩ := through_bind_ok run
      obtain ⟨still,fewer⟩ := releasable_step accepts holds one
      exact (orderly_cons fewer holds.enough (first.mp ⟨_,_,one⟩)).mpr ((ih still).mp ⟨_,_,rest⟩)
    intro orderly
    have runs : ¬ (a ≠ root ∧ references st.1 a = 1 ∧ references st.1 root = 0) := by
      rintro ⟨other,last,gone⟩
      have missing : root ∉ a :: list := by
        intro member
        have := holds.enough root
        have := List.count_pos_iff.mpr member
        omega
      rcases orderly with outlives | all
      · omega
      · have := all a (by rw [early_unlisted missing]; simp)
        have := List.count_pos_iff.mpr (List.mem_cons_self (a := a) (l := list))
        omega
    obtain ⟨c,mid,one⟩ := first.mpr runs
    obtain ⟨still,fewer⟩ := releasable_step accepts holds one
    obtain ⟨c',st',rest⟩ := (ih still).mpr ((orderly_cons fewer holds.enough runs).mp orderly)
    refine ⟨c + c',st',?_⟩
    simp only [removeChunks,bind_eq,through_bind,one,rest,pure_eq,through_done]

end

abbrev Put := Address × List Chunk

/-- The chunks that one put stores, each with the root. Without a root the first
    chunk is stored before the put fails. -/
def storedBy (p : Put) : List (Address × Address) :=
  (if p.1 = [] then p.2.take 1 else p.2).map (fun ch => (p.1,ch.address))

def stored (puts : List Put) : List (Address × Address) := puts.flatMap storedBy

def under (history : List (Address × Address)) (root : Address) : List Address :=
  (history.filter (·.1 = root)).map Prod.snd

def putAll (cfg : Config) (puts : List Put) (st : Store × Local) : Store × Local :=
  puts.foldl (fun st p => after cfg .wiredtiger (.put .request p.1 p.2) st) st

theorem under_append (history : List (Address × Address)) (root r a : Address) :
    under (history ++ [(root,a)]) r = under history r ++ if root = r then [a] else [] := by
  unfold under
  rw [List.filter_append]
  by_cases same : root = r <;> simp [same]

/-- What is stored after the puts of a history. -/
structure Recorded (history : List (Address × Address)) (s : Store) : Prop where
  counted : ∀ c, references s c = (history.map Prod.snd).count c
  listed : ∀ r, r ≠ [] → s.transferDataIndex.lookup r =
    if under history r = [] then none else some (under history r).flatten
  sized : ∀ p ∈ history, p.2.length = hashSize
  positive : ∀ c v, s.retrievalDataIndex.lookup c = some v → 0 < v.counter
  unpinned : ∀ a, s.pinIndex.lookup a = none
  stamped : ∀ c v, s.retrievalDataIndex.lookup c = some v → v.storeTimestamp ≠ 0

variable {history : List (Address × Address)}

theorem Recorded.congr {s s' : Store} (holds : Recorded history s)
    (data : s'.retrievalDataIndex = s.retrievalDataIndex) (transfer : s'.transferDataIndex = s.transferDataIndex)
    (pin : s'.pinIndex = s.pinIndex) : Recorded history s' := by
  refine ⟨?_,?_,holds.sized,?_,?_,?_⟩
  · simpa only [references,data] using holds.counted
  · simpa only [transfer] using holds.listed
  · simpa only [data] using holds.positive
  · simpa only [pin] using holds.unpinned
  · simpa only [data] using holds.stamped

section
variable (cfg : Config) {history : List (Address × Address)} {st : Store × Local}

theorem recorded_cached {binIDs : BinIDs} {ch : Chunk} {s' : Store} (holds : Recorded history st.1)
    (data : s'.retrievalDataIndex = update st.1.retrievalDataIndex ch.address (some (putValue cfg 1 binIDs ch st)))
    (pin : s'.pinIndex = st.1.pinIndex) (listed : ∀ r, r ≠ [] → s'.transferDataIndex.lookup r =
      if under (history ++ [(root,ch.address)]) r = [] then none
      else some (under (history ++ [(root,ch.address)]) r).flatten) : Recorded (history ++ [(root,ch.address)]) s' := by
  refine ⟨fun c => ?_,listed,fun p member => ?_,fun c v held => ?_,fun a => by rw [pin]; exact holds.unpinned a,
    fun c v held => ?_⟩
  · have counted := references_update st.1 ch.address c (some (putValue cfg 1 binIDs ch st))
    simp only [references] at counted ⊢
    rw [data,counted]
    split
    · next same =>
      rw [same,Option.elim_some,putValue_counter,holds.counted]
      simp
    next other =>
    have kept := holds.counted c
    rw [references] at kept
    rw [kept]
    simp [Ne.symm other]
  · rcases List.mem_append.mp member with old | new
    · exact holds.sized p old
    · rw [List.mem_singleton.mp new]
      exact ch.sized
  · rw [data,lookup_update] at held
    split at held
    · cases held
      rw [putValue_counter]
      omega
    · exact holds.positive c v held
  rw [data,lookup_update] at held
  split at held
  · cases held
    exact putValue_stamped cfg holds.stamped 1 binIDs ch
  · exact holds.stamped c v held

theorem recorded_requested (named : root ≠ []) (binIDs : BinIDs) (ch : Chunk) (holds : Recorded history st.1) :
    Recorded (history ++ [(root,ch.address)]) (requested cfg root binIDs ch st).1 := by
  refine recorded_cached cfg holds (requested_data cfg root binIDs ch st) (requested_pin cfg root binIDs ch st)
    (fun r other => ?_)
  rw [requested_transfer,lookup_update,under_append]
  by_cases same : r = root
  · subst same
    rw [holds.listed r named]
    by_cases none : under history r = [] <;> simp [none]
  · rw [if_neg same,if_neg (Ne.symm same),List.append_nil]
    exact holds.listed r other

theorem recorded_rootless (ch : Chunk) (holds : Recorded history st.1) :
    Recorded (history ++ [([],ch.address)]) (cached cfg [] 1 [] ch st).1 := by
  obtain ⟨data,transfer,pin⟩ := cached_kept cfg [] 1 [] ch st
  refine recorded_cached cfg holds data pin (fun r other => ?_)
  rw [transfer,under_append,if_neg (Ne.symm other),List.append_nil]
  exact holds.listed r other

theorem recorded_put (p : Put) (holds : Recorded history st.1) :
    Recorded (history ++ storedBy p) (after cfg .wiredtiger (.put .request p.1 p.2) st).1 := by
  obtain ⟨root,chs⟩ := p
  unfold storedBy after
  change Recorded _ (through medium refused (Localstore.put cfg .request root chs) st).2.1
  by_cases nil : root = []
  · subst nil
    cases chs with
    | nil =>
      change Recorded (history ++ []) st.1
      rwa [List.append_nil]
    | cons ch chs =>
      have first := putChunk_listed cfg refused_accepting [] [] ch (recordDirty ((ch :: chs).map (·.address)) st)
      rw [putTransfer_nil] at first
      rw [put_run refused_accepting]
      simp only [putChunks,bind_eq,through_bind,first]
      exact recorded_rootless cfg ch (show Recorded history (recordDirty _ st).1 from holds)
  have step : ∀ (done : List Chunk) binIDs ch (st : Store × Local),
      Recorded (history ++ done.map (fun ch => (root,ch.address))) st.1 →
      Recorded (history ++ (done ++ [ch]).map (fun ch => (root,ch.address))) (requested cfg root binIDs ch st).1 := by
    intro done binIDs ch st holds
    have one := recorded_requested cfg nil binIDs ch holds
    simpa using one
  obtain ⟨_,c,binIDs,mid,ran,kept⟩ := put_request cfg refused_accepting nil
    step chs
    (by rw [List.map_nil,List.append_nil]; exact holds)
  have same := finished_same c binIDs mid
  rw [ran]
  simpa [nil] using kept.congr same.data same.transfer same.pin

theorem recorded_putAll {puts : List Put} (holds : Recorded history st.1) :
    Recorded (history ++ stored puts) (putAll cfg puts st).1 := by
  induction puts generalizing history st with
  | nil => simpa [stored,putAll] using holds
  | cons p puts ih =>
    have rest := ih (recorded_put cfg p holds)
    simpa [stored,putAll] using rest

end

theorem pieces_flatten (sized : ∀ a ∈ list, a.length = hashSize) :
    pieces list.flatten = list.reverse ∧ list.flatten.length % hashSize = 0 := by
  induction list using List.reverseRecOn with
  | nil => exact ⟨rfl,rfl⟩
  | append_singleton list a ih =>
    obtain ⟨read,aligned⟩ := ih (fun b member => sized b (List.mem_append_left _ member))
    have whole := sized a (by simp)
    rw [List.flatten_append,List.reverse_append,show [a].flatten = a by simp]
    refine ⟨?_,?_⟩
    · rw [pieces_append aligned whole,read]
      rfl
    · rw [List.length_append,whole,Nat.add_mod_right,aligned]

theorem count_under (history : List (Address × Address)) (root c : Address) :
    (under history root).count c < (history.map Prod.snd).count c ↔ ∃ r, r ≠ root ∧ (r,c) ∈ history := by
  have le : ∀ history : List (Address × Address), (under history root).count c ≤ (history.map Prod.snd).count c :=
    fun history => (List.filter_sublist.map Prod.snd).count_le c
  induction history with
  | nil => simp [under]
  | cons p history ih =>
    obtain ⟨r,a⟩ := p
    have tail := le history
    by_cases mine : r = root
    · subst mine
      have head : under ((r,a) :: history) r = a :: under history r := by simp [under]
      rw [head,List.map_cons,List.count_cons,List.count_cons]
      simp only [Nat.add_lt_add_iff_right,ih,List.mem_cons,Prod.mk.injEq]
      exact ⟨fun ⟨r',other,member⟩ => ⟨r',other,.inr member⟩,
        fun ⟨r',other,member⟩ => ⟨r',other,member.resolve_left fun same => other same.1⟩⟩
    have head : under ((r,a) :: history) root = under history root := by simp [under,mine]
    rw [head,List.map_cons,List.count_cons]
    by_cases same : a = c
    · subst same
      simp only [beq_self_eq_true,if_true,List.mem_cons]
      exact ⟨fun _ => ⟨r,mine,.inl rfl⟩,fun _ => by omega⟩
    · simp only [beq_iff_eq,same,if_false,Nat.add_zero,ih,List.mem_cons,Prod.mk.injEq]
      exact ⟨fun ⟨r',other,member⟩ => ⟨r',other,.inr member⟩,
        fun ⟨r',other,member⟩ => ⟨r',other,member.resolve_left fun both => same both.2.symm⟩⟩

theorem mem_under {c : Address} : c ∈ under history root ↔ (root,c) ∈ history := by
  simp [under]

theorem releasable_recorded {s : Store} (holds : Recorded history s) {root : Address} :
    Releasable s (under history root).reverse := by
  refine ⟨fun c member => ?_,fun c => ?_,holds.positive,holds.unpinned,holds.stamped⟩
  · rw [List.mem_reverse,mem_under] at member
    exact holds.sized _ member
  · rw [List.count_reverse,holds.counted]
    exact (List.filter_sublist.map Prod.snd).count_le c

section
variable (cfg : Config)

/-- Deleting a file that was put releases its chunks, and it fails if that does. -/
theorem deleteFile_recorded (named : root ≠ []) (holds : Recorded history st.1) (put : under history root ≠ []) :
    through medium refused (DeleteFile cfg root) st =
      match through medium refused (removeChunks (addressToItem root) (under history root).reverse) (undirected root st) with
      | (.ok c,st') => (.ok (),resize c (setTransfer root none st'))
      | (.error e,st') => (.error e,st') := by
  have sized : ∀ a ∈ under history root, a.length = hashSize := fun a member => holds.sized _ (mem_under.mp member)
  obtain ⟨read,aligned⟩ := pieces_flatten sized
  have listed : (undirected root st).1.transferDataIndex.lookup root = some (under history root).flatten := by
    change st.1.transferDataIndex.lookup root = _
    rw [holds.listed root named,if_neg put]
  have walked : (through medium refused (getAllChunks cfg (addressToItem root).address) (undirected root st)).1 =
      .ok (under history root).reverse := by
    rw [← read]
    exact getAllChunks_listed cfg listed aligned
  change through medium refused (setRemoveAll cfg (addressToItem root)) (undirected root st) = _
  rw [setRemoveAll_run cfg refused_accepting named,walked]
  rfl

/-- A file whose root chunk was put is deleted without an error, and no chunk
    that was put for it only is left, exactly if the root chunk was put for
    another file too, or else every chunk that was put before it. -/
theorem deletable_iff (l : Local) (puts : List Put) {root : Address} (included : (root,root) ∈ stored puts) :
    let st := putAll cfg puts ({},l)
    (Succeeds cfg .wiredtiger (.deleteFile root) st ∧
      ∀ c, (∀ p ∈ stored puts, p.2 = c → p.1 = root) →
        (after cfg .wiredtiger (.deleteFile root) st).1.retrievalDataIndex.lookup c = none) ↔
    ((∃ r, r ≠ root ∧ (r,root) ∈ stored puts) ∨
      ∀ c ∈ (under (stored puts) root).takeWhile (· ≠ root), ∃ r, r ≠ root ∧ (r,c) ∈ stored puts) := by
  intro st
  have holds : Recorded (stored puts) st.1 := by
    simpa using recorded_putAll cfg (show Recorded [] (({},l) : Store × Local).1 from
      ⟨fun _ => rfl,fun _ _ => rfl,nofun,nofun,fun _ => rfl,nofun⟩)
  have named : root ≠ [] := by
    rintro rfl
    cases holds.sized _ included
  have put : under (stored puts) root ≠ [] := List.ne_nil_of_mem (mem_under.mpr included)
  have deleted := deleteFile_recorded cfg named holds put
  have start : Releasable (undirected root st).1 (under (stored puts) root).reverse := releasable_recorded holds
  have orderly : Orderly (references (undirected root st).1) root (under (stored puts) root).reverse ↔
      ((∃ r, r ≠ root ∧ (r,root) ∈ stored puts) ∨
        ∀ c ∈ (under (stored puts) root).takeWhile (· ≠ root), ∃ r, r ≠ root ∧ (r,c) ∈ stored puts) := by
    simp only [Orderly,early,List.reverse_reverse,List.count_reverse,← count_under]
    change (_ < references st.1 root ∨ ∀ c ∈ _, _ < references st.1 c) ↔ _
    simp only [holds.counted]
  rw [← orderly,← removeChunks_succeeds refused_accepting named start]
  have op : ∀ r t, through medium refused (DeleteFile cfg root) st = (r,t) →
      run .wiredtiger ((Call.deleteFile root).op cfg) st = (r.map (fun _ => []),t) := by
    intro r t ran
    simp only [run,Call.op,bind_eq,through_bind,ran]
    cases r <;> rfl
  constructor
  · rintro ⟨⟨r,ok⟩,_⟩
    rcases removed : through medium refused (removeChunks (addressToItem root) (under (stored puts) root).reverse)
      (undirected root st) with ⟨(e | c),mid⟩
    · rw [removed] at deleted
      rw [op _ _ deleted] at ok
      cases ok
    · exact ⟨c,mid,rfl⟩
  rintro ⟨c,mid,removed⟩
  rw [removed] at deleted
  refine ⟨⟨[],by rw [op _ _ deleted]; rfl⟩,fun a only => ?_⟩
  obtain ⟨done,left⟩ := releasable_run refused_accepting start removed
  have gone : references mid.1 a = 0 := by
    have sum := left a
    change references mid.1 a + _ = references st.1 a at sum
    have all : ¬ ∃ r, r ≠ root ∧ (r,a) ∈ stored puts := fun ⟨r,other,member⟩ => other (only _ member rfl)
    rw [← count_under] at all
    rw [List.count_reverse,holds.counted] at sum
    omega
  unfold after
  rw [op _ _ deleted]
  rw [(resize_same).data]
  change mid.1.retrievalDataIndex.lookup a = none
  cases held : mid.1.retrievalDataIndex.lookup a with
  | none => rfl
  | some v =>
    rw [references,held] at gone
    exact absurd gone (done.positive a v held).ne'

end

theorem deletable_root_first :
    let puts : List Put := [((sample 1).address,[sample 1,sample 2])]
    Succeeds steady .wiredtiger (.deleteFile (sample 1).address) (putAll steady puts ({},{})) ∧
      (after steady .wiredtiger (.deleteFile (sample 1).address)
        (putAll steady puts ({},{}))).1.retrievalDataIndex.lookup (sample 2).address = none := by
  intro puts
  have included : ((sample 1).address,(sample 1).address) ∈ stored puts := by decide +kernel
  have first : (under (stored puts) (sample 1).address).takeWhile (· ≠ (sample 1).address) = [] := by decide +kernel
  obtain ⟨ok,gone⟩ := (deletable_iff steady {} puts included).mpr (.inr (by rw [first]; nofun))
  exact ⟨ok,gone _ (by decide +kernel)⟩

/-- With the root chunk put last it goes first, and the deletion fails. -/
theorem root_last_undeletable :
    let puts : List Put := [((sample 1).address,[sample 2,sample 1])]
    ((sample 1).address,(sample 1).address) ∈ stored puts ∧
      ¬ Succeeds steady .wiredtiger (.deleteFile (sample 1).address) (putAll steady puts ({},{})) := by
  refine ⟨by decide +kernel,?_⟩
  rintro ⟨r,ok⟩
  have failed : (run .wiredtiger ((Call.deleteFile (sample 1).address).op steady)
      (putAll steady [((sample 1).address,[sample 2,sample 1])] ({},{}))).1 = .error .notFound := by decide +kernel
  rw [failed] at ok
  cases ok
end FavorX.Deletion

import FavorX.Shapes

/-!
The joiner on the tries of the pipeline. The sections that it guesses are right
(`subtrieSection_eq`), so that every goroutine of a read knows which part of the file
its chunk stands for (`Covers`, `runTask_read`).
-/
namespace FavorX.Reading
open Shed hiding Err
open Localstore hiding gather
open Groups Pipeline Tries Joiners Shapes

variable {i h refs size pos skip n k offset : Nat}

theorem levelBytes_le (le : i ≤ h) : levelBytes i ≤ levelBytes h :=
  Nat.mul_le_mul_left _ (Nat.pow_le_pow_right (by decide) le)

theorem int64_nat (small : n < 2 ^ 63) : int64 n = n := int64_eq (by omega) (by omega)

theorem int64_val {x : Int} (is : x = n) (small : n < 2 ^ 63) : int64 x = n := by
  rw [is,int64_nat small]

theorem whatsLeft_eq (more : refs * levelBytes h < size) (small : size < 2 ^ 63) (below : i ≤ h) :
    int64 (size - int64 ((levelBytes i : Int) * (((refs + 1 : Nat) : Int) - 1))) = (size - refs * levelBytes i : Nat) := by
  have product : refs * levelBytes i ≤ refs * levelBytes h := Nat.mul_le_mul_left _ (levelBytes_le below)
  have value : (levelBytes i : Int) * (((refs + 1 : Nat) : Int) - 1) = (refs * levelBytes i : Nat) := by
    push_cast
    ring
  rw [int64_val value (by omega)]
  exact int64_val (by omega) (by omega)

theorem branchSizeFrom_eq {refs h i turns size : Nat} (few : refs + 1 ≤ branches) (some : 0 < refs)
    (more : refs * levelBytes h < size) (less : size ≤ (refs + 1) * levelBytes h) (small : size < 2 ^ 63)
    (below : i ≤ h) (enough : h ≤ i + turns) :
    branchSizeFrom ((refs + 1 : Nat) : Int) branches size turns (levelBytes i) = Option.some (levelBytes h : Int) := by
  have left := whatsLeft_eq more small below
  rcases Nat.lt_or_eq_of_le below with lower | rfl
  · obtain ⟨turns,rfl⟩ : ∃ more, turns = more + 1 := ⟨turns - 1,by omega⟩
    have whole : levelBytes h ≤ refs * levelBytes h := Nat.le_mul_of_pos_left _ some
    have next : levelBytes (i + 1) ≤ levelBytes h := levelBytes_le lower
    have room : (refs + 1) * levelBytes i ≤ levelBytes (i + 1) := by
      rw [levelBytes_succ]
      exact Nat.mul_le_mul_right _ few
    rw [Nat.add_mul,Nat.one_mul] at room
    have up : int64 ((levelBytes i : Int) * branches) = (levelBytes (i + 1) : Nat) := by
      refine int64_val ?_ (by omega)
      rw [levelBytes_succ]
      push_cast
      ring
    rw [branchSizeFrom]
    simp only [left]
    have above : ¬ ((size - refs * levelBytes i : Nat) : Int) ≤ levelBytes i := by
      have less : levelBytes i + refs * levelBytes i < size := by
        calc levelBytes i + refs * levelBytes i = refs * levelBytes i + levelBytes i := Nat.add_comm _ _
          _ ≤ levelBytes (i + 1) := room
          _ ≤ levelBytes h := next
          _ ≤ refs * levelBytes h := whole
          _ < size := more
      exact Int.not_le.mpr (Int.ofNat_lt.mpr (Nat.lt_sub_of_add_lt less))
    rw [if_neg above,up]
    exact branchSizeFrom_eq few some more less small lower (by omega)
  rw [branchSizeFrom.eq_def]
  simp only [left]
  rw [Nat.add_mul,Nat.one_mul] at less
  rw [if_pos (by omega)]
termination_by h - i

theorem length_refs (ts : List Trie) : (ts.flatMap (·.ref.1)).length = ts.length * hashSize := by
  induction ts with
  | nil => rfl
  | cons u ts ih => rw [List.flatMap_cons,List.length_append,ih,u.ref.2,List.length_cons,Nat.add_mul,Nat.add_comm,Nat.one_mul]

variable {index lastIndex room : Int} {trie root : Trie}

section
variable {hash : Bytes → Reference} {h : Nat}

theorem subtrieSection_eq {us vs : List Trie} {u : Trie} (many : 2 ≤ (us ++ u :: vs).length)
    (few : (us ++ u :: vs).length ≤ branches) (laid : Laid (Whole hash h) (Last hash h) (us ++ u :: vs))
    (small : (node hash (us ++ u :: vs)).data.length < 2 ^ 63) (low : h ≤ 64) :
    subtrieSection ((us ++ u :: vs).flatMap (·.ref.1)) (us.length * hashSize) hashSize
      (node hash (us ++ u :: vs)).data.length = some (u.data.length : Int) := by
  obtain ⟨init,last,same,wholes,ends⟩ := laid
  have bound := ends.1.length_le
  have some := ends.2
  rw [same] at many few small ⊢
  have length : (node hash (init ++ [last])).data.length = init.length * levelBytes h + last.data.length :=
    length_laid wholes
  have refs : ((init ++ [last]).flatMap (·.ref.1)).length / hashSize = init.length + 1 := by
    rw [length_refs,Nat.mul_div_cancel _ (by decide),List.length_append,List.length_singleton]
  have branching : chunkSize / hashSize = branches := by decide
  rw [length] at small ⊢
  have found : branchSizeFrom ((init.length + 1 : Nat) : Int) branches
      ((init.length * levelBytes h + last.data.length : Nat) : Int) 64 (levelBytes 0) = Option.some (levelBytes h : Int) :=
    branchSizeFrom_eq (by simpa using few) (by simp at many; omega) (by omega) (by rw [Nat.add_mul]; omega) small
      (Nat.zero_le h) low
  have base : (levelBytes 0 : Int) = (chunkSize : Int) := by decide
  rw [base] at found
  simp only [subtrieSection,refs,branching,found,bind,Option.bind]
  have position : ((us.length * hashSize : Nat) : Int) = (((init.length + 1 : Nat) : Int) - 1) * (hashSize : Nat) ↔
      us.length = init.length := by
    rw [show (hashSize : Nat) = 32 from rfl]
    omega
  obtain rfl | ⟨front,tail,rfl⟩ := List.eq_nil_or_concat vs
  · obtain ⟨rfl,ended⟩ := List.append_inj' same rfl
    obtain rfl := List.singleton_inj.mp ended
    have product : int64 ((((us.length + 1 : Nat) : Int) - 1) * (levelBytes h : Nat)) = (us.length * levelBytes h : Nat) := by
      refine int64_val ?_ (by omega)
      push_cast
      ring
    rw [if_pos (position.mpr rfl)]
    exact congrArg Option.some (int64_val (by omega) (by omega))
  rw [List.concat_eq_append,← List.cons_append,← List.append_assoc] at same
  obtain ⟨rfl,-⟩ := List.append_inj' same rfl
  rw [if_neg (by rw [position]; simp),(wholes u (by simp)).2]
  rfl

variable {E : Type} (hash) (get : Getter E) (P : Nat → Int → Int → Prop) (file : Bytes) (first readLen : Nat)

/-- The task is to read `k` bytes of a trie, `skip` bytes after its start at `pos` in the
    file, to their place in the buffer. `P` is what its indexes are known to fulfil. -/
structure Covers (h : Nat) (trie : Trie) (pos skip k : Nat) (t : Task) : Prop where
  part : Part hash h trie
  kept : ∀ c ∈ trie.chunks, ∀ i, get c.address i = .ok c.data
  inside : pos + trie.data.length ≤ file.length
  content : (file.drop pos).take trie.data.length = trie.data
  within : skip + k ≤ trie.data.length
  after : first ≤ pos + skip
  before : pos + skip + k ≤ first + readLen
  address : t.address = trie.ref.1
  cur : t.cur = pos
  off : t.off = (pos + skip : Nat)
  bufferOffset : t.bufferOffset = (pos + skip - first : Nat)
  bytesToRead : t.bytesToRead = k
  limit : t.subtrieSpanLimit = trie.data.length
  index : P h t.index t.lastIndex

/-- A task that a read of the file starts for a trie of this level. -/
def Reads (h : Nat) (t : Task) : Prop := ∃ trie pos skip k, Covers hash get P file first readLen h trie pos skip k t

/-- The tasks read these bytes of the file, each of them once. -/
structure Together (h off k : Nat) (tasks : List Task) : Prop where
  reads : ∀ t ∈ tasks, Reads hash get P file first readLen h t
  sum : (tasks.map (·.bytesToRead)).sum = k
  cover : ∀ q : Nat, off ≤ q → q < off + k → ∃ t ∈ tasks, t.off ≤ q ∧ q < t.off + t.bytesToRead

variable {hash get P file first readLen}

theorem take_refs (us vs : List Trie) (u : Trie) :
    (((us ++ u :: vs).flatMap (·.ref.1)).drop (us.length * hashSize)).take hashSize = u.ref.1 := by
  rw [List.flatMap_append,List.drop_left' (length_refs us),List.flatMap_cons,List.take_left' u.ref.2]

theorem content_append {a b : Bytes} (content : (file.drop pos).take (a ++ b).length = a ++ b) :
    (file.drop pos).take a.length = a ∧ (file.drop (pos + a.length)).take b.length = b := by
  constructor
  · have front := congrArg (List.take a.length) content
    rwa [List.take_take,List.length_append,Nat.min_eq_left (by omega),List.take_left] at front
  · have back := congrArg (List.drop a.length) content
    rwa [List.drop_take,List.drop_drop,List.length_append,Nat.add_sub_cancel_left,List.drop_left] at back

theorem currentReadSize_eq (k : Nat) (within : skip ≤ n) (small : n < 2 ^ 63) :
    min (min (int64 ((n : Int) - int64 (((pos + skip : Nat) : Int) - pos))) k) n = (min (n - skip) k : Nat) := by
  have back : int64 (((pos + skip : Nat) : Int) - pos) = skip := int64_val (by omega) (by omega)
  have left : int64 ((n : Int) - skip) = (n - skip : Nat) := int64_val (by omega) (by omega)
  rw [back]
  omega

/-- The indexes that the loop over the references gives to the references from `i` on. -/
def numbers (index lastIndex : Int) (i n : Nat) : List Int :=
  (List.range' i n).map fun i : Nat => int64 (lastIndex + 1 + int64 (index * branches) + i)

/-- The loop over the references from `vs` on starts tasks that read what is left to
    read; if that is all, it starts one for every reference. -/
theorem readSections_covers {ts us vs : List Trie} {index lastIndex boff : Int} {pos off k : Nat} (same : ts = us ++ vs)
    (many : 2 ≤ ts.length) (few : ts.length ≤ branches) (laid : Laid (Whole hash h) (Last hash h) ts)
    (small : file.length < 2 ^ 63) (fits : (node hash ts).data.length ≤ file.length) (low : h ≤ 64)
    (parts : ∀ u ∈ vs, Part hash h u) (kept : ∀ u ∈ vs, ∀ c ∈ u.chunks, ∀ i, get c.address i = .ok c.data)
    (indexes : ∀ i < ts.length, P h (int64 (lastIndex + 1 + int64 (index * branches) + i)) ts.length)
    (inside : pos + (vs.flatMap (·.data)).length ≤ file.length)
    (content : (file.drop pos).take (vs.flatMap (·.data)).length = vs.flatMap (·.data))
    (ready : k = 0 ∨ pos ≤ off ∧ off + k ≤ pos + (vs.flatMap (·.data)).length ∧ first ≤ off ∧
      off + k ≤ first + readLen ∧ boff = (off - first : Nat)) :
    ∃ tasks, readSections hashSize (ts.flatMap (·.ref.1)) index lastIndex (node hash ts).data.length
        ((List.range' us.length vs.length).map (· * hashSize)) pos off boff k = .ok tasks ∧
      Together hash get P file first readLen h off k tasks ∧
      (off = pos → k = (vs.flatMap (·.data)).length → (∀ u ∈ vs, 0 < u.data.length) →
        tasks.map (·.index) = numbers index lastIndex us.length vs.length) := by
  induction vs generalizing us pos off k boff with
  | nil =>
    have none : k = 0 := by
      rcases ready with zero | ⟨after,most,-⟩
      · exact zero
      · simp at most
        omega
    subst none
    exact ⟨[],rfl,⟨by simp,by simp,fun q low high => by omega⟩,fun _ _ _ => rfl⟩
  | cons u vs ih =>
    rw [List.length_cons,List.range'_succ,List.map_cons,readSections]
    by_cases zero : k = 0
    · subst zero
      refine ⟨[],by simp; rfl,⟨by simp,by simp,fun q low high => by omega⟩,fun _ all some => ?_⟩
      have := some u List.mem_cons_self
      rw [List.flatMap_cons,List.length_append] at all
      omega
    obtain ⟨after,most,late,room,rfl⟩ := ready.resolve_left zero
    have sec := subtrieSection_eq (by rw [← same]; exact many) (by rw [← same]; exact few)
      (show Laid (Whole hash h) (Last hash h) (us ++ u :: vs) from same ▸ laid) (by rw [← same]; omega) low
    have address := take_refs us vs u
    rw [← same] at sec address
    have count : us.length < ts.length := by rw [same]; simp
    have enough : ¬ (ts.flatMap (·.ref.1)).length < us.length * hashSize + hashSize := by
      have := Nat.mul_le_mul_right hashSize (Nat.succ_le_of_lt count)
      rw [length_refs]
      rw [Nat.succ_mul] at this
      omega
    have quotient : us.length * hashSize / hashSize = us.length := Nat.mul_div_cancel _ (by decide)
    have refs : (ts.flatMap (·.ref.1)).length / hashSize = ts.length := by
      rw [length_refs]
      exact Nat.mul_div_cancel _ (by decide)
    rw [List.flatMap_cons] at inside content most
    obtain ⟨here,later⟩ := content_append content
    rw [List.length_append] at inside most
    have step : int64 ((pos : Int) + (u.data.length : Int)) = (pos + u.data.length : Nat) :=
      int64_val (by omega) (by omega)
    have same' : ts = (us ++ [u]) ++ vs := by rw [same,List.append_assoc]; rfl
    have parts' : ∀ v ∈ vs, Part hash h v := fun v mem => parts v (List.mem_cons_of_mem u mem)
    have kept' : ∀ v ∈ vs, ∀ c ∈ v.chunks, ∀ i, get c.address i = .ok c.data :=
      fun v mem => kept v (List.mem_cons_of_mem u mem)
    have inside' : pos + u.data.length + (vs.flatMap (·.data)).length ≤ file.length := by
      rw [Nat.add_assoc]
      exact inside
    have length' : (us ++ [u]).length = us.length + 1 := by simp
    simp only [sec,step,enough,if_false,address,quotient,refs]
    clear step
    rw [if_neg (by omega)]
    by_cases skipped : pos + u.data.length < off
    · rw [if_pos (by exact_mod_cast skipped)]
      rw [← length']
      obtain ⟨tasks,run,together,-⟩ := ih same' parts' kept' inside' later
        (.inr ⟨skipped.le,by rw [Nat.add_assoc]; exact most,late,room,rfl⟩)
      exact ⟨tasks,run,together,fun here => absurd skipped (by omega)⟩
    rw [if_neg (by exact_mod_cast skipped)]
    -- the section is entered `skip` bytes after its start
    obtain ⟨skip,rfl⟩ := Nat.exists_eq_add_of_le after
    have within : skip ≤ u.data.length := by
      by_contra no
      exact skipped (by omega)
    rw [currentReadSize_eq k within (by omega)]
    generalize size : min (u.data.length - skip) k = c
    have left : k - c < 2 ^ 63 ∧ pos + skip - first + c < 2 ^ 63 ∧ c ≤ k := by omega
    have ready : k - c = 0 ∨ pos + u.data.length ≤ pos + u.data.length ∧
        pos + u.data.length + (k - c) ≤ pos + u.data.length + (vs.flatMap (·.data)).length ∧
        first ≤ pos + u.data.length ∧ pos + u.data.length + (k - c) ≤ first + readLen ∧
        ((pos + skip - first + c : Nat) : Int) = (pos + u.data.length - first : Nat) := by
      by_cases done : k - c = 0
      · exact .inl done
      · exact .inr ⟨le_rfl,by omega,by omega,by omega,congrArg Nat.cast (by omega)⟩
    obtain ⟨tasks,run,together,numbered⟩ := ih same' parts' kept' inside' later ready
    rw [length'] at run numbered
    have cover : ∀ q, pos + skip + c ≤ q → q < pos + skip + k → pos + u.data.length ≤ q ∧
        q < pos + u.data.length + (k - c) := fun q => by omega
    have rest : pos + skip = pos → k = (u.data ++ vs.flatMap (·.data)).length →
        k - c = (vs.flatMap (·.data)).length := by
      rw [List.length_append]
      omega
    have bytes : int64 ((k : Int) - (c : Nat)) = (k - c : Nat) := int64_val (by omega) left.1
    have place : int64 (((pos + skip - first : Nat) : Int) + (c : Nat)) = (pos + skip - first + c : Nat) :=
      int64_val (by omega) left.2.1
    rw [bytes,place,run]
    clear bytes place
    refine ⟨_,rfl,⟨?_,?_,?_⟩,fun here all some => ?_⟩
    · intro t mem
      rcases List.mem_cons.mp mem with rfl | mem
      · refine ⟨u,pos,skip,c,parts u List.mem_cons_self,kept u List.mem_cons_self,by omega,here,by omega,late,
          by omega,rfl,rfl,rfl,rfl,rfl,rfl,indexes us.length count⟩
      · exact together.reads t mem
    · rw [List.map_cons,List.sum_cons,together.sum]
      show (c : Int) + (k - c : Nat) = k
      omega
    · intro q low high
      by_cases first : q < pos + skip + c
      · exact ⟨_,List.mem_cons_self,by dsimp only; omega,by dsimp only; omega⟩
      · obtain ⟨t,mem,covered⟩ := together.cover q (cover q (by omega) high).1 (cover q (by omega) high).2
        exact ⟨t,List.mem_cons_of_mem _ mem,covered⟩
    · rw [List.map_cons,numbered rfl (rest here all) fun v mem => some v (List.mem_cons_of_mem u mem)]
      rfl

/-- What reading from the chunk of a trie does: it copies the bytes to their place, or
    starts tasks for lower tries that do. -/
def Read (hash : Bytes → Reference) (get : Getter E) (P : Nat → Int → Int → Prop) (file : Bytes)
    (first readLen h off k : Nat) (outcome : Except Halt (Outcome E)) : Prop :=
  outcome = .ok (.copied (off - first : Nat) ((file.drop off).take k)) ∨
    ∃ tasks, ∃ lower < h, outcome = .ok (.spawned tasks) ∧ Together hash get P file first readLen lower off k tasks

theorem readAtOffset_leaf {d : Bytes} (small : file.length < 2 ^ 63) (inside : pos + d.length ≤ file.length)
    (content : (file.drop pos).take d.length = d) (within : skip + k ≤ d.length)
    (place : ((pos + skip - first : Nat) : Int) + k ≤ room) :
    readAtOffset hashSize room d index lastIndex pos d.length (pos + skip : Nat) (pos + skip - first : Nat) k =
      (.ok (.copied (pos + skip - first : Nat) ((file.drop (pos + skip)).take k)) : Except Halt (Outcome E)) := by
  have copied : (d.drop skip).take k = (file.drop (pos + skip)).take k := by
    conv_lhs => rw [← content]
    rw [List.drop_take,List.drop_drop,List.take_take,Nat.min_eq_left (by omega)]
  have bytes : ((skip + k : Nat) - (skip : Int)).toNat = k := by omega
  have all : ¬ ((d.length - skip : Nat) : Int) < k := by omega
  have bounds : (0 : Int) ≤ (skip : Nat) ∧ ((skip : Nat) : Int) ≤ (skip + k : Nat) ∧ ((skip + k : Nat) : Int) ≤ d.length ∧
      (0 : Int) ≤ (pos + skip - first : Nat) ∧
      ((pos + skip - first : Nat) : Int) + (((skip + k : Nat) : Int) - (skip : Nat)) ≤ room := by omega
  have start : int64 (((pos + skip : Nat) : Int) - pos) = skip := int64_val (by omega) (by omega)
  have left : int64 ((d.length : Int) - skip) = (d.length - skip : Nat) := int64_val (by omega) (by omega)
  have stop : int64 ((skip : Int) + k) = (skip + k : Nat) := int64_val (by omega) (by omega)
  rw [readAtOffset,if_pos le_rfl]
  simp only [start,left,stop]
  rw [if_neg all,if_pos bounds,bytes,Int.toNat_natCast,copied]
  rfl

theorem cursors_refs (ts : List Trie) :
    cursors hashSize (ts.flatMap (·.ref.1)) = (List.range' 0 ts.length).map (· * hashSize) := by
  have count : (ts.length * hashSize + (hashSize - 1)) / hashSize = ts.length := by
    rw [show hashSize = 32 from rfl]
    omega
  rw [cursors,length_refs,count,List.range_eq_range']

/-- What the indexes of a task are known to fulfil passes on to the tasks below. -/
structure Closed (P : Nat → Int → Int → Prop) : Prop where
  keep : ∀ h index lastIndex, P (h + 1) index lastIndex → P h index lastIndex
  down : ∀ h index lastIndex refs i, P (h + 1) index lastIndex → 2 ≤ refs → refs ≤ branches → i < refs →
    P h (int64 (lastIndex + 1 + int64 (index * branches) + (i : Nat))) (refs : Nat)

/-- Reading a part of the chunk of a group of tries: every task is for one of them, and
    reading all of it starts a task for each. -/
theorem readAtOffset_node {ts : List Trie} (closed : Closed P) (small : file.length < 2 ^ 63) (low : h + 1 ≤ 64)
    (many : 2 ≤ ts.length) (few : ts.length ≤ branches) (laid : Laid (Whole hash h) (Last hash h) ts)
    (kept : ∀ c ∈ (node hash ts).chunks, ∀ i, get c.address i = .ok c.data)
    (inside : pos + (node hash ts).data.length ≤ file.length)
    (content : (file.drop pos).take (node hash ts).data.length = (node hash ts).data)
    (within : skip + k ≤ (node hash ts).data.length) (after : first ≤ pos + skip)
    (before : pos + skip + k ≤ first + readLen) (indexes : P (h + 1) index lastIndex) :
    ∃ tasks, readAtOffset hashSize room (ts.flatMap (·.ref.1)) index lastIndex pos (node hash ts).data.length
        (pos + skip : Nat) (pos + skip - first : Nat) k = (.ok (.spawned tasks) : Except Halt (Outcome E)) ∧
      Together hash get P file first readLen h (pos + skip) k tasks ∧
      (skip = 0 → k = (node hash ts).data.length → tasks.map (·.index) = numbers index lastIndex 0 ts.length) := by
  have parts : ∀ u ∈ ts, Part hash h u ∧ 0 < u.data.length := by
    obtain ⟨init,last,rfl,wholes,ends⟩ := laid
    intro u mem
    rcases List.mem_append.mp mem with mem | mem
    · have whole := wholes u mem
      exact ⟨whole.1,by rw [whole.2]; exact levelBytes_pos h⟩
    · rw [List.mem_singleton.mp mem]
      exact ends
  have below : ∀ u ∈ ts, ∀ c ∈ u.chunks, ∀ i, get c.address i = .ok c.data := fun u mem c held =>
    kept c (List.mem_append_left _ (List.mem_flatMap.mpr ⟨u,mem,held⟩))
  have long : ¬ ((node hash ts).data.length : Int) ≤ (ts.flatMap (·.ref.1)).length := by
    obtain ⟨init,last,rfl,wholes,ends⟩ := laid
    have least : 262144 ≤ levelBytes h := levelBytes_le (Nat.zero_le h)
    have := Nat.mul_le_mul_left init.length least
    rw [List.length_append,List.length_singleton] at many
    rw [length_laid wholes,length_refs,List.length_append,List.length_singleton,show hashSize = 32 from rfl]
    omega
  obtain ⟨tasks,run,together,numbered⟩ := readSections_covers (show ts = [] ++ ts from rfl) many few laid small (by omega)
    (by omega) (fun u mem => (parts u mem).1) below
    (fun i => closed.down h index lastIndex ts.length i indexes many few) inside content
    (.inr ⟨Nat.le_add_right pos skip,by rw [Nat.add_assoc]; exact Nat.add_le_add_left within pos,after,before,rfl⟩)
  rw [List.length_nil] at run
  refine ⟨tasks,?_,together,fun none all => numbered (by omega) all fun u mem => (parts u mem).2⟩
  rw [readAtOffset,if_neg long,cursors_refs,run]
  rfl

theorem readAtOffset_read (closed : Closed P) (small : file.length < 2 ^ 63) (low : h ≤ 64) (part : Part hash h trie)
    (kept : ∀ c ∈ trie.chunks, ∀ i, get c.address i = .ok c.data) (inside : pos + trie.data.length ≤ file.length)
    (content : (file.drop pos).take trie.data.length = trie.data) (within : skip + k ≤ trie.data.length)
    (after : first ≤ pos + skip) (before : pos + skip + k ≤ first + readLen) (roomy : (readLen : Int) ≤ room)
    (indexes : P h index lastIndex) :
    ∃ n payload, (∀ i, get trie.ref.1 i = .ok (putUint64 n ++ payload)) ∧ n % 2 ^ 64 = trie.data.length ∧
      Read hash get P file first readLen h (pos + skip) k
        (readAtOffset hashSize room payload index lastIndex pos trie.data.length (pos + skip : Nat)
          (pos + skip - first : Nat) k) := by
  induction h with
  | zero =>
    obtain ⟨d,rfl,-⟩ := part
    have place : ((pos + skip - first : Nat) : Int) + k ≤ room := by omega
    have own := kept (chunk hash (putUint64 d.length ++ d)) (by simp [leaf])
    refine ⟨d.length,d,own,Nat.mod_eq_of_lt (by simp only [leaf] at inside; omega),.inl ?_⟩
    exact readAtOffset_leaf small inside content within place
  | succ h ih =>
    rcases part with part | ⟨ts,rfl,many,few,laid⟩
    · obtain ⟨n,payload,own,length,read⟩ := ih (by omega) part (closed.keep h _ _ indexes)
      refine ⟨n,payload,own,length,read.imp_right ?_⟩
      rintro ⟨tasks,lower,less,rest⟩
      exact ⟨tasks,lower,by omega,rest⟩
    have own := kept (chunk hash (nodeData ts)) (by simp [node])
    have span : spanSum ts = (node hash ts).data.length := by
      have := Part.span (h := h + 1) (.inr ⟨ts,rfl,many,few,laid⟩)
      rwa [Nat.mod_eq_of_lt (by omega)] at this
    obtain ⟨tasks,run,together,-⟩ := readAtOffset_node closed small low many few laid kept inside content within after
      before indexes
    refine ⟨spanSum ts,_,own,?_,.inr ⟨tasks,h,by omega,run,together⟩⟩
    rw [span]
    exact Nat.mod_eq_of_lt (by omega)

variable {j : Joiner} {room : Int}

theorem runTask_read {t : Task} (closed : Closed P) (small : file.length < 2 ^ 63) (roomy : (readLen : Int) ≤ room)
    (ref : j.refLength = hashSize) (low : h ≤ 64) (reads : Reads hash get P file first readLen h t) :
    ∃ off k : Nat, t.off = off ∧ t.bytesToRead = k ∧ first ≤ off ∧ off + k ≤ first + readLen ∧ off + k ≤ file.length ∧
      Read hash get P file first readLen h off k (runTask get j room t) := by
  obtain ⟨trie,pos,skip,k,c⟩ := reads
  have inside := c.inside
  have within := c.within
  refine ⟨pos + skip,k,c.off,c.bytesToRead,c.after,c.before,by omega,?_⟩
  obtain ⟨n,payload,own,length,read⟩ := readAtOffset_read closed small low c.part c.kept c.inside c.content c.within
    c.after c.before roomy c.index
  have span : toSpan (putUint64 n ++ payload) = trie.data.length := by
    rw [toSpan_putUint64 (by omega),length]
  rw [runTask,c.address,own]
  simp only [span,c.limit,lt_irrefl,if_false,drop_putUint64,ref,c.cur,c.off,c.bufferOffset,c.bytesToRead]
  exact read

theorem reads_safe {t : Task} (closed : Closed P) (small : file.length < 2 ^ 63) (roomy : (readLen : Int) ≤ room)
    (ref : j.refLength = hashSize) (low : h ≤ 64) (reads : Reads hash get P file first readLen h t) :
    Pools.Safe (expand get j room) t := by
  induction h using Nat.strong_induction_on generalizing t with
  | _ h ih =>
    obtain ⟨off,k,-,-,-,-,-,copied | ⟨tasks,lower,less,spawned,together⟩⟩ := runTask_read closed small roomy ref low reads
    · exact .intro (show expand get j room t = some [] by rw [expand,copied]) (by simp)
    · exact .intro (show expand get j room t = some tasks by rw [expand,spawned])
        fun c mem => ih lower less (by omega) (together.reads c mem)

theorem length_copy {buffer bs : Bytes} (fits : offset + bs.length ≤ buffer.length) :
    (copy buffer offset bs).length = buffer.length := by
  simp only [copy,List.length_append,List.length_take,List.length_drop]
  omega

theorem getElem?_copy {buffer bs : Bytes} (fits : offset + bs.length ≤ buffer.length) (i : Nat) :
    (copy buffer offset bs)[i]? = if offset ≤ i ∧ i < offset + bs.length then bs[i - offset]? else buffer[i]? := by
  have taken : (buffer.take offset).length = offset := by
    rw [List.length_take]
    omega
  rw [copy,List.append_assoc]
  by_cases before : i < offset
  · rw [List.getElem?_append_left (by omega),List.getElem?_take_of_lt before,if_neg (by omega)]
  rw [List.getElem?_append_right (by omega),taken]
  by_cases inside : i < offset + bs.length
  · rw [List.getElem?_append_left (by omega),if_pos ⟨by omega,inside⟩]
  · rw [List.getElem?_append_right (by omega),List.getElem?_drop,if_neg (by omega)]
    congr 1
    omega

variable (hash get P file first readLen) in
/-- A read that is under way: every byte is in its place in the buffer or some task is to
    read it. -/
structure Correct (p : Multiset Task) (s : Shared E) : Prop where
  reads : ∀ t ∈ p, ∃ h ≤ height, Reads hash get P file first readLen h t
  err : s.err = none
  room : readLen ≤ s.buffer.length
  pos : 0 ≤ s.bytesRead
  count : s.bytesRead + (p.map (·.bytesToRead)).sum = readLen
  bytes : ∀ i < readLen, s.buffer[i]? = file[first + i]? ∨
    ∃ t ∈ p, t.off ≤ (first + i : Nat) ∧ ((first + i : Nat) : Int) < t.off + t.bytesToRead

/-- The tasks that an outcome starts. -/
def started : Outcome E → List Task
  | .spawned tasks => tasks
  | _ => []

theorem sum_nonneg {p : Multiset Task} (reads : ∀ t ∈ p, ∃ h ≤ height, Reads hash get P file first readLen h t) :
    0 ≤ (p.map (·.bytesToRead)).sum := by
  refine Multiset.sum_nonneg fun n mem => ?_
  obtain ⟨u,held,rfl⟩ := Multiset.mem_map.mp mem
  obtain ⟨_,_,_,_,_,m,c⟩ := reads u held
  rw [c.bytesToRead]
  exact Int.natCast_nonneg m

/-- A task is replaced by what it copies or by the tasks that it starts. -/
theorem correct_outcome {t : Task} {rest : Multiset Task} {s : Shared E} {outcome : Outcome E} {off k : Nat}
    (small : file.length < 2 ^ 63) (limit : first + readLen ≤ file.length) (low : h ≤ height) (offset : t.off = off)
    (bytes : t.bytesToRead = k) (after : first ≤ off) (before : off + k ≤ first + readLen)
    (read : Read hash get P file first readLen h off k (.ok outcome))
    (correct : Correct hash get P file first readLen (t ::ₘ rest) s) :
    Correct hash get P file first readLen (rest + (started outcome : Multiset Task)) (s.record outcome) := by
  have others : ∀ u ∈ rest, ∃ h ≤ height, Reads hash get P file first readLen h u :=
    fun u mem => correct.reads u (Multiset.mem_cons_of_mem mem)
  have count := correct.count
  rw [Multiset.map_cons,Multiset.sum_cons] at count
  rcases read with copied | ⟨tasks,lower,less,spawned,together⟩
  · cases copied
    have length : ((file.drop off).take k).length = k := by
      rw [List.length_take,List.length_drop]
      omega
    have fits : off - first + ((file.drop off).take k).length ≤ s.buffer.length := by
      have := correct.room
      omega
    have others_pos := sum_nonneg others
    have pos := correct.pos
    have total : int64 (s.bytesRead + k) = s.bytesRead + k := int64_eq (by omega) (by omega)
    simp only [Shared.record,started,Multiset.coe_nil,Multiset.add_zero,Int.toNat_natCast,length,total]
    refine ⟨others,correct.err,?_,by dsimp only; omega,by dsimp only; omega,fun i less => ?_⟩
    · rw [length_copy fits]
      exact correct.room
    simp only [getElem?_copy fits,length]
    by_cases here : off - first ≤ i ∧ i < off - first + k
    · rw [if_pos here,List.getElem?_take_of_lt (by omega),List.getElem?_drop]
      refine .inl (congrArg (file[·]?) ?_)
      omega
    rw [if_neg here]
    rcases correct.bytes i less with done | ⟨u,mem,low,high⟩
    · exact .inl done
    rcases Multiset.mem_cons.mp mem with rfl | mem
    · rw [offset] at low
      exact absurd ⟨by omega,by omega⟩ here
    · exact .inr ⟨u,mem,low,high⟩
  cases spawned
  refine ⟨fun u mem => ?_,correct.err,correct.room,correct.pos,?_,fun i less => ?_⟩
  · rcases Multiset.mem_add.mp mem with mem | mem
    · exact others u mem
    · exact ⟨lower,by omega,together.reads u mem⟩
  · rw [Multiset.map_add,Multiset.sum_add,Multiset.map_coe,Multiset.sum_coe,started,together.sum]
    show s.bytesRead + _ = _
    omega
  rcases correct.bytes i less with done | ⟨u,mem,low,high⟩
  · exact .inl done
  rcases Multiset.mem_cons.mp mem with rfl | mem
  · rw [offset] at low
    obtain ⟨c,mem,covered⟩ := together.cover (first + i) (by omega) (by omega)
    exact .inr ⟨c,Multiset.mem_add.mpr (.inr mem),covered⟩
  · exact .inr ⟨u,Multiset.mem_add.mpr (.inl mem),low,high⟩

theorem Read.ok {off : Nat} {result : Except Halt (Outcome E)} (read : Read hash get P file first readLen h off k result) :
    ∃ outcome, result = .ok outcome := by
  rcases read with copied | ⟨_,_,_,spawned,_⟩
  · exact ⟨_,copied⟩
  · exact ⟨_,spawned⟩

theorem correct_step {t : Task} {rest : Multiset Task} {children : List Task} {s : Shared E} (closed : Closed P)
    (small : file.length < 2 ^ 63) (limit : first + readLen ≤ file.length) (ref : j.refLength = hashSize)
    (roomy : (readLen : Int) ≤ room) (run : expand get j room t = some children)
    (correct : Correct hash get P file first readLen (t ::ₘ rest) s) :
    Correct hash get P file first readLen (rest + (children : Multiset Task)) (effect get j room t s) := by
  obtain ⟨h,low,reads⟩ := correct.reads t (Multiset.mem_cons_self t rest)
  have low' : h ≤ 64 := low.trans (by decide)
  obtain ⟨off,k,offset,bytes,after,before,inside,read⟩ := runTask_read closed small roomy ref low' reads
  obtain ⟨outcome,runs⟩ := read.ok
  have is : children = started outcome := by
    rw [expand,runs] at run
    cases outcome <;> exact (Option.some.inj run).symm
  rw [runs] at read
  simp only [effect,runs,is]
  exact correct_outcome small limit low offset bytes after before read
    ⟨correct.reads,correct.err,correct.room,correct.pos,correct.count,correct.bytes⟩

/-- The joiner of a trie. -/
structure Opens (hash : Bytes → Reference) (get : Getter E) (file : Bytes) (root : Trie) (j : Joiner) : Prop where
  part : Part hash height root
  data : root.data = file
  kept : ∀ c ∈ root.chunks, ∀ i, get c.address i = .ok c.data
  own : ∃ n, ∀ i, get root.ref.1 i = .ok (putUint64 n ++ j.rootData)
  span : j.span = file.length
  ref : j.refLength = hashSize

theorem own_chunk (part : Part hash h trie) (kept : ∀ c ∈ trie.chunks, ∀ i, get c.address i = .ok c.data) :
    ∃ n payload, (∀ i, get trie.ref.1 i = .ok (putUint64 n ++ payload)) ∧ n % 2 ^ 64 = trie.data.length % 2 ^ 64 := by
  induction h with
  | zero =>
    obtain ⟨d,rfl,-⟩ := part
    exact ⟨d.length,d,kept (chunk hash (putUint64 d.length ++ d)) (by simp [leaf]),rfl⟩
  | succ h ih =>
    have span := part.span
    rcases part with part | ⟨ts,rfl,-⟩
    · exact ih part
    · refine ⟨spanSum ts,_,kept (chunk hash (nodeData ts)) (by simp [node]),?_⟩
      rw [← Nat.mod_mod (node hash ts).data.length,← span]
      rfl

theorem New_opens (small : file.length < 2 ^ 63) (part : Part hash height root) (data : root.data = file)
    (kept : ∀ c ∈ root.chunks, ∀ i, get c.address i = .ok c.data) {index : Int} :
    ∃ j, New get root.ref.1 index = .ok j ∧ j.index = index ∧ Opens hash get file root j := by
  obtain ⟨n,payload,own,length⟩ := own_chunk part kept
  have span : toSpan (putUint64 n ++ payload) = file.length := by
    rw [data,Nat.mod_eq_of_lt (a := file.length) (by omega)] at length
    rw [toSpan_putUint64 (by rw [length]; exact small),length]
  refine ⟨⟨payload,file.length,index,hashSize⟩,?_,rfl,part,data,kept,⟨n,own⟩,rfl,rfl⟩
  rw [New,own]
  simp only [bind,Except.bind,drop_putUint64,span,root.ref.2]
  rfl

theorem Opens.rootData_eq (opens : Opens hash get file root j) {payload : Bytes}
    (own : get root.ref.1 0 = .ok (putUint64 n ++ payload)) : j.rootData = payload := by
  obtain ⟨m,own'⟩ := opens.own
  have same := congrArg (List.drop spanSize) (Except.ok.inj ((own' 0).symm.trans own))
  rwa [drop_putUint64] at same

theorem start_correct {buffer : Bytes} (closed : Closed P) (opens : Opens hash get file root j)
    (small : file.length < 2 ^ 63) (inside : first < file.length)
    (bytes : readLen = min buffer.length (file.length - first)) (indexes : P height 0 0) :
    ∃ tasks, ∃ s : Shared E, start j buffer first = some (tasks,s) ∧ s.fetched = [] ∧
      Correct hash get P file first readLen (tasks : Multiset Task) s := by
  have whole : (file.drop 0).take root.data.length = root.data := by simp [opens.data]
  have length : root.data.length = file.length := by rw [opens.data]
  have roomy : (readLen : Int) ≤ buffer.length := by omega
  have limit : 0 + first + readLen ≤ first + readLen := by omega
  obtain ⟨m,payload,own,-,read⟩ := readAtOffset_read closed small (by decide : height ≤ 64) opens.part opens.kept
    (by omega : 0 + root.data.length ≤ file.length) whole (by omega) (by omega) limit roomy indexes
  have same : payload = j.rootData := (opens.rootData_eq (own 0)).symm
  have least : min (buffer.length : Int) (file.length - first) = readLen := by omega
  have left : int64 ((file.length : Int) - first) = file.length - first := int64_eq (by omega) (by omega)
  rw [same,Nat.zero_add,Nat.sub_self,length,Nat.cast_zero] at read
  rw [start,opens.span,opens.ref,left,least]
  obtain ⟨outcome,runs⟩ := read.ok
  rw [runs] at read ⊢
  -- the first call is the task that reads everything
  have correct : Correct hash get P file first readLen (⟨root.ref.1,0,0,0,first,0,readLen,file.length⟩ ::ₘ 0)
      ({buffer := buffer} : Shared E) := by
    refine ⟨fun t mem => ?_,rfl,by dsimp only; omega,le_rfl,by simp,fun i less => .inr ⟨_,Multiset.mem_cons_self _ _,?_⟩⟩
    · rw [Multiset.mem_cons.mp mem |>.resolve_right (Multiset.notMem_zero t)]
      exact ⟨height,le_rfl,root,0,first,readLen,opens.part,opens.kept,by omega,whole,by omega,by omega,by omega,rfl,rfl,
        by simp,by simp,rfl,by rw [length],indexes⟩
    · dsimp only
      omega
  have next := correct_outcome small (by omega) le_rfl rfl rfl le_rfl le_rfl read correct
  rcases read with copied | ⟨tasks,_,_,spawned,_⟩
  · cases copied
    exact ⟨_,_,rfl,rfl,next⟩
  · cases spawned
    exact ⟨_,_,rfl,rfl,next⟩

end
end FavorX.Reading

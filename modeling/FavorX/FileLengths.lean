import FavorX.Tries

/-!
The length that is announced for a file against the number of the chunks that the
pipeline stores. References that fill no group count as references of the next level,
while the pipeline wraps them as well; the two differ by the room that such chunks
leave (`sparesAfter`).
-/
namespace FavorX.FileLengths
open Shed hiding Err
open Localstore hiding gather
open Groups Pipeline Tries

/-- The chunks above `count` references, as the length of a file counts them. -/
def chunkLen1 (count : Nat) : Nat :=
  let count1 := count / branches
  if count1 = 0 then 0
  else
    let count2 := count % branches
    if count2 + count1 = 1 then 1
    else count1 + chunkLen1 (count2 + count1)
termination_by count
decreasing_by
  rename_i some _
  have split := Nat.div_add_mod count branches
  have : 2 * (count / branches) ≤ branches * (count / branches) := Nat.mul_le_mul_right _ (by decide)
  simp only [count1,count2] at *
  omega

def leafCount (span : Nat) : Nat :=
  let count := span / chunkSize
  if 0 < span % chunkSize then count + 1 else count

def chunkLen (span : Nat) : Nat :=
  let count := leafCount span
  if branches < count then count + chunkLen1 count else count

/-- The length of the presence vectors that an upload announces: one more for the root
    of a file of several chunks. -/
def bitLen (span : Nat) : Nat := if 1 < chunkLen span then chunkLen span + 1 else chunkLen span

/-- Every full group takes one less than a group away from the references that are left. -/
theorem chunkLen1_eq (count : Nat) : chunkLen1 count = (count - 1) / (branches - 1) := by
  induction count using Nat.strong_induction_on with
  | _ count ih =>
    have split := Nat.div_add_mod count branches
    have less := Nat.mod_lt count (by decide : 0 < branches)
    rw [chunkLen1]
    generalize ups : count / branches = q at *
    generalize count % branches = r at *
    have branches_eq : branches = 8192 := rfl
    rw [branches_eq] at split ⊢
    simp only
    split_ifs with none one
    · omega
    · omega
    · rw [ih (r + q) (by omega),branches_eq]
      omega

/-- The room that the chunks above the leaves leave for references. -/
def spareRoom (span : Nat) : Nat := sparesAfter branches (maxLevel - 1) (leafCount span)

/-- The chunks above the leaves fill up but for less than one chunk, or there is one. -/
def Fits (span : Nat) : Prop := leafCount span ≤ branches ∨ 0 < spareRoom span ∧ spareRoom span < branches

instance (span : Nat) : Decidable (Fits span) := inferInstanceAs (Decidable (_ ∨ _))

section
variable {hash : Bytes → Reference}

theorem length_leaves {data : Bytes} (some : data ≠ []) : (leaves hash chunkSize data).length = leafCount data.length := by
  have left : rest chunkSize data ≠ [] ↔ 0 < data.length % chunkSize := by
    rw [← length_rest (by decide),List.length_pos_iff]
  rw [leaves,leafCount,List.length_append,List.length_map,length_fulls (by decide)]
  simp only [some,or_false,left]
  split <;> rfl

theorem length_chunks {data : Bytes} {root : Trie} (some : data ≠ [])
    (is : gathered branches (node hash) (maxLevel - 1) (leaves hash chunkSize data) = [root]) :
    root.chunks.length = leafCount data.length + joinsAfter branches (maxLevel - 1) (leafCount data.length) := by
  have one : ∀ g, (node hash g).chunks.length = weight (·.chunks.length) g + 1 := by
    simp [node,weight]
  have total := weight_gathered (fun t : Trie => t.chunks.length) (w := branches) (by decide) one (maxLevel - 1)
    (leaves hash chunkSize data)
  have each : ∀ t ∈ leaves hash chunkSize data, t.chunks.length = 1 := by
    intro t mem
    rw [leaves,List.mem_append] at mem
    rcases mem with mem | mem
    · obtain ⟨d,-,rfl⟩ := List.mem_map.mp mem
      rfl
    split at mem
    · rw [List.mem_singleton.mp mem]
      rfl
    · simp at mem
  have weights : weight (·.chunks.length) (leaves hash chunkSize data) = leafCount data.length := by
    rw [weight,List.map_congr_left each,List.map_const',List.sum_replicate_nat,length_leaves some,Nat.mul_one]
  rw [is,weights,length_leaves some] at total
  simpa [weight] using total

end

theorem leafCount_pos {span : Nat} (some : 0 < span) : 0 < leafCount span := by
  simp only [leafCount]
  split
  · exact Nat.succ_pos _
  · next none =>
    have zero : span % chunkSize = 0 := by omega
    exact Nat.div_pos (Nat.le_of_dvd some (Nat.dvd_of_mod_eq_zero zero)) (by decide)

theorem leafCount_lt {span : Nat} (small : span < 2 ^ 63) : leafCount span < branches ^ (maxLevel - 1) := by
  have less : span / chunkSize ≤ span := Nat.div_le_self _ _
  have room : (2 : Nat) ^ 63 < branches ^ (maxLevel - 1) := by decide
  simp only [leafCount]
  split <;> omega

theorem joinsAfter_few {n : Nat} (some : 0 < n) (few : n ≤ branches) :
    joinsAfter branches (maxLevel - 1) n = if 1 < n then 1 else 0 := by
  have alone : ∀ k, joinsAfter branches k 1 = 0 := by
    intro k
    induction k with
    | zero => rfl
    | succ k ih =>
      have same : groupCount branches 1 = 1 := by decide
      rw [joinsAfter,same,ih]
      rfl
  have next : groupCount branches n = 1 := by
    rw [groupCount]
    rcases Nat.lt_or_eq_of_le few with less | rfl
    · rw [Nat.div_eq_of_lt less,Nat.mod_eq_of_lt less]
      omega
    · rfl
  have once : joinCount branches n = if 1 < n then 1 else 0 := by
    rw [joinCount]
    rcases Nat.lt_or_eq_of_le few with less | rfl
    · rw [Nat.div_eq_of_lt less,Nat.mod_eq_of_lt less,Nat.zero_add]
      rfl
    · rfl
  rw [show maxLevel - 1 = 6 + 1 from rfl,joinsAfter,next,alone,once,Nat.add_zero]

theorem bitLen_iff {span : Nat} (some : 0 < span) (small : span < 2 ^ 63) :
    bitLen span = leafCount span + joinsAfter branches (maxLevel - 1) (leafCount span) ↔ Fits span := by
  have one := leafCount_pos some
  have balance := joins_after (w := branches) (by decide) (maxLevel - 1) (leafCount span)
  rw [countAfter_one (by decide) one (leafCount_lt small).le] at balance
  unfold bitLen chunkLen Fits
  rw [← spareRoom] at balance
  rcases Nat.lt_or_ge branches (leafCount span) with many | few
  · simp only [many,if_true,chunkLen1_eq]
    rw [show branches = 8192 from rfl] at *
    rw [if_pos (by omega)]
    omega
  · simp only [Nat.not_lt.mpr few,if_false,joinsAfter_few one few,few,true_or,iff_true]
    split <;> rfl

/-- The announced length is the number of the chunks that the pipeline stores, wherever
    the file is cut into writes, exactly when the chunks above the leaves fit. -/
theorem announced_stored_iff (hash : Bytes → Reference) (writes : List Bytes) (some : writes.flatten ≠ [])
    (small : writes.flatten.length < 2 ^ 63) :
    ∃ ref stored, upload hash writes = .ok (ref,stored) ∧
      (bitLen writes.flatten.length = stored.length ↔ Fits writes.flatten.length) := by
  obtain ⟨root,stored,is,run,chunks⟩ := upload_spec hash writes small
  refine ⟨root.ref,stored,run,?_⟩
  rw [chunks.length_eq,length_chunks some is]
  exact bitLen_iff (List.length_pos_of_ne_nil some) small

def sampleHash : Bytes → Reference := fun _ => zeroReference

theorem announced_stored_byte : Fits [[(7 : UInt8)]].flatten.length ∧
    ∃ ref stored, upload sampleHash [[7]] = .ok (ref,stored) ∧
      (bitLen [[(7 : UInt8)]].flatten.length = stored.length ↔ Fits [[(7 : UInt8)]].flatten.length) :=
  ⟨by decide,announced_stored_iff sampleHash [[7]] (by decide) (by decide)⟩

/-- A file of two chunks more than one level of references takes. -/
def longFile : Bytes := List.replicate ((branches + 2) * chunkSize) 0

/-- The root of such a file has two references, and the second of them is to a chunk
    with two leaves, which the announced length does not count. -/
theorem announced_short : ∃ ref stored, upload sampleHash [longFile] = .ok (ref,stored) ∧
    bitLen longFile.length = 8196 ∧ stored.length = 8197 := by
  have length : longFile.length = (branches + 2) * chunkSize := List.length_replicate
  have flat : [longFile].flatten = longFile := by simp
  have some : longFile ≠ [] := by
    rw [← List.length_pos_iff,length]
    decide
  obtain ⟨root,stored,is,run,chunks⟩ := upload_spec sampleHash [longFile] (by rw [flat,length]; decide)
  rw [flat] at is
  refine ⟨root.ref,stored,run,?_,?_⟩
  · rw [length,bitLen,chunkLen,chunkLen1_eq]
    decide
  · rw [chunks.length_eq,length_chunks some is,length]
    decide

end FavorX.FileLengths

import FavorX.Tries
import FavorX.Joiners

/-!
The shape of the tries that the pipeline builds. All tries on a level but for the last
hold the same number of bytes, and the last one may have been carried up (`Part`). A
file of less than 2^63 bytes is a trie of at most four levels above its leaves
(`upload_shape`).
-/
namespace FavorX.Shapes
open Shed hiding Err
open Localstore hiding gather
open Groups Pipeline Tries Joiners

theorem length_leBytes (k n : Nat) : (leBytes k n).length = k := by
  induction k generalizing n with
  | zero => rfl
  | succ k ih => rw [leBytes,List.length_cons,ih]

theorem littleEndian_leBytes (k n : Nat) : littleEndian (leBytes k n) = n % 256 ^ k := by
  induction k generalizing n with
  | zero => rw [leBytes,littleEndian,Nat.pow_zero,Nat.mod_one]
  | succ k ih =>
    have low : (UInt8.ofNat n).toNat = n % 256 := UInt8.toNat_ofNat'
    rw [leBytes,littleEndian,ih,low,Nat.pow_succ,Nat.mul_comm (256 ^ k),Nat.mod_mul]

theorem length_putUint64 {n : Nat} : (putUint64 n).length = spanSize := length_leBytes spanSize n

theorem take_putUint64 (n : Nat) (payload : Bytes) : (putUint64 n ++ payload).take spanSize = putUint64 n :=
  List.take_left' length_putUint64

theorem drop_putUint64 (n : Nat) (payload : Bytes) : (putUint64 n ++ payload).drop spanSize = payload :=
  List.drop_left' length_putUint64

theorem littleEndian_putUint64 (n : Nat) : littleEndian (putUint64 n) = n % 2 ^ 64 := littleEndian_leBytes spanSize n

theorem toSpan_putUint64 {n : Nat} (small : n % 2 ^ 64 < 2 ^ 63) (payload : Bytes) :
    toSpan (putUint64 n ++ payload) = (n % 2 ^ 64 : Nat) := by
  rw [toSpan,take_putUint64,littleEndian_putUint64,toInt64,if_pos small]

/-- The number of bytes under a full trie of a level. -/
def levelBytes (h : Nat) : Nat := chunkSize * branches ^ h

theorem levelBytes_pos (h : Nat) : 0 < levelBytes h := Nat.mul_pos (by decide) (Nat.pow_pos (by decide))

theorem levelBytes_succ (h : Nat) : levelBytes (h + 1) = branches * levelBytes h := by
  rw [levelBytes,levelBytes]
  ring

section
variable (hash : Bytes → Reference)

/-- A trie of a level, or the last one of a level below that was carried up. -/
def Part : Nat → Trie → Prop
  | 0,t => ∃ d, t = leaf hash d ∧ d.length ≤ chunkSize
  | h + 1,t => Part h t ∨ ∃ ts, t = node hash ts ∧ 2 ≤ ts.length ∧ ts.length ≤ branches ∧
      Laid (fun u => Part h u ∧ u.data.length = levelBytes h) (fun u => Part h u ∧ 0 < u.data.length) ts

def Whole (h : Nat) (t : Trie) : Prop := Part hash h t ∧ t.data.length = levelBytes h

def Last (h : Nat) (t : Trie) : Prop := Part hash h t ∧ 0 < t.data.length

variable {hash} {h : Nat} {t : Trie} {ts : List Trie}

theorem length_laid {init : List Trie} {last : Trie} (wholes : ∀ u ∈ init, Whole hash h u) :
    (node hash (init ++ [last])).data.length = init.length * levelBytes h + last.data.length := by
  induction init with
  | nil => simp [node]
  | cons u init ih =>
    have first := (wholes u List.mem_cons_self).2
    have later := ih fun v mem => wholes v (List.mem_cons_of_mem u mem)
    simp only [node,List.cons_append,List.flatMap_cons,List.length_append,List.length_cons,first,Nat.add_mul,
      Nat.one_mul] at later ⊢
    omega

theorem Part.length_le (part : Part hash h t) : t.data.length ≤ levelBytes h := by
  induction h generalizing t with
  | zero =>
    obtain ⟨d,rfl,short⟩ := part
    simpa [levelBytes,leaf] using short
  | succ h ih =>
    have more : levelBytes h ≤ levelBytes (h + 1) := by
      rw [levelBytes_succ]
      exact Nat.le_mul_of_pos_left _ (by decide)
    rcases part with part | ⟨ts,rfl,-,few,init,last,rfl,wholes,part,-⟩
    · exact (ih part).trans more
    have short := ih part
    rw [length_laid wholes,levelBytes_succ]
    have : (init.length + 1) * levelBytes h ≤ branches * levelBytes h :=
      Nat.mul_le_mul_right _ (by simpa using few)
    rw [Nat.add_mul] at this
    omega

theorem Part.succ (part : Part hash h t) : Part hash (h + 1) t := .inl part

theorem Part.span (part : Part hash h t) : t.span = t.data.length % 2 ^ 64 := by
  induction h generalizing t with
  | zero =>
    obtain ⟨d,rfl,-⟩ := part
    simp only [leaf]
    rw [take_putUint64,littleEndian_putUint64]
  | succ h ih =>
    rcases part with part | ⟨ts,rfl,-,-,init,last,rfl,wholes,part,-⟩
    · exact ih part
    have spans : ∀ u ∈ init ++ [last], u.span = u.data.length % 2 ^ 64 := by
      intro u mem
      rcases List.mem_append.mp mem with mem | mem
      · exact ih (wholes u mem).1
      · rw [List.mem_singleton.mp mem]
        exact ih part
    generalize init ++ [last] = us at spans
    have sums : ∀ (us : List Trie) (n : Nat), (∀ u ∈ us, u.span = u.data.length % 2 ^ 64) →
        us.foldl (fun sp u => (sp + u.span) % 2 ^ 64) (n % 2 ^ 64) =
          (n + (us.flatMap (·.data)).length) % 2 ^ 64 := by
      intro us
      induction us with
      | nil => simp
      | cons u us ih =>
        intro n spans
        have first := spans u List.mem_cons_self
        rw [List.foldl_cons,first,← Nat.add_mod,ih _ fun v mem => spans v (List.mem_cons_of_mem u mem),
          List.flatMap_cons,List.length_append,Nat.add_assoc]
    have sum := sums us 0 spans
    rwa [Nat.zero_add] at sum

variable (hash) in
theorem laid_leaves {data : Bytes} (some : data ≠ []) : Laid (Whole hash 0) (Last hash 0) (leaves hash chunkSize data) := by
  obtain ⟨init,last,same,wholes,more,short⟩ := Feeders.laid_leaves (show 0 < chunkSize by decide) some
  refine ⟨init.map (leaf hash),leaf hash last,by rw [leaves_eq,same,List.map_append]; rfl,?_,⟨last,rfl,short⟩,more⟩
  intro u mem
  obtain ⟨d,inside,rfl⟩ := List.mem_map.mp mem
  exact ⟨⟨d,rfl,(wholes d inside).le⟩,by simpa [leaf,levelBytes] using wholes d inside⟩

variable (hash) in
theorem laid_gathered {data : Bytes} (some : data ≠ []) {k : Nat} :
    Laid (Whole hash k) (Last hash k) (gathered branches (node hash) k (leaves hash chunkSize data)) := by
  have step : ∀ h ts, Laid (Whole hash h) (Last hash h) ts →
      Laid (Whole hash (h + 1)) (Last hash (h + 1)) (gather branches (node hash) ts) := by
    intro h ts laid
    refine laid_gather (by decide) ?_ ?_ (fun u last => ⟨.inl last.1,last.2⟩) laid
    · intro g full wholes
      obtain empty | ⟨init,last,same⟩ := List.eq_nil_or_concat g
      · rw [empty] at full
        exact absurd full (by decide)
      rw [List.concat_eq_append] at same
      subst same
      have final := wholes last (by simp)
      have all : ∀ u ∈ init, Whole hash h u := fun u mem => wholes u (by simp [mem])
      refine ⟨.inr ⟨_,rfl,by rw [full]; decide,full.le,init,last,rfl,all,final.1,?_⟩,?_⟩
      · rw [final.2]
        exact levelBytes_pos h
      · have count : init.length + 1 = branches := by simpa using full
        rw [length_laid all,final.2,levelBytes_succ,← count,Nat.add_mul,Nat.one_mul]
    rintro g many few ⟨init,last,rfl,wholes,ends⟩
    refine ⟨.inr ⟨_,rfl,many,few,init,last,rfl,wholes,ends⟩,?_⟩
    rw [length_laid wholes]
    have := ends.2
    omega
  have all : ∀ k h ts, Laid (Whole hash h) (Last hash h) ts →
      Laid (Whole hash (h + k)) (Last hash (h + k)) (gathered branches (node hash) k ts) := by
    intro k
    induction k with
    | zero => exact fun h ts laid => laid
    | succ k ih =>
      intro h ts laid
      have next := ih (h + 1) _ (step h ts laid)
      rwa [Nat.add_assoc,Nat.add_comm 1] at next
  have from0 := all k 0 _ (laid_leaves hash some)
  rwa [Nat.zero_add] at from0

theorem data_leaves (data : Bytes) : (leaves hash chunkSize data).flatMap (·.data) = data := by
  rw [leaves_eq,List.flatMap_map]
  exact List.flatMap_id.trans (Feeders.flatten_leaves (by decide) data)

def height : Nat := 4

theorem gathered_height {data : Bytes} {root : Trie} (some : data ≠ []) (small : data.length < 2 ^ 63)
    (is : gathered branches (node hash) (maxLevel - 1) (leaves hash chunkSize data) = [root]) :
    gathered branches (node hash) height (leaves hash chunkSize data) = [root] := by
  have wide : 2 ≤ branches := by decide
  have one : 0 < (leaves hash chunkSize data).length := by
    obtain ⟨init,last,same,-⟩ := laid_leaves hash some
    simp [same]
  have few : (leaves hash chunkSize data).length ≤ branches ^ height := by
    have room : 2 ^ 63 / chunkSize + 1 ≤ branches ^ height := by decide
    have groups : data.length / chunkSize ≤ 2 ^ 63 / chunkSize := Nat.div_le_div_right small.le
    rw [leaves,List.length_append,List.length_map,length_fulls (by decide)]
    split <;> simp <;> omega
  have single := length_gathered (node hash) (by omega : 0 < branches) height (leaves hash chunkSize data)
  rw [countAfter_one (by omega) one few] at single
  obtain ⟨first,alone⟩ := List.length_eq_one_iff.mp single
  rw [show maxLevel - 1 = height + 3 from rfl,gathered_add,alone,gathered_singleton wide] at is
  rw [alone,is]

end

/-- An upload gives the address of a trie of the file, and stores the chunks of that trie. -/
theorem upload_shape (hash : Bytes → Reference) (writes : List Bytes) (small : writes.flatten.length < 2 ^ 63) :
    ∃ root stored, upload hash writes = .ok (root.ref,stored) ∧ stored.Perm root.chunks ∧
      Part hash height root ∧ root.data = writes.flatten ∧
      gathered branches (node hash) (maxLevel - 1) (leaves hash chunkSize writes.flatten) = [root] := by
  obtain ⟨root,stored,is,run,chunks⟩ := upload_spec hash writes small
  have whole := is
  have content := flatMap_gathered (node hash) (by decide : 0 < branches) (fun g => (rfl : (node hash g).data = _))
    (maxLevel - 1) (leaves hash chunkSize writes.flatten)
  rw [is,data_leaves,List.flatMap_singleton] at content
  refine ⟨root,stored,run,chunks,?_,content,whole⟩
  by_cases none : writes.flatten = []
  · have single : leaves hash chunkSize writes.flatten = [leaf hash []] := by
      rw [none,leaves,fulls_short (by decide),rest_short (by decide)]
      rfl
    rw [single,gathered_singleton (by decide),List.singleton_inj] at is
    have part : Part hash 0 root := ⟨[],is.symm,by decide⟩
    exact part.succ.succ.succ.succ
  obtain ⟨init,last,same,-,ends⟩ := laid_gathered hash none
  rw [gathered_height none small is] at same
  obtain ⟨-,rfl⟩ : init = [] ∧ root = last := by
    cases init with
    | nil => exact ⟨rfl,List.singleton_inj.mp same⟩
    | cons u init => simp at same
  exact ends.1

end FavorX.Shapes

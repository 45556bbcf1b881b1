import FavorX.FileLengths
import FavorX.Reading

/-!
What was uploaded is read back. A store that keeps the chunks of an upload, with no two
of them under one address, gives a joiner that reads every part of the file, in whatever
order the goroutines of a read run.
-/
namespace FavorX.RoundTrip
open Shed hiding Err
open Localstore hiding gather
open Groups Pipeline Tries FileLengths Joiners Shapes Reading

def storeOf (stored : List Chunk) : Getter Unit := fun address _ =>
  match stored.find? (fun c => c.address = address) with
  | some c => .ok c.data
  | none => .error ()

/-- No two chunks with different data have one address. -/
def CollisionFree (stored : List Chunk) : Prop :=
  ∀ c ∈ stored, ∀ c' ∈ stored, c.address = c'.address → c.data = c'.data

theorem collisionFree_singleton {c : Chunk} : CollisionFree [c] := by
  intro d mem d' mem' _
  rw [List.mem_singleton.mp mem,List.mem_singleton.mp mem']

theorem storeOf_kept {stored : List Chunk} (free : CollisionFree stored) {c : Chunk} (mem : c ∈ stored) {i : Int} :
    storeOf stored c.address i = .ok c.data := by
  have found : (stored.find? (fun d => d.address = c.address)).isSome := List.find?_isSome.mpr ⟨c,mem,by simp⟩
  obtain ⟨d,is⟩ := Option.isSome_iff_exists.mp found
  have same : d.address = c.address := by simpa using List.find?_some is
  rw [storeOf,is]
  exact congrArg Except.ok (free d (List.mem_of_find?_eq_some is) c mem same)

section
variable {E : Type} {hash : Bytes → Reference} {get : Getter E} {file : Bytes} {root : Trie} {j : Joiner}

theorem closed_any : Closed (fun _ _ _ => True) := ⟨fun _ _ _ _ => trivial,fun _ _ _ _ _ _ _ _ _ => trivial⟩

theorem ReadAt_correct (opens : Opens hash get file root j) (small : file.length < 2 ^ 63) {buffer : Bytes} (off : Nat) :
    Returns get j buffer off ∧ ∀ result s, ReadAt get j buffer off result s →
      if file.length ≤ off then result = .eof
      else result = .read (min buffer.length (file.length - off) : Nat) ∧
        s.buffer.take (min buffer.length (file.length - off)) =
          (file.drop off).take (min buffer.length (file.length - off)) := by
  by_cases ended : file.length ≤ off
  · refine ⟨.inl (by rw [opens.span]; omega),fun result s read => ?_⟩
    rw [if_pos ended]
    cases read with
    | eof => rfl
    | done inside =>
      rw [opens.span] at inside
      omega
  generalize readLen_eq : min buffer.length (file.length - off) = readLen
  obtain ⟨tasks,s,started,-,correct⟩ := start_correct closed_any opens small (by omega) readLen_eq.symm trivial
  have roomy : (readLen : Int) ≤ buffer.length := by omega
  refine ⟨.inr ⟨tasks,s,started,Pools.ends_iff.mpr fun t mem => ?_⟩,fun result s' read => ?_⟩
  · obtain ⟨h,low,reads⟩ := correct.reads t mem
    exact reads_safe closed_any small roomy opens.ref (low.trans (by decide)) reads
  rw [if_neg ended]
  cases read with
  | eof inside =>
    rw [opens.span] at inside
    omega
  | done inside started' runs =>
    rw [started] at started'
    cases started'
    have final := Pools.runs_keep (fun t rest children s run correct =>
      correct_step closed_any small (by omega) opens.ref roomy run correct) correct runs
    have count := final.count
    rw [Multiset.map_zero,Multiset.sum_zero,Int.add_zero] at count
    rw [final.err,count]
    refine ⟨rfl,List.ext_getElem? fun i => ?_⟩
    by_cases less : i < readLen
    · rw [List.getElem?_take_of_lt less,List.getElem?_take_of_lt less,List.getElem?_drop]
      exact (final.bytes i less).resolve_right (by simp)
    · rw [List.getElem?_take_eq_none (by omega),List.getElem?_take_eq_none (by omega)]

end

theorem upload_chunk {hash : Bytes → Reference} {writes : List Bytes} (short : writes.flatten.length < chunkSize) :
    ∃ ref, upload hash writes =
      .ok (ref,[chunk hash (putUint64 writes.flatten.length ++ writes.flatten)]) := by
  have size : chunkSize = 262144 := by decide
  obtain ⟨root,stored,is,run,chunks⟩ := upload_spec hash writes (by omega)
  have single : leaves hash chunkSize writes.flatten = [leaf hash writes.flatten] := by
    rw [leaves,fulls_short short,rest_short short,if_pos (or_iff_not_imp_left.mpr not_not.mp)]
    rfl
  rw [single,gathered_singleton (by decide),List.singleton_inj] at is
  rw [← is] at chunks
  rw [List.perm_singleton.mp chunks] at run
  exact ⟨_,run⟩

/-- What was uploaded is read back: wherever the file is cut into writes, the upload
    gives an address, and the joiner that a store of its chunks gives for this address
    has the size of the file and reads every part of it. The length of a file is an
    `int`. -/
theorem upload_read_back (hash : Bytes → Reference) (writes : List Bytes) (small : writes.flatten.length < 2 ^ 63) :
    ∃ ref stored, upload hash writes = .ok (ref,stored) ∧ (CollisionFree stored → ∀ index,
      ∃ j, New (storeOf stored) ref.1 index = .ok j ∧ j.span = writes.flatten.length ∧
        ∀ (buffer : Bytes) (off : Nat), Returns (storeOf stored) j buffer off ∧
          ∀ result s, ReadAt (storeOf stored) j buffer off result s →
            if writes.flatten.length ≤ off then result = .eof
            else result = .read (min buffer.length (writes.flatten.length - off) : Nat) ∧
              s.buffer.take (min buffer.length (writes.flatten.length - off)) =
                (writes.flatten.drop off).take (min buffer.length (writes.flatten.length - off))) := by
  obtain ⟨root,stored,run,chunks,part,data,-⟩ := upload_shape hash writes small
  refine ⟨root.ref,stored,run,fun free index => ?_⟩
  have kept : ∀ c ∈ root.chunks, ∀ i, storeOf stored c.address i = .ok c.data :=
    fun c mem i => storeOf_kept free (chunks.mem_iff.mpr mem)
  obtain ⟨j,opened,-,opens⟩ := New_opens small part data kept
  exact ⟨j,opened,opens.span,fun buffer off => ReadAt_correct opens small off⟩

theorem upload_read_back_bytes : ∃ ref stored, upload sampleHash [[1,2],[3]] = .ok (ref,stored) ∧
    ∃ j, New (storeOf stored) ref.1 0 = .ok j ∧ j.span = 3 ∧
      ∀ result s, ReadAt (storeOf stored) j [0,0] 1 result s → result = .read 2 ∧ s.buffer.take 2 = [2,3] := by
  obtain ⟨ref,stored,run,back⟩ := upload_read_back sampleHash [[1,2],[3]] (by decide)
  obtain ⟨ref',run'⟩ := upload_chunk (by decide : [[(1 : UInt8),2],[3]].flatten.length < chunkSize)
  have free : CollisionFree stored := by
    rw [run] at run'
    cases run'
    exact collisionFree_singleton
  obtain ⟨j,opened,span,reads⟩ := back free 0
  exact ⟨ref,stored,run,j,opened,span,fun result s read => (reads [0,0] 1).2 result s read⟩

/-- A content-addressed chunk, as `cac.Valid` checks the chunks that peers deliver. -/
def Valid (hash : Bytes → Reference) (c : Chunk) : Prop :=
  spanSize ≤ c.data.length ∧ c.data.length ≤ chunkSize + spanSize ∧ (hash c.data).1 = c.address

theorem valid_chunk (hash : Bytes → Reference) {span : Nat} {payload : Bytes} (fits : payload.length ≤ chunkSize) :
    Valid hash (chunk hash (putUint64 span ++ payload)) := by
  simp [Valid,chunk,length_putUint64,fits,Nat.add_comm spanSize]

theorem Part.valid {hash : Bytes → Reference} {h : Nat} {t : Trie} (part : Part hash h t) :
    ∀ c ∈ t.chunks, Valid hash c := by
  induction h generalizing t with
  | zero =>
    obtain ⟨data,rfl,fits⟩ := part
    intro c mem
    rw [List.mem_singleton.mp mem]
    exact valid_chunk hash fits
  | succ h ih =>
    rcases part with low | ⟨ts,rfl,-,few,init,last,rfl,wholes,ends⟩
    · exact ih low
    intro c mem
    rcases List.mem_append.mp mem with below | own
    · obtain ⟨u,child,inside⟩ := List.mem_flatMap.mp below
      rcases List.mem_append.mp child with whole | rest
      · exact ih (wholes u whole).1 c inside
      · exact ih (List.mem_singleton.mp rest ▸ ends.1) c inside
    · rw [List.mem_singleton.mp own]
      refine valid_chunk hash ?_
      rw [length_refs]
      exact Nat.mul_le_mul_right hashSize few

/-- Every chunk that an upload stores is one that other nodes accept. -/
theorem upload_valid (hash : Bytes → Reference) (writes : List Bytes) (small : writes.flatten.length < 2 ^ 63) :
    ∃ ref stored, upload hash writes = .ok (ref,stored) ∧ ∀ c ∈ stored, Valid hash c := by
  obtain ⟨root,stored,run,chunks,part,-⟩ := upload_shape hash writes small
  refine ⟨root.ref,stored,run,?_⟩
  intro c mem
  exact Part.valid part c (chunks.mem_iff.mp mem)

theorem upload_valid_bytes : ∃ ref stored, upload sampleHash [[1,2],[3]] = .ok (ref,stored) ∧
    ∀ c ∈ stored, Valid sampleHash c :=
  upload_valid sampleHash [[1,2],[3]] (by decide)

end FavorX.RoundTrip

import FavorX.RoundTrip

/-!
The indexes under which a read of a whole file fetches its chunks. Below the root the index of a
chunk is multiplied by the number of references that a chunk has room for (`Spread`), so that with a
second level of references no chunk gets the index after those (`deep_skips`).
-/
namespace FavorX.Indexes
open Shed hiding Err
open Localstore hiding gather
open Groups Pipeline Tries FileLengths Joiners Shapes Reading
open RoundTrip

/-- With the index of the root these are the numbers below the announced length, each
    of them once. -/
def Numbered (span : Nat) (fetched : List Int) : Prop :=
  (0 :: fetched).Nodup ∧ ∀ i : Int, i ∈ 0 :: fetched ↔ 0 ≤ i ∧ i < bitLen span

/-- What is known of the indexes of a task on a level: the task is for the root, for a
    reference of the root, or its index is past all references that a chunk has room for. -/
structure Spread (h : Nat) (index lastIndex : Int) : Prop where
  low : h ≤ height
  pos : 0 ≤ index
  last_pos : 0 ≤ lastIndex
  last_le : lastIndex ≤ branches
  bound : index + 2 ≤ 2 * 8193 ^ (height - h)
  place : index = 0 ∧ lastIndex = 0 ∨ 1 ≤ index ∧ index ≤ lastIndex ∨ (branches : Int) + 1 < index

theorem closed_spread : Closed Spread := by
  constructor
  · rintro h index lastIndex ⟨low,pos,last_pos,last_le,bound,place⟩
    have more : (8193 : Int) ^ (height - (h + 1)) ≤ 8193 ^ (height - h) :=
      pow_le_pow_right₀ (by decide) (by omega)
    exact ⟨by omega,pos,last_pos,last_le,by omega,place⟩
  rintro h index lastIndex refs i ⟨low,pos,last_pos,last_le,bound,place⟩ many few less
  have level : height - h = height - (h + 1) + 1 := by omega
  have most : (8193 : Int) ^ (height - (h + 1)) ≤ 8193 ^ 3 := pow_le_pow_right₀ (by decide) (by unfold height; omega)
  have branches_eq : (branches : Int) = 8192 := rfl
  rw [branches_eq]
  generalize power : (8193 : Int) ^ (height - (h + 1)) = q at *
  have next : lastIndex + 1 + index * 8192 + i + 2 ≤ 2 * (q * 8193) := by omega
  have place' : lastIndex + 1 + index * 8192 + i = 0 ∧ (refs : Int) = 0 ∨
      1 ≤ lastIndex + 1 + index * 8192 + i ∧ lastIndex + 1 + index * 8192 + i ≤ refs ∨
      (8192 : Int) + 1 < lastIndex + 1 + index * 8192 + i := by omega
  have bounds : -2 ^ 63 ≤ index * 8192 ∧ index * 8192 < 2 ^ 63 ∧ -2 ^ 63 ≤ lastIndex + 1 + index * 8192 + i ∧
      lastIndex + 1 + index * 8192 + i < 2 ^ 63 := by omega
  rw [int64_eq bounds.1 bounds.2.1,int64_eq bounds.2.2.1 bounds.2.2.2]
  refine ⟨by omega,by omega,by omega,by rw [branches_eq]; omega,?_,?_⟩
  · rw [level,pow_succ,power]
    exact next
  · exact place'

variable {n span : Nat}

section
variable {E : Type} {hash : Bytes → Reference} {get : Getter E} {file buffer : Bytes} {root : Trie} {j : Joiner}
  {result : Result E} {s : Shared E}

theorem fetched_effect (t : Task) (room : Int) (s : Shared E) :
    (effect get j room t s).fetched = s.fetched ++ [int64 (t.index + j.index)] := by
  unfold effect
  cases runTask get j room t with
  | error _ => rfl
  | ok outcome => cases outcome <;> rfl

theorem deep_skips (opens : Opens hash get file root j) (own : j.index = 0) (some : 0 < file.length)
    (small : file.length < 2 ^ 63) (read : ReadAt get j buffer 0 result s) : (branches : Int) + 1 ∉ s.fetched := by
  have start : Spread height 0 0 := ⟨le_rfl,le_rfl,le_rfl,by decide,by decide,.inl ⟨rfl,rfl⟩⟩
  obtain ⟨readLen,bytes⟩ : ∃ readLen, readLen = min buffer.length (file.length - 0) := ⟨_,rfl⟩
  obtain ⟨tasks,first,started,none,correct⟩ := start_correct closed_spread opens small some bytes start
  cases read with
  | eof => simp
  | done inside started' runs =>
    rw [Nat.cast_zero,started'] at started
    cases started
    refine (Pools.runs_keep (I := fun p s => Correct hash get Spread file 0 readLen p s ∧
      (branches : Int) + 1 ∉ s.fetched) ?_ ⟨correct,by simp [none]⟩ runs).2
    rintro t rest children s run ⟨correct,skipped⟩
    refine ⟨correct_step closed_spread small (by omega) opens.ref (by omega) run correct,?_⟩
    obtain ⟨h,low,trie,pos,skip,k,covers⟩ := correct.reads t (Multiset.mem_cons_self t rest)
    obtain ⟨-,pos,-,last_le,bound,place⟩ := covers.index
    have most : (8193 : Int) ^ (height - h) ≤ 8193 ^ 4 := pow_le_pow_right₀ (by decide) (by unfold height; omega)
    have fits : -2 ^ 63 ≤ t.index ∧ t.index < 2 ^ 63 := by omega
    rw [fetched_effect,own,Int.add_zero,int64_eq fits.1 fits.2,List.mem_append,List.mem_singleton,not_or]
    exact ⟨skipped,by omega⟩

variable {ts : List Trie}

/-- The chunks that were fetched and those that are still to be fetched have the
    indexes from 1 on. -/
structure Numbering (hash : Bytes → Reference) (get : Getter E) (file : Bytes) (readLen n : Nat) (p : Multiset Task)
    (s : Shared E) : Prop where
  reads : ∀ t ∈ p, Reads hash get (fun _ _ _ => True) file 0 readLen 0 t
  all : (s.fetched : Multiset Int) + p.map (·.index) = ((List.range' 1 n).map ((↑) : Nat → Int) : List Int)

theorem numbering_step {t : Task} {rest : Multiset Task} {children : List Task} {readLen n : Nat} {room : Int}
    (ref : j.refLength = hashSize) (own : j.index = 0) (few : n ≤ branches) (small : file.length < 2 ^ 63)
    (roomy : (readLen : Int) ≤ room) (run : expand get j room t = some children)
    (numbering : Numbering hash get file readLen n (t ::ₘ rest) s) :
    Numbering hash get file readLen n (rest + (children : Multiset Task)) (effect get j room t s) := by
  have all := numbering.all
  obtain ⟨off,k,-,-,-,-,-,copied | ⟨_,lower,less,-⟩⟩ :=
    runTask_read closed_any small roomy ref (Nat.zero_le 64) (numbering.reads t (Multiset.mem_cons_self t rest))
  · have none : children = [] := by
      rw [expand,copied] at run
      exact (Option.some.inj run).symm
    have mem : t.index ∈ (((List.range' 1 n).map ((↑) : Nat → Int) : List Int) : Multiset Int) := by
      rw [← all,Multiset.map_cons]
      exact Multiset.mem_add.mpr (.inr (Multiset.mem_cons_self _ _))
    obtain ⟨i,inside,index⟩ := List.mem_map.mp (Multiset.mem_coe.mp mem)
    rw [List.mem_range'_1] at inside
    have few' : n ≤ 8192 := few
    have kept : int64 (t.index + j.index) = t.index := by
      rw [own,Int.add_zero,← index]
      exact int64_nat (by omega)
    subst none
    rw [Multiset.coe_nil,Multiset.add_zero]
    refine ⟨fun u mem => numbering.reads u (Multiset.mem_cons_of_mem mem),?_⟩
    rw [fetched_effect,kept,← all,← Multiset.coe_add,Multiset.coe_singleton,Multiset.map_cons,Multiset.add_assoc,
      Multiset.singleton_add]
  · omega

theorem numbers_root (few : n ≤ branches) : numbers 0 0 0 n = (List.range' 1 n).map ((↑) : Nat → Int) := by
  have few' : n ≤ 8192 := few
  refine List.ext_getElem (by simp [numbers]) fun i less _ => ?_
  rw [numbers,List.length_map,List.length_range'] at less
  have index : int64 ((0 : Int) + 1 + int64 (0 * branches) + (0 + i : Nat)) = (1 + i : Nat) := by
    have zero : int64 0 = 0 := by decide
    rw [Int.zero_mul,zero]
    have sum : (0 : Int) + 1 + 0 + (0 + i : Nat) = (1 + i : Nat) := by omega
    rw [sum]
    exact int64_nat (by omega)
  simpa [numbers] using index

/-- A read of a whole file with one level of references starts with all of them. -/
theorem start_numbering (opens : Opens hash get file (node hash ts) j) (small : file.length < 2 ^ 63)
    (many : 2 ≤ ts.length) (few : ts.length ≤ branches) (laid : Laid (Whole hash 0) (Last hash 0) ts)
    (whole : file.length ≤ buffer.length) :
    ∃ tasks, start j buffer 0 = some (tasks,({buffer := buffer} : Shared E)) ∧
      Numbering hash get file file.length ts.length (tasks : Multiset Task) ({buffer := buffer} : Shared E) := by
  have length : (node hash ts).data.length = file.length := by rw [opens.data]
  have content : (file.drop 0).take (node hash ts).data.length = (node hash ts).data := by simp [opens.data]
  have step : ∃ tasks, readAtOffset hashSize buffer.length (ts.flatMap (·.ref.1)) 0 0 (0 : Nat) (node hash ts).data.length
        (0 + 0 : Nat) (0 + 0 - 0 : Nat) (file.length : Nat) = (.ok (.spawned tasks) : Except Halt (Outcome E)) ∧
      Together hash get (fun _ _ _ => True) file 0 file.length 0 (0 + 0) file.length tasks ∧
      (0 = 0 → file.length = (node hash ts).data.length → tasks.map (·.index) = numbers 0 0 0 ts.length) :=
    readAtOffset_node closed_any small (by decide) many few laid opens.kept (by omega) content (by omega) (by omega)
      (by omega) trivial
  obtain ⟨tasks,run,together,numbered⟩ := step
  have payload : j.rootData = ts.flatMap (·.ref.1) :=
    opens.rootData_eq (opens.kept (chunk hash (nodeData ts)) (by simp [node]) 0)
  have bytes : min (buffer.length : Int) ((file.length : Int) - 0) = file.length := by omega
  have left : int64 ((file.length : Int) - 0) = (file.length : Int) - 0 := int64_eq (by omega) (by omega)
  refine ⟨tasks,?_,together.reads,?_⟩
  · simp only [Nat.add_zero,Nat.sub_self,Nat.cast_zero,length] at run
    rw [start,opens.span,opens.ref,left,bytes,payload,run]
  · rw [Multiset.map_coe,numbered rfl length.symm,numbers_root few,Multiset.coe_nil,Multiset.zero_add]

/-- A whole file with one level of references is fetched under the indexes from 1 on. -/
theorem fetched_numbers (opens : Opens hash get file (node hash ts) j) (own : j.index = 0) (small : file.length < 2 ^ 63)
    (many : 2 ≤ ts.length) (few : ts.length ≤ branches) (laid : Laid (Whole hash 0) (Last hash 0) ts)
    (some : 0 < file.length) (whole : file.length ≤ buffer.length) (read : ReadAt get j buffer 0 result s) :
    s.fetched.Perm ((List.range' 1 ts.length).map ((↑) : Nat → Int)) := by
  obtain ⟨tasks,started,numbering⟩ := start_numbering opens small many few laid whole
  cases read with
  | eof ended =>
    rw [opens.span] at ended
    omega
  | done inside started' runs =>
    rw [started'] at started
    cases started
    have final := Pools.runs_keep (fun t rest children s run numbering =>
      numbering_step opens.ref own few small (by omega) run numbering) numbering runs
    have all := final.all
    rw [Multiset.map_zero,Multiset.add_zero] at all
    exact Multiset.coe_eq_coe.mp all

theorem fetched_none {d : Bytes} (opens : Opens hash get file (leaf hash d) j) (small : file.length < 2 ^ 63)
    (read : ReadAt get j buffer 0 result s) : s.fetched = [] := by
  have same : d = file := opens.data
  subst same
  have payload : j.rootData = d :=
    opens.rootData_eq (opens.kept (chunk hash (putUint64 d.length ++ d)) (by simp [leaf]) 0)
  obtain ⟨readLen,bytes⟩ : ∃ readLen, readLen = min buffer.length d.length := ⟨_,rfl⟩
  have least : min (buffer.length : Int) ((d.length : Int) - 0) = readLen := by omega
  have copied : readAtOffset hashSize buffer.length d 0 0 (0 : Nat) d.length (0 + 0 : Nat) (0 + 0 - 0 : Nat) readLen =
      (.ok (.copied (0 + 0 - 0 : Nat) ((d.drop (0 + 0)).take readLen)) : Except Halt (Outcome E)) :=
    readAtOffset_leaf small (by omega) (by simp) (by omega) (by omega)
  have left : int64 ((d.length : Int) - 0) = (d.length : Int) - 0 := int64_eq (by omega) (by omega)
  simp only [Nat.add_zero,Nat.sub_self,Nat.cast_zero] at copied
  cases read with
  | eof => rfl
  | done inside started runs =>
    rw [start,opens.span,opens.ref,left,least,payload,copied] at started
    cases started
    -- no goroutine was started, so nothing runs
    refine (Pools.runs_keep (I := fun p s => p = 0 ∧ s.fetched = []) ?_ ⟨rfl,rfl⟩ runs).2
    rintro t rest children s - ⟨none,-⟩
    exact absurd none (Multiset.cons_ne_zero)

end

theorem bitLen_few (some : 0 < span) (few : leafCount span ≤ branches) :
    bitLen span = if 1 < leafCount span then leafCount span + 1 else 1 := by
  have one := leafCount_pos some
  rw [bitLen,chunkLen]
  simp only [Nat.not_lt.mpr few,if_false]
  split
  · rfl
  · omega

theorem bitLen_many (many : branches < leafCount span) : branches + 1 < bitLen span := by
  have branches_eq : branches = 8192 := rfl
  rw [bitLen,chunkLen]
  simp only [many,if_true]
  rw [if_pos (by omega)]
  omega

theorem numbered_perm {fetched : List Int} (length : bitLen span = n + 1)
    (all : fetched.Perm ((List.range' 1 n).map ((↑) : Nat → Int))) : Numbered span fetched := by
  have whole : (0 :: fetched).Perm ((List.range' 0 (n + 1)).map ((↑) : Nat → Int)) := by
    rw [List.range'_succ]
    exact all.cons 0
  constructor
  · rw [whole.nodup_iff,List.nodup_map_iff Nat.cast_injective]
    exact List.nodup_range'
  intro i
  rw [whole.mem_iff]
  simp only [List.mem_map,List.mem_range'_1]
  constructor
  · omega
  · rintro ⟨low,high⟩
    exact ⟨i.toNat,by omega,by omega⟩

/-- What the indexes of a read of the whole file are depends on the levels of references. -/
theorem numbered_iff {E : Type} {hash : Bytes → Reference} {get : Getter E} {file buffer : Bytes} {root : Trie}
    {j : Joiner} {result : Result E} {s : Shared E} (opens : Opens hash get file root j) (own : j.index = 0)
    (small : file.length < 2 ^ 63) (whole : file.length ≤ buffer.length)
    (gathers : gathered branches (node hash) (maxLevel - 1) (leaves hash chunkSize file) = [root])
    (read : ReadAt get j buffer 0 result s) :
    Numbered file.length s.fetched ↔ 0 < file.length ∧ leafCount file.length ≤ branches := by
  by_cases empty : file.length = 0
  · refine iff_of_false ?_ (by omega)
    rintro ⟨-,numbers⟩
    have zero := (numbers 0).mp List.mem_cons_self
    rw [empty] at zero
    exact absurd zero.2 (by decide)
  have some : 0 < file.length := Nat.pos_of_ne_zero empty
  have filled : file ≠ [] := List.length_pos_iff.mp some
  by_cases few : leafCount file.length ≤ branches
  · refine iff_of_true ?_ ⟨some,few⟩
    have laid := laid_leaves hash filled
    have count : (leaves hash chunkSize file).length = leafCount file.length := length_leaves filled
    have length := bitLen_few some few
    by_cases many : 1 < leafCount file.length
    · have joined := gather_few (node hash) (by omega : 2 ≤ (leaves hash chunkSize file).length)
        (by omega : (leaves hash chunkSize file).length ≤ branches)
      rw [show maxLevel - 1 = 6 + 1 from rfl,gathered,joined,gathered_singleton (by decide),List.singleton_inj] at gathers
      subst gathers
      rw [if_pos many] at length
      have perm := fetched_numbers opens own small (by omega) (by omega) laid some whole read
      rw [count] at perm
      exact numbered_perm length perm
    obtain ⟨init,last,same,-,⟨d,rfl,-⟩,-⟩ := laid
    have single : init = [] := by
      rw [same,List.length_append,List.length_singleton] at count
      exact List.length_eq_zero_iff.mp (by omega)
    rw [same,single,List.nil_append,gathered_singleton (by decide),List.singleton_inj] at gathers
    subst gathers
    rw [if_neg many] at length
    exact numbered_perm length (by rw [fetched_none opens small read]; exact .nil)
  refine iff_of_false ?_ fun both => few both.2
  rintro ⟨-,numbers⟩
  have long := bitLen_many (Nat.lt_of_not_le few)
  have mem := (numbers (branches + 1)).mpr ⟨by omega,by omega⟩
  rcases List.mem_cons.mp mem with zero | mem
  · omega
  · exact deep_skips opens own some small read mem

/-- The indexes under which a read of the whole file fetches its chunks number the bits
    of the announced length exactly when the file is not empty and has one level of
    references at most. -/
theorem indexes_numbered_iff (hash : Bytes → Reference) (writes : List Bytes) (small : writes.flatten.length < 2 ^ 63) :
    ∃ ref stored, upload hash writes = .ok (ref,stored) ∧ (CollisionFree stored →
      ∃ j, New (storeOf stored) ref.1 0 = .ok j ∧ ∀ buffer : Bytes, writes.flatten.length ≤ buffer.length →
        Returns (storeOf stored) j buffer 0 ∧ ∀ result s, ReadAt (storeOf stored) j buffer 0 result s →
          (Numbered writes.flatten.length s.fetched ↔
            0 < writes.flatten.length ∧ leafCount writes.flatten.length ≤ branches)) := by
  obtain ⟨root,stored,run,chunks,part,data,gathers⟩ := upload_shape hash writes small
  refine ⟨root.ref,stored,run,fun free => ?_⟩
  have kept : ∀ c ∈ root.chunks, ∀ i, storeOf stored c.address i = .ok c.data :=
    fun c mem i => storeOf_kept free (chunks.mem_iff.mpr mem)
  obtain ⟨j,opened,own,opens⟩ := New_opens small part data kept
  exact ⟨j,opened,fun buffer whole => ⟨(ReadAt_correct opens small 0).1,
    fun result s read => numbered_iff opens own small whole gathers read⟩⟩

theorem indexes_numbered_bytes : ∃ ref stored, upload sampleHash [[1,2],[3]] = .ok (ref,stored) ∧
    ∃ j, New (storeOf stored) ref.1 0 = .ok j ∧
      ∀ result s, ReadAt (storeOf stored) j [0,0,0] 0 result s → Numbered 3 s.fetched := by
  obtain ⟨ref,stored,run,back⟩ := indexes_numbered_iff sampleHash [[1,2],[3]] (by decide)
  obtain ⟨ref',run'⟩ := upload_chunk (by decide : [[(1 : UInt8),2],[3]].flatten.length < chunkSize)
  have free : CollisionFree stored := by
    rw [run] at run'
    cases run'
    exact collisionFree_singleton
  obtain ⟨j,opened,reads⟩ := back free
  exact ⟨ref,stored,run,j,opened,fun result s read => ((reads [0,0,0] (by decide)).2 result s read).mpr (by decide)⟩

def spanHash : Bytes → Reference := fun d =>
  ⟨(d.take spanSize ++ List.replicate hashSize 0).take hashSize,by simp⟩

/-- A file with one chunk more than a chunk has room for references. -/
def wideFile : Bytes := List.replicate ((branches + 1) * chunkSize) 0

theorem groups_replicate {α : Type} (w n : Nat) (pos : 0 < w) (a : α) :
    fulls w (List.replicate (n * w) a) = List.replicate n (List.replicate w a) ∧
      rest w (List.replicate (n * w) a) = [] := by
  induction n with
  | zero => simp [fulls_short (l := ([] : List α)) pos,rest_short (l := ([] : List α)) pos]
  | succ n ih =>
    have split : List.replicate ((n + 1) * w) a = List.replicate w a ++ List.replicate (n * w) a := by
      rw [Nat.succ_mul,Nat.add_comm,List.replicate_add]
    have full : (List.replicate w a).length = w := List.length_replicate
    rw [split,fulls_cons pos full,rest_cons pos full,ih.1,ih.2]
    exact ⟨rfl,rfl⟩

def zeroLeaf : Trie := leaf spanHash (List.replicate chunkSize 0)

def fullNode : Trie := node spanHash (List.replicate branches zeroLeaf)

theorem leaves_wideFile : leaves spanHash chunkSize wideFile = List.replicate branches zeroLeaf ++ [zeroLeaf] := by
  obtain ⟨groups,none⟩ := groups_replicate chunkSize (branches + 1) (by decide) (0 : UInt8)
  have filled : wideFile ≠ [] := by
    decide
  rw [leaves,if_neg (by simp only [wideFile,none,ne_eq,not_true,false_or]; exact filled),List.append_nil,wideFile,groups,
    List.map_replicate,List.replicate_succ']
  rfl

theorem gathered_wideFile : gathered branches (node spanHash) (maxLevel - 1) (leaves spanHash chunkSize wideFile) =
    [node spanHash [fullNode,zeroLeaf]] := by
  have first : gather branches (node spanHash) (List.replicate branches zeroLeaf ++ [zeroLeaf]) = [fullNode,zeroLeaf] := by
    rw [gather_cons (node spanHash) (by decide) List.length_replicate,gather,fulls_short (by decide),rest_short (by decide)]
    rfl
  have second := gather_few (w := branches) (node spanHash) (by simp : 2 ≤ [fullNode,zeroLeaf].length) (by decide)
  rw [leaves_wideFile,show maxLevel - 1 = 5 + 1 + 1 from rfl,gathered,first,gathered,second,gathered_singleton (by decide)]

theorem span_of_address {n m : Nat} {payload payload' : Bytes}
    (same : (chunk spanHash (putUint64 n ++ payload)).address = (chunk spanHash (putUint64 m ++ payload')).address) :
    n % 2 ^ 64 = m % 2 ^ 64 := by
  have prefixes : ∀ n payload, ((spanHash (putUint64 n ++ payload)).1).take spanSize = putUint64 n := by
    intro n payload
    show ((((putUint64 n ++ payload).take spanSize) ++ List.replicate hashSize 0).take hashSize).take spanSize = _
    rw [List.take_take,take_putUint64,show min spanSize hashSize = spanSize from rfl,take_putUint64]
  have spans := congrArg (List.take spanSize) same
  rw [show (chunk spanHash (putUint64 n ++ payload)).address = (spanHash (putUint64 n ++ payload)).1 from rfl,
    show (chunk spanHash (putUint64 m ++ payload')).address = (spanHash (putUint64 m ++ payload')).1 from rfl,
    prefixes,prefixes] at spans
  rw [← littleEndian_putUint64,← littleEndian_putUint64,spans]

theorem spanSum_replicate (n : Nat) (t : Trie) : spanSum (List.replicate n t) = n * t.span % 2 ^ 64 := by
  have sums : ∀ k, (List.replicate n t).foldl (fun sp t => (sp + t.span) % 2 ^ 64) (k % 2 ^ 64) =
      (k + n * t.span) % 2 ^ 64 := by
    induction n with
    | zero => simp
    | succ n ih =>
      intro k
      rw [List.replicate_succ,List.foldl_cons,ih,Nat.succ_mul]
      omega
  have sum := sums 0
  rwa [Nat.zero_add] at sum

theorem span_zeroLeaf : zeroLeaf.span = 262144 := by
  show littleEndian ((putUint64 (List.replicate chunkSize (0 : UInt8)).length ++ _).take spanSize) = _
  rw [take_putUint64,List.length_replicate]
  rfl

theorem span_fullNode : spanSum (List.replicate branches zeroLeaf) = 2147483648 := by
  rw [spanSum_replicate,span_zeroLeaf]
  rfl

theorem collisionFree_spans {l : List Chunk} (payload : Nat → Bytes)
    (told : ∀ c ∈ l, ∃ n < 2 ^ 64, c = chunk spanHash (putUint64 n ++ payload n)) : CollisionFree l := by
  intro c mem c' mem' same
  obtain ⟨n,less,rfl⟩ := told c mem
  obtain ⟨m,less',rfl⟩ := told c' mem'
  have spans := span_of_address same
  rw [Nat.mod_eq_of_lt less,Nat.mod_eq_of_lt less'] at spans
  rw [spans]

theorem span_node (ts : List Trie) : (node spanHash ts).span = spanSum ts := rfl

theorem spanSum_pair (t u : Trie) : spanSum [t,u] = ((0 + t.span) % 2 ^ 64 + u.span) % 2 ^ 64 := rfl

theorem collisionFree_wideFile : CollisionFree (node spanHash [fullNode,zeroLeaf]).chunks := by
  have size : (List.replicate chunkSize (0 : UInt8)).length = 262144 := List.length_replicate
  have whole : spanSum [fullNode,zeroLeaf] = 2147745792 := by
    rw [spanSum_pair,span_zeroLeaf,fullNode,span_node,span_fullNode]
    decide
  refine collisionFree_spans (fun n =>
    if n = 262144 then List.replicate chunkSize 0
    else if n = 2147483648 then (List.replicate branches zeroLeaf).flatMap (·.ref.1)
    else [fullNode,zeroLeaf].flatMap (·.ref.1)) fun c mem => ?_
  have leafChunk : c ∈ zeroLeaf.chunks → c = chunk spanHash (putUint64 262144 ++ List.replicate chunkSize 0) := by
    intro held
    have is := List.mem_singleton.mp held
    rwa [size] at is
  rcases List.mem_append.mp mem with below | own
  · obtain ⟨t,inside,held⟩ := List.mem_flatMap.mp below
    rcases List.mem_pair.mp inside with rfl | rfl
    · rw [fullNode] at held
      rcases List.mem_append.mp held with below | own
      · obtain ⟨t,inside,held⟩ := List.mem_flatMap.mp below
        rw [List.eq_of_mem_replicate inside] at held
        exact ⟨262144,by decide,leafChunk held⟩
      · refine ⟨2147483648,by decide,?_⟩
        rw [List.mem_singleton.mp own,nodeData,span_fullNode]
        rfl
    · exact ⟨262144,by decide,leafChunk held⟩
  · refine ⟨2147745792,by decide,?_⟩
    rw [List.mem_singleton.mp own,nodeData,whole]
    rfl

/-- The chunk of references under the root has index 1, the chunks under it go on from
    8195, and the announced length is 8195. -/
theorem indexes_skip : ∃ ref stored, upload spanHash [wideFile] = .ok (ref,stored) ∧ CollisionFree stored ∧
    ∃ j, New (storeOf stored) ref.1 0 = .ok j ∧ ∃ result s, ReadAt (storeOf stored) j wideFile 0 result s ∧
      ¬ Numbered wideFile.length s.fetched := by
  have length : wideFile.length = (branches + 1) * chunkSize := List.length_replicate
  have flat : [wideFile].flatten = wideFile := by simp
  have small : wideFile.length < 2 ^ 63 := by
    rw [length]
    decide
  obtain ⟨root,stored,run,chunks,part,data,gathers⟩ := upload_shape spanHash [wideFile] (by rw [flat]; exact small)
  rw [flat] at data gathers
  have is : root = node spanHash [fullNode,zeroLeaf] := by
    rw [gathered_wideFile] at gathers
    exact (List.singleton_inj.mp gathers).symm
  have free : CollisionFree stored := by
    intro c mem c' mem'
    exact collisionFree_wideFile c (is ▸ chunks.mem_iff.mp mem) c' (is ▸ chunks.mem_iff.mp mem')
  have kept : ∀ c ∈ root.chunks, ∀ i, storeOf stored c.address i = .ok c.data :=
    fun c mem i => storeOf_kept free (chunks.mem_iff.mpr mem)
  obtain ⟨j,opened,own,opens⟩ := New_opens small part data kept
  refine ⟨root.ref,stored,run,free,j,opened,?_⟩
  obtain ended | ⟨tasks,first,started,ends⟩ := (ReadAt_correct opens small 0).1
  · rw [opens.span,length] at ended
    exact absurd ended (by decide)
  obtain ⟨s,runs⟩ := ends.finishes first
  have read := ReadAt.done (by rw [opens.span,length]; decide) started runs
  refine ⟨_,s,read,fun numbered => ?_⟩
  have few := ((numbered_iff opens own small le_rfl gathers read).mp numbered).2
  rw [length] at few
  exact absurd few (by decide)

end FavorX.Indexes

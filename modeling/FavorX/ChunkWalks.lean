import FavorX.Effects

/-!
The walk over stored chunks that finds what a deletion has to remove. It guesses from the contents
of a chunk what the chunk is, and slices past the end of lists, entries and forks that are too
short. `walks_safely_iff` says that these are the only ways to crash.
-/
namespace FavorX.ChunkWalks
open FiniteMaps Shed Localstore Effects Manifest
open Batches hiding get put fail

/-! ### When a manifest can be read -/

/-- The contents of a manifest without the obfuscation. -/
def plain (data : Bytes) : Bytes :=
  data.take nodeObfuscationKeySize ++
    encryptDecrypt (data.drop nodeObfuscationKeySize) (data.take nodeObfuscationKeySize)

def versionHash (node : Bytes) : Bytes := slice node nodeObfuscationKeySize (nodeObfuscationKeySize + versionHashSize)

/-- The size of the references of a manifest, which is also that of its entry. -/
def refSize (node : Bytes) : Nat := (node.getD (nodeHeaderSize - 1) 0).toNat

/-- Where the forks of a manifest start: after its header, its entry and the set of bytes that have a fork. -/
def forksStart (node : Bytes) : Nat := nodeHeaderSize + refSize node + 32

/-- The bytes for which a manifest announces a fork. -/
def forkBytes (node : Bytes) : List Nat :=
  let offset := nodeHeaderSize + refSize node
  (List.range 256).filter (getUint8 (slice node offset (offset + 32)))

def Described (node : Bytes) (offset : Nat) : Prop := nodeTypeIsWithMetadataType (node.getD offset 0)

instance (node : Bytes) (offset : Nat) : Decidable (Described node offset) := inferInstanceAs (Decidable (_ = true))

def bareSize (node : Bytes) : Nat := nodeForkPreReferenceSize + refSize node

/-- The size that the fork at an offset announces. -/
def forkSize (node : Bytes) (offset : Nat) : Nat :=
  if Described node offset then
    bareSize node + nodeForkMetadataBytesSize +
      ((node.getD (offset + bareSize node) 0).toNat * 256 + (node.getD (offset + bareSize node + 1) 0).toNat)
  else bareSize node

/-- The offset of a fork, counted from the fork at a given offset. -/
def forkOffset (node : Bytes) (start : Nat) : Nat → Nat
  | 0 => start
  | k + 1 => forkOffset node start k + forkSize node (forkOffset node start k)

/-- The fork at an offset is complete and its path is neither empty nor too long. -/
def Complete (node : Bytes) (offset : Nat) : Prop :=
  offset + forkSize node offset ≤ node.length ∧
    ¬ ((node.getD (offset + 1) 0).toNat = 0 ∨ nodePrefixMaxSize < (node.getD (offset + 1) 0).toNat)

/-- The size of the metadata of the fork at an offset can be read, but the metadata is cut off. -/
def CutOff (node : Bytes) (offset : Nat) : Prop :=
  Described node offset ∧ offset + bareSize node + nodeForkMetadataBytesSize ≤ node.length ∧
    node.length < offset + forkSize node offset

/-- Of the forks from an offset on, the first that is not complete is not cut off. -/
def ForksReadable (node : Bytes) (start count : Nat) : Prop :=
  ∀ k < count, (∀ j < k, Complete node (forkOffset node start j)) → ¬ CutOff node (forkOffset node start k)

/-- A manifest of version 0.1 or 0.2 has room for its entry, and one of version 0.2 has no fork whose
    metadata is cut off after complete ones. Anything else is no manifest. -/
def Readable (data : Bytes) : Prop :=
  let node := plain data
  nodeHeaderSize ≤ data.length → (versionHash node = version01HashBytes ∨ versionHash node = version02HashBytes) →
    nodeHeaderSize + refSize node ≤ node.length ∧
      (versionHash node = version02HashBytes →
        ForksReadable node (forksStart node) (forkBytes node).length)

/-! ### Reading manifests -/

variable {data : Bytes}

variable (node : Bytes)

theorem fork01_fault (size offset : Nat) : fork01 node size offset ≠ .error .panicked := by
  unfold fork01 fromBytes
  dsimp only
  split
  · exact nofun
  split <;> exact nofun

/-- Reading a fork of version 0.2 panics if it is cut off, gives its size if it is complete, and fails otherwise. -/
theorem fork02_cases {offset : Nat} :
    (CutOff node offset ∧ fork02 node (refSize node) offset = .error .panicked) ∨
      (Complete node offset ∧ ∃ n, fork02 node (refSize node) offset = .ok (n,forkSize node offset)) ∨
      (¬ CutOff node offset ∧ ¬ Complete node offset ∧
        ∃ e, e ≠ .panicked ∧ fork02 node (refSize node) offset = .error e) := by
  have least : 32 ≤ bareSize node := Nat.le_add_right _ _
  have more : bareSize node ≤ forkSize node offset := by
    unfold forkSize
    split <;> omega
  have second : (slice node offset (offset + forkSize node offset)).getD 1 0 = node.getD (offset + 1) 0 :=
    by simp [slice,List.getD_eq_getElem?_getD,(by omega : 1 < forkSize node offset)]
  generalize run : fork02 node (refSize node) offset = r
  unfold CutOff Complete nodeForkMetadataBytesSize
  by_cases empty : node.length < offset + 1
  · cases (if_pos empty).symm.trans run
    exact Or.inr (Or.inr ⟨by omega,by omega,_,by exact nofun,rfl⟩)
  have run := (if_neg empty).symm.trans run
  by_cases described : Described node offset
  · have run := (if_pos described).symm.trans run
    have size : forkSize node offset = _ := if_pos described
    unfold nodeForkMetadataBytesSize at size
    by_cases short : node.length < offset + bareSize node + 2
    · cases (if_pos short).symm.trans run
      exact Or.inr (Or.inr ⟨by omega,by omega,_,by exact nofun,rfl⟩)
    have run := (if_neg short).symm.trans run
    by_cases cut : node.length < offset + forkSize node offset
    · cases (if_pos (size ▸ cut)).symm.trans run
      exact Or.inl ⟨⟨described,by omega,cut⟩,rfl⟩
    have run : (fromBytes02 (slice node offset (offset + forkSize node offset)) (refSize node)).map
        (·,forkSize node offset) = r := by
      rw [size]
      exact (if_neg (size ▸ cut)).symm.trans run
    simp only [fromBytes02,second] at run
    split at run
    · next bad => cases run; exact Or.inr (Or.inr ⟨by omega,fun complete => complete.2 bad,_,by exact nofun,rfl⟩)
    · next good => cases run; exact Or.inr (Or.inl ⟨⟨by omega,good⟩,_,rfl⟩)
  have run := (if_neg described).symm.trans run
  have size : forkSize node offset = bareSize node := if_neg described
  by_cases cut : node.length < offset + bareSize node
  · cases (if_pos cut).symm.trans run
    exact Or.inr (Or.inr ⟨fun other => described other.1,by omega,_,by exact nofun,rfl⟩)
  have run : (fromBytes (slice node offset (offset + forkSize node offset))).map (·,forkSize node offset) = r := by
    rw [size]
    exact (if_neg cut).symm.trans run
  simp only [fromBytes,second] at run
  split at run
  · next bad =>
    cases run
    exact Or.inr (Or.inr ⟨fun other => described other.1,fun complete => complete.2 bad,_,by exact nofun,rfl⟩)
  · next good => cases run; exact Or.inr (Or.inl ⟨⟨by omega,good⟩,_,rfl⟩)

theorem iterForks_fault {fork : Nat → Except Fault (Node × Nat)} (safe : ∀ offset, fork offset ≠ .error .panicked)
    (bytes : List Nat) (offset : Nat) : (iterForks fork bytes offset).2 ≠ some .panicked := by
  induction bytes generalizing offset with
  | nil => exact nofun
  | cons b bytes ih =>
    unfold iterForks
    rcases read : fork offset with e | ⟨n,size⟩
    · intro panicked
      exact safe offset (read.trans (congrArg Except.error (Option.some.inj panicked)))
    · exact ih (offset + size)

theorem forkOffset_succ (start k : Nat) :
    forkOffset node start (k + 1) = forkOffset node (start + forkSize node start) k := by
  induction k with
  | zero => rfl
  | succ k ih => rw [forkOffset,ih,forkOffset]

theorem forksReadable_succ (start count : Nat) :
    ForksReadable node start (count + 1) ↔
      ¬ CutOff node start ∧ (Complete node start → ForksReadable node (start + forkSize node start) count) := by
  constructor
  · intro readable
    refine ⟨readable 0 (Nat.succ_pos count) (fun j below => absurd below (Nat.not_lt_zero j)),?_⟩
    intro complete k below before
    rw [← forkOffset_succ]
    refine readable (k + 1) (Nat.succ_lt_succ below) (fun j earlier => ?_)
    cases j with
    | zero => exact complete
    | succ j =>
      rw [forkOffset_succ]
      exact before j (Nat.lt_of_succ_lt_succ earlier)
  rintro ⟨first,rest⟩ k below before
  cases k with
  | zero => exact first
  | succ k =>
    rw [forkOffset_succ]
    refine rest (before 0 (Nat.succ_pos k)) k (Nat.lt_of_succ_lt_succ below) (fun j earlier => ?_)
    rw [← forkOffset_succ]
    exact before (j + 1) (Nat.succ_lt_succ earlier)

theorem iterForks_panicked (bytes : List Nat) (start : Nat) :
    (iterForks (fork02 node (refSize node)) bytes start).2 = some .panicked ↔
      ¬ ForksReadable node start bytes.length := by
  induction bytes generalizing start with
  | nil =>
    refine ⟨nofun,fun cut => absurd ?_ cut⟩
    exact fun k below => absurd below (Nat.not_lt_zero k)
  | cons b bytes ih =>
    rw [List.length_cons,forksReadable_succ]
    unfold iterForks
    rcases fork02_cases node with ⟨cut,read⟩ | ⟨complete,n,read⟩ | ⟨whole,broken,e,other,read⟩
    · rw [read]
      exact ⟨fun _ both => both.1 cut,fun _ => rfl⟩
    · rw [read]
      have whole : ¬ CutOff node start := fun cut => absurd complete.1 (Nat.not_le.mpr cut.2.2)
      refine (ih _).trans ?_
      exact ⟨fun bad both => bad (both.2 complete),fun bad readable => bad ⟨whole,fun _ => readable⟩⟩
    · rw [read]
      refine ⟨fun panicked => absurd (Option.some.inj panicked) other,fun bad => absurd ?_ bad⟩
      exact ⟨whole,fun complete => absurd complete broken⟩

theorem unmarshalBinary_panicked (data : Bytes) : (unmarshalBinary data).2 = some .panicked ↔ ¬ Readable data := by
  have different : version01HashBytes ≠ version02HashBytes := by decide
  unfold unmarshalBinary Readable plain versionHash forkBytes forksStart
  dsimp only
  generalize data.take nodeObfuscationKeySize ++ _ = node
  generalize slice node _ (_ + versionHashSize) = version
  rw [show (node.getD (nodeHeaderSize - 1) 0).toNat = refSize node from rfl]
  by_cases short : data.length < nodeHeaderSize
  · rw [if_pos short]
    exact ⟨nofun,fun bad => absurd (fun enough => absurd short (Nat.not_lt.mpr enough)) bad⟩
  rw [if_neg short]
  have enough := Nat.not_lt.mp short
  by_cases first : version = version01HashBytes
  · rw [if_pos first]
    by_cases cut : node.length < nodeHeaderSize + refSize node
    · rw [if_pos cut]
      exact ⟨fun _ readable => absurd (readable enough (Or.inl first)).1 (Nat.not_le.mpr cut),fun _ => rfl⟩
    · rw [if_neg cut]
      refine ⟨fun panicked => absurd panicked (iterForks_fault (fork01_fault _ _) _ _),fun bad => absurd ?_ bad⟩
      exact fun _ _ => ⟨Nat.not_lt.mp cut,fun second => absurd (first.symm.trans second) different⟩
  rw [if_neg first]
  by_cases second : version = version02HashBytes
  · rw [if_pos second]
    by_cases cut : node.length < nodeHeaderSize + refSize node
    · rw [if_pos cut]
      exact ⟨fun _ readable => absurd (readable enough (Or.inr second)).1 (Nat.not_le.mpr cut),fun _ => rfl⟩
    · rw [if_neg cut,iterForks_panicked]
      refine not_congr ⟨fun readable _ _ => ⟨Nat.not_lt.mp cut,fun _ => readable⟩,fun readable => ?_⟩
      exact (readable enough (Or.inr second)).2 second
  · rw [if_neg second]
    refine ⟨nofun,fun bad => absurd (fun _ either => ?_) bad⟩
    exact either.elim (fun same => absurd same first) (fun same => absurd same second)

/-! ### What the walk does with a chunk -/

def payload (v : ChunkValue) : Bytes := v.data.drop 8

def span (v : ChunkValue) : Int := toInt64 (littleEndian (v.data.take 8))

/-- The chunk holds all that its span says, so it is a leaf or a manifest. -/
def Whole (v : ChunkValue) : Prop := span v ≤ (payload v).length

instance (v : ChunkValue) : Decidable (Whole v) := inferInstanceAs (Decidable (_ ≤ _))

def manifest (v : ChunkValue) : List Node × Option Fault := if Whole v then unmarshalBinary (payload v) else ([],none)

/-- The complete references in the data of a chunk that are not zero. -/
def references (data : Bytes) : List Address :=
  ((List.range (data.length / hashSize)).map (fun i => slice data (i * hashSize) (i * hashSize + hashSize))).filter
    (· ≠ List.replicate hashSize 0)

/-- Where the walk goes on from a chunk, and what it expects there: 1 stands for a chunk under a reference. -/
def calls (v : ChunkValue) (t : Nat) : List (Address × Nat) :=
  if Whole v ∧ t = 1 then []
  else if (manifest v).1 ≠ [] then (manifest v).1.map (fun n => (n.address,0))
  else (references (payload v)).map (fun a => (a,1))

/-- The walk slices the chunk within its bounds: it is a leaf, or it can be read as a manifest with forks,
    or, if it has none, it consists of whole references. -/
def Sliceable (v : ChunkValue) (t : Nat) : Prop :=
  (Whole v ∧ t = 1) ∨
    ((Whole v → Readable (payload v)) ∧ ((manifest v).1 ≠ [] ∨ hashSize ∣ (payload v).length))

def Call (s : Store) (c c' : Address × Nat) : Prop := ∃ v ∈ s.retrievalDataIndex.lookup c.1, c' ∈ calls v c.2

/-- A chunk refers to another one that the walk may go to. -/
def Refers (s : Store) (a b : Address) : Prop := ∃ t u, Call s (a,t) (b,u)

def Acyclic (s : Store) : Prop := ∀ a, ¬ Relation.TransGen (Refers s) a a

/-- Every chunk that the walk comes to is sliced within its bounds. -/
def SliceableFrom (s : Store) (c : Address × Nat) : Prop :=
  ∀ c', Relation.ReflTransGen (Call s) c c' → ∀ v ∈ s.retrievalDataIndex.lookup c'.1, Sliceable v c'.2

/-- A transfer list consists of whole addresses. Without one the walk is safe. -/
def Walkable (s : Store) (root : Address) : Prop :=
  match s.transferDataIndex.lookup root with
  | some data => hashSize ∣ data.length
  | none => SliceableFrom s (root,0)

def Returned (r : Except Err (List Address)) : Prop := r ≠ .error .panicked ∧ r ≠ .error .endless

/-! ### Walks that end -/

theorem sliceableFrom_iff {s : Store} {c : Address × Nat} :
    SliceableFrom s c ↔
      ∀ v ∈ s.retrievalDataIndex.lookup c.1, Sliceable v c.2 ∧ ∀ c' ∈ calls v c.2, SliceableFrom s c' := by
  constructor
  · intro all v held
    refine ⟨all c .refl v held,fun c' called d reached => all d ?_⟩
    exact Relation.ReflTransGen.head ⟨v,held,called⟩ reached
  intro here d reached w found
  rcases Relation.ReflTransGen.cases_head reached with rfl | ⟨c',⟨v,held,called⟩,reached'⟩
  · exact (here w found).1
  · exact (here v held).2 c' called d reached' w found

/-- Since there are finitely many chunks, acyclic references do not go down forever. -/
theorem acc_of_acyclic {s : Store} (acyclic : Acyclic s) (a : Address) : Acc (fun b a => Refers s a b) a := by
  have leaf : ∀ b, b ∉ s.retrievalDataIndex → Acc (fun b a => Refers s a b) b := by
    intro b missing
    refine Acc.intro b (fun c refers => ?_)
    obtain ⟨t,u,v,held,_⟩ := refers
    exact absurd (Finmap.mem_iff.mpr ⟨v,held⟩) missing
  let r : {a // a ∈ s.retrievalDataIndex.keys} → {a // a ∈ s.retrievalDataIndex.keys} → Prop :=
    fun b a => Relation.TransGen (Refers s) a.val b.val
  have irrefl : Std.Irrefl r := ⟨fun a => acyclic a.val⟩
  have wellFounded := Finite.wellFounded_of_trans_of_irrefl r
  by_cases stored : a ∈ s.retrievalDataIndex
  · have inside : ∀ k : {a // a ∈ s.retrievalDataIndex.keys}, Acc (fun b a => Refers s a b) k.val := by
      intro k
      induction k using wellFounded.induction with
      | _ k ih =>
        refine Acc.intro k.val (fun b refers => ?_)
        by_cases below : b ∈ s.retrievalDataIndex
        · exact ih ⟨b,Finmap.mem_keys.mpr below⟩ (.single refers)
        · exact leaf b below
    exact inside ⟨a,Finmap.mem_keys.mpr stored⟩
  · exact leaf a stored

variable {α : Type}

variable {a : Address}

section
variable {refuse : (k : Key) → Option (Value k) → Option Err} {st : Store × Local}

def Fine {α : Type} (refuse : (k : Key) → Option (Value k) → Option Err) (st : Store × Local) (p : Op α) : Prop :=
  ∃ r, through medium refuse p st = (.ok r,st)

def Crashes {α : Type} (refuse : (k : Key) → Option (Value k) → Option Err) (st : Store × Local) (p : Op α) : Prop :=
  through medium refuse p st = (.error .panicked,st)

/-- The program returns if the condition holds, and panics otherwise. -/
def Settles (refuse : (k : Key) → Option (Value k) → Option Err) (st : Store × Local) (p : Op α) (Q : Prop) : Prop :=
  (Fine refuse st p ∧ Q) ∨ (Crashes refuse st p ∧ ¬Q)

theorem settles_pure (a : α) : Settles refuse st (pure a) True := .inl ⟨⟨a,rfl⟩,trivial⟩

variable {P Q : Prop} {p : Op α}

theorem Settles.congr (settles : Settles refuse st p P) (same : P ↔ Q) : Settles refuse st p Q := by
  rwa [← same]

theorem settles_bind {β : Type} {f : α → Op β} (first : Settles refuse st p P)
    (rest : ∀ a, Settles refuse st (f a) Q) : Settles refuse st (p.bind f) (P ∧ Q) := by
  rcases first with ⟨⟨a,ran⟩,holds⟩ | ⟨crash,fails⟩
  · simpa [Settles,Fine,Crashes,ran,holds] using rest a
  · refine .inr ⟨?_,fun both => fails both.1⟩
    unfold Crashes at *
    rw [through_bind,crash]

theorem settles_gather {walk : α → Op (List Address)} {Q : α → Prop} {as : List α}
    (each : ∀ a ∈ as, Settles refuse st (walk a) (Q a)) : Settles refuse st (gather walk as) (∀ a ∈ as, Q a) := by
  induction as with
  | nil => exact (settles_pure []).congr (by simp)
  | cons a as ih =>
    rw [List.forall_mem_cons] at each
    exact (settles_bind each.1 (fun _ => settles_bind (ih each.2) (fun _ => settles_pure _))).congr (by simp)

section
variable {walk : Address → Nat → Op (List Address)} {Q : Address × Nat → Prop}

theorem settles_walkNodes {nodes : List Node} (each : ∀ n ∈ nodes, Settles refuse st (walk n.address 0) (Q (n.address,0))) :
    Settles refuse st (walkNodes walk nodes) (∀ n ∈ nodes, Q (n.address,0)) := by
  refine settles_gather fun n member => ?_
  rcases each n member with ⟨⟨r,ran⟩,holds⟩ | ⟨crash,fails⟩
  · exact .inl ⟨⟨r,by simp [ran,Except.toOption]⟩,holds⟩
  · refine .inr ⟨?_,fails⟩
    unfold Crashes at *
    simp [crash]

theorem mem_references :
    a ∈ references data ↔ ∃ i < data.length / hashSize,
      slice data (i * hashSize) (i * hashSize + hashSize) = a ∧ a ≠ List.replicate hashSize 0 := by
  simp only [references,List.mem_filter,List.mem_map,List.mem_range,decide_eq_true_eq]
  constructor
  · rintro ⟨⟨i,inside,same⟩,nonzero⟩
    exact ⟨i,inside,same,nonzero⟩
  · rintro ⟨i,inside,same,nonzero⟩
    exact ⟨⟨i,inside,same⟩,nonzero⟩

theorem settles_walkRefs (each : ∀ a ∈ references data, Settles refuse st (walk a 1) (Q (a,1))) :
    Settles refuse st (walkRefs walk data) (hashSize ∣ data.length ∧ ∀ a ∈ references data, Q (a,1)) := by
  let ref i := slice data (i * hashSize) (i * hashSize + hashSize)
  have settles : Settles refuse st (walkRefs walk data)
      (∀ i ∈ List.range ((data.length + (hashSize - 1)) / hashSize), i < data.length / hashSize ∧
        (ref i ≠ List.replicate hashSize 0 → Q (ref i,1))) := by
    refine settles_gather fun i _ => ?_
    dsimp only
    split
    · next cut =>
      refine .inr ⟨rfl,fun both => absurd both.1 ?_⟩
      unfold hashSize at *
      omega
    next whole =>
    have inside : i < data.length / hashSize := by
      unfold hashSize at *
      omega
    split
    · next zero => exact (settles_pure []).congr (by simp [inside,ref,zero])
    · next nonzero =>
      exact (each _ (mem_references.mpr ⟨i,inside,rfl,nonzero⟩)).congr (by simp [inside,ref,nonzero])
  refine settles.congr ⟨fun all => ⟨?_,fun a member => ?_⟩,fun both i member => ?_⟩
  · by_contra rest
    refine absurd (all (data.length / hashSize) ?_).1 (lt_irrefl _)
    rw [List.mem_range]
    unfold hashSize at *
    omega
  · obtain ⟨i,inside,rfl,nonzero⟩ := mem_references.mp member
    refine (all i ?_).2 nonzero
    rw [List.mem_range]
    unfold hashSize at *
    omega
  · have inside : i < data.length / hashSize := by
      rw [List.mem_range] at member
      unfold hashSize at *
      omega
    exact ⟨inside,fun nonzero => both.2 _ (mem_references.mpr ⟨i,inside,rfl,nonzero⟩)⟩

theorem settles_walkChunk (ch : Address) {v : ChunkValue} {t : Nat} (inner : ¬ (Whole v ∧ t = 1))
    (each : ∀ c ∈ calls v t, Settles refuse st (walk c.1 c.2) (Q c)) :
    Settles refuse st (walkChunk walk ch (payload v) (manifest v)) (Sliceable v t ∧ ∀ c ∈ calls v t, Q c) := by
  have sliceable : Sliceable v t ↔ (Whole v → Readable (payload v)) ∧
      ((manifest v).1 ≠ [] ∨ hashSize ∣ (payload v).length) := by
    exact ⟨fun either => either.resolve_left inner,Or.inr⟩
  have readable : (manifest v).2 = some .panicked ↔ ¬ (Whole v → Readable (payload v)) := by
    unfold manifest
    by_cases whole : Whole v
    · rw [if_pos whole,unmarshalBinary_panicked]
      exact not_congr ⟨fun readable _ => readable,fun readable => readable whole⟩
    · rw [if_neg whole]
      exact ⟨nofun,fun bad => absurd (fun w => absurd w whole) bad⟩
  rw [sliceable]
  unfold walkChunk
  by_cases panicked : (manifest v).2 = some .panicked
  · rw [if_pos panicked]
    exact .inr ⟨rfl,fun both => readable.mp panicked both.1.1⟩
  rw [if_neg panicked]
  have decoded := not_not.mp (fun bad => panicked (readable.mpr bad))
  by_cases forks : (manifest v).1 ≠ []
  · have called : calls v t = (manifest v).1.map (fun n => (n.address,0)) := (if_neg inner).trans (if_pos forks)
    rw [called,List.forall_mem_map] at each
    simp only [called,List.forall_mem_map,if_pos forks]
    refine (settles_bind (settles_walkNodes each) (fun _ => settles_pure _)).congr ?_
    exact ⟨fun both => ⟨⟨decoded,.inl forks⟩,both.1⟩,fun both => ⟨both.2,trivial⟩⟩
  have called : calls v t = (references (payload v)).map (fun a => (a,1)) := (if_neg inner).trans (if_neg forks)
  rw [called,List.forall_mem_map] at each
  simp only [called,List.forall_mem_map,if_neg forks]
  have nodes : Settles refuse st (walkNodes walk (manifest v).1) True := by
    rw [not_not.mp forks]
    exact settles_pure []
  refine (settles_bind nodes (fun _ => settles_bind (settles_walkRefs each) (fun _ => settles_pure _))).congr ?_
  exact ⟨fun ⟨_,⟨divides,all⟩,_⟩ => ⟨⟨decoded,.inr divides⟩,all⟩,
    fun both => ⟨trivial,⟨both.1.2.resolve_left forks,both.2⟩,trivial⟩⟩

end

variable (refuse) in
theorem getChunk_stored {v : ChunkValue} (held : st.1.retrievalDataIndex.lookup a = some v) (sized : 8 ≤ v.data.length)
    (fuel t : Nat) :
    through medium refuse (getChunk (fuel + 1) a t) st =
      if Whole v ∧ t = 1 then (.ok [a],st)
      else through medium refuse (walkChunk (getChunk fuel) a (payload v) (manifest v)) st := by
  have enough : ¬ v.data.length < 8 := Nat.not_lt.mpr sized
  simp only [getChunk,bind_eq,through_bind,hasData,addressToItem,held,Option.isSome_some,if_true,through_getItem,
    findData,Option.map_some,foundData,Option.getD_some,enough,if_false]
  change through medium refuse
    (if Whole v ∧ t = 1 then _ else walkChunk (getChunk fuel) a (payload v) (manifest v)) st = _
  split <;> rfl

theorem common_bound {P : α → Nat → Prop} {l : List α} (each : ∀ a ∈ l, ∃ bound, ∀ n, bound ≤ n → P a n) :
    ∃ bound, ∀ a ∈ l, ∀ n, bound ≤ n → P a n := by
  induction l with
  | nil => exact ⟨0,nofun⟩
  | cons a l ih =>
    obtain ⟨first,here⟩ := each a List.mem_cons_self
    obtain ⟨rest,there⟩ := ih (fun b member => each b (List.mem_cons_of_mem a member))
    refine ⟨max first rest,List.forall_mem_cons.mpr ⟨fun n above => ?_,fun b member n above => ?_⟩⟩
    · exact here n ((Nat.le_max_left first rest).trans above)
    · exact there b member n ((Nat.le_max_right first rest).trans above)

variable (refuse) in
/-- With enough stack, a walk returns if every chunk it comes to can be sliced, and panics otherwise. -/
theorem settles_getChunk (sized : ∀ a v, st.1.retrievalDataIndex.lookup a = some v → 8 ≤ v.data.length)
    (acyclic : Acyclic st.1) (a : Address) (t : Nat) :
    ∃ depth, ∀ fuel, depth ≤ fuel → Settles refuse st (getChunk fuel a t) (SliceableFrom st.1 (a,t)) := by
  induction acc_of_acyclic acyclic a generalizing t with
  | intro a _ ih =>
    cases held : st.1.retrievalDataIndex.lookup a with
    | none =>
      refine ⟨1,fun fuel above => .inl ?_⟩
      obtain ⟨fuel,rfl⟩ := Nat.exists_eq_add_of_le' above
      refine ⟨⟨[],by simp [getChunk,addressToItem,held]⟩,sliceableFrom_iff.mpr (fun v found => ?_)⟩
      cases held.symm.trans found
    | some v =>
      obtain ⟨depth,below⟩ := common_bound (l := calls v t) (fun c called => ih c.1 ⟨t,c.2,v,held,called⟩ c.2)
      refine ⟨depth + 1,fun fuel above => ?_⟩
      obtain ⟨fuel,rfl⟩ := Nat.exists_eq_add_of_le' (Nat.one_le_of_lt above)
      have from_iff : SliceableFrom st.1 (a,t) ↔ Sliceable v t ∧ ∀ c ∈ calls v t, SliceableFrom st.1 c := by
        rw [sliceableFrom_iff]
        exact ⟨fun all => all v held,fun both w found => by rwa [← Option.some.inj (held.symm.trans found)]⟩
      have run := getChunk_stored refuse held (sized a v held) fuel t
      by_cases leaf : Whole v ∧ t = 1
      · rw [if_pos leaf] at run
        refine .inl ⟨⟨_,run⟩,from_iff.mpr ⟨Or.inl leaf,fun c called => ?_⟩⟩
        rw [calls,if_pos leaf] at called
        cases called
      rw [if_neg leaf] at run
      unfold Settles Fine Crashes
      rw [run,from_iff]
      exact settles_walkChunk a leaf (fun c called => below c called fuel (Nat.le_of_succ_le_succ above))

end

theorem run_quiet {p : Op α} (quiet : p.Quiet) (d : Driver) (st : Store × Local) :
    (run d p st).1 = (through medium refused p st).1 := by
  cases d with
  | wiredtiger => rfl
  | leveldb =>
    unfold run
    rw [deferred_of_apart medium refused (apart_quiet quiet)]

theorem getAllChunks_result (cfg : Config) (d : Driver) (root : Address) (st : Store × Local) :
    (run d (getAllChunks cfg root) st).1 =
      match st.1.transferDataIndex.lookup root with
      | some data => addressesOf data
      | none => (through medium refused (getChunk cfg.depth root 0) st).1 := by
  rw [run_quiet (quiet_getAllChunks cfg root)]
  unfold getAllChunks
  simp only [bind_eq,through_bind,getTransfer_run]
  cases st.1.transferDataIndex.lookup root with
  | none => rfl
  | some data =>
    dsimp only
    cases addressesOf data <;> rfl

theorem addressesOf_returned : Returned (addressesOf data) ↔ hashSize ∣ data.length := by
  unfold addressesOf
  rw [Nat.dvd_iff_mod_eq_zero]
  split
  · next rest => exact ⟨fun returned => absurd rfl returned.1,fun whole => absurd whole rest⟩
  · next whole => exact ⟨fun _ => not_not.mp whole,fun _ => ⟨nofun,nofun⟩⟩

def single (data : Bytes) : Store := { retrievalDataIndex := (∅ : Map Address ChunkValue).insert [1] ⟨1,1,1,1,data⟩ }

theorem single_stored {v : ChunkValue} (held : (single data).retrievalDataIndex.lookup a = some v) :
    a = [1] ∧ v = ⟨1,1,1,1,data⟩ := by
  simp only [single,lookup_insert_eq] at held
  split at held
  · next same => exact ⟨same,(Option.some.inj held).symm⟩
  · cases held

theorem single_acyclic (other : ∀ t, ∀ c ∈ calls ⟨1,1,1,1,data⟩ t, c.1 ≠ [1]) : Acyclic (single data) := by
  have refers : ∀ {a b}, Refers (single data) a b → a = [1] ∧ b ≠ [1] := by
    rintro a b ⟨t,u,v,held,called⟩
    obtain ⟨rfl,rfl⟩ := single_stored held
    exact ⟨rfl,other t _ called⟩
  intro a cycle
  obtain ⟨b,first,rest⟩ := Relation.TransGen.head'_iff.mp cycle
  rcases Relation.ReflTransGen.cases_head rest with rfl | ⟨c,second,_⟩
  · exact (refers first).2 (refers first).1
  · exact (refers first).2 (refers second).1

/-- A chunk of one reference, to a chunk that is not stored. -/
def referring : Bytes := 100 :: List.replicate 7 0 ++ List.replicate 32 2

def small : Bytes := 3 :: List.replicate 7 0 ++ [7,7,7]

theorem calls_referring (t : Nat) : calls ⟨1,1,1,1,referring⟩ t = [(List.replicate 32 2,1)] := by
  have inner : ¬ Whole ⟨1,1,1,1,referring⟩ := by decide
  rw [calls,if_neg (fun leaf => inner leaf.1)]
  decide

theorem calls_small (t : Nat) : calls ⟨1,1,1,1,small⟩ t = [] := by
  unfold calls
  split
  · rfl
  · decide

end FavorX.ChunkWalks

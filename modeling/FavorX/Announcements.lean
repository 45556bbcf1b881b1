import FavorX.Presence
import FavorX.Bits

/-!
The vectors of the chunk store and what was put. The vector of a root and an
overlay has exactly the bits that were announced since it was last removed, and
is as long as the longest of the announcements (`vectors_announced`).
-/
namespace FavorX.Announcements
open FiniteMaps Shed Bits Presence

theorem mask_natCast (i : Nat) : mask (i : Int) = unit i := by
  have nonneg : ¬ (i : Int) < 0 := by omega
  simp [mask,unit,nonneg]

theorem tdiv_eight (i : Nat) : ((i : Int).tdiv 8) = ((i / 8 : Nat) : Int) := by
  rw [Int.tdiv_eq_ediv_of_nonneg (by omega)]
  omega

variable {bv : BitVector}

theorem get_inside {i : Nat} (inside : i < 8 * bv.b.length) : bv.get i = .ok (bitAt bv.b i) := by
  have held : i / 8 < bv.b.length := by omega
  have nonneg : ¬ ((i / 8 : Nat) : Int) < 0 := by omega
  simp only [BitVector.get,tdiv_eight,nonneg,if_false,Int.toNat_natCast,List.getElem?_eq_getElem held,mask_natCast,
    and_unit]
  simp [bitAt,List.getElem?_eq_getElem held]

theorem get_beyond {i : Nat} (beyond : 8 * bv.b.length ≤ i) : bv.get i = .error .panicked := by
  have outside : bv.b.length ≤ i / 8 := by omega
  have nonneg : ¬ ((i / 8 : Nat) : Int) < 0 := by omega
  simp only [BitVector.get,tdiv_eight,nonneg,if_false,Int.toNat_natCast,List.getElem?_eq_none outside]

theorem get_eq_true {bv : BitVector} {i : Nat} : bv.get i = .ok true ↔ bitAt bv.b i = true := by
  by_cases inside : i < 8 * bv.b.length
  · simp [get_inside inside]
  · have beyond : 8 * bv.b.length ≤ i := by omega
    simp [get_beyond beyond,bitAt_beyond beyond]

theorem bitAt_or_set {b : Bytes} {i : Nat} (bit : bitAt b i = true) (j : Nat) :
    bitAt b j = (bitAt b j || decide (i = j)) := by
  by_cases same : i = j
  · simp [← same,bit]
  · simp [same]

theorem set_inside {i : Nat} (inside : i < 8 * bv.b.length) :
    ∃ bv', bv.set i true = .ok bv' ∧ bv'.len = bv.len ∧ bv'.b.length = bv.b.length ∧
      ∀ j, bitAt bv'.b j = (bitAt bv.b j || decide (i = j)) := by
  unfold BitVector.set
  rw [get_inside inside]
  cases bit : bitAt bv.b i with
  | true => exact ⟨bv,rfl,rfl,rfl,bitAt_or_set bit⟩
  | false =>
    refine ⟨{ bv with b := Bits.flip bv.b i },?_,rfl,length_flip i,fun j => ?_⟩
    · rfl
    · rw [bitAt_flip inside]
      by_cases same : i = j
      · simp [← same,bit]
      · simp [same]

theorem setBytes_fits {bs : Bytes} (fits : bs.length ≤ bv.b.length) :
    ∃ bv', bv.setBytes bs = .ok bv' ∧ bv'.len = bv.len ∧ bv'.b.length = bv.b.length ∧
      ∀ j, bitAt bv'.b j = (bitAt bv.b j || bitAt bs j) := by
  -- after `n` rounds the first `n` bits of the argument are set
  have rounds : ∀ n ≤ bs.length * 8, ∃ bv', (List.range n).foldlM (fun (bv : BitVector) (i : Nat) =>
      bs[i / 8]?.elim (pure bv) (fun x => if x &&& mask i != 0 then bv.set i true else pure bv)) bv = .ok bv' ∧ bv'.len = bv.len ∧ bv'.b.length = bv.b.length ∧
      ∀ j, bitAt bv'.b j = (bitAt bv.b j || (decide (j < n) && bitAt bs j)) := by
    intro n within
    induction n with
    | zero => exact ⟨bv,rfl,rfl,rfl,by simp⟩
    | succ n ih =>
      obtain ⟨now,reached,len,length,bits⟩ := ih (by omega)
      have held : n / 8 < bs.length := by omega
      have read : (bs[n / 8] &&& mask (n : Int) != 0) = bitAt bs n := by
        rw [mask_natCast,and_unit]
        simp [bitAt,List.getElem?_eq_getElem held]
      have further {j : Nat} (other : n ≠ j) : j < n + 1 ↔ j < n := by omega
      rw [List.range_succ,List.foldlM_append,reached]
      simp only [List.foldlM_cons,List.foldlM_nil,List.getElem?_eq_getElem held,Option.elim_some,read]
      cases bit : bitAt bs n with
      | true =>
        obtain ⟨next,set,nextLen,nextLength,nextBits⟩ :=
          set_inside (show n < 8 * now.b.length by omega)
        refine ⟨next,?_,nextLen.trans len,nextLength.trans length,?_⟩
        · simp only [bind,Except.bind,if_true,set]
          rfl
        intro j
        rw [nextBits,bits]
        by_cases equal : n = j
        · simp [← equal,bit]
        · simp [equal,further equal]
      | false =>
        refine ⟨now,rfl,len,length,?_⟩
        intro j
        rw [bits]
        by_cases equal : n = j
        · simp [← equal,bit]
        · simp [further equal]
  have short : ¬ bv.b.length < bs.length := by omega
  obtain ⟨bv',reached,len,length,bits⟩ := rounds _ le_rfl
  refine ⟨bv',?_,len,length,?_⟩
  · unfold BitVector.setBytes
    rw [if_neg short,← reached]
    congr 2
    funext bv i
    cases bs[i / 8]? <;> rfl
  intro j
  rw [bits]
  by_cases inside : j < bs.length * 8
  · simp [inside]
  · simp [inside,bitAt_beyond (b := bs) (i := j) (by omega)]

/-- The vectors that `BitVector.new` makes: no byte more than the length needs. -/
def Sized (bv : BitVector) : Prop := 0 < bv.len ∧ bv.b.length = (bv.len.toNat + 7) / 8

theorem new_eq {l : Int} (positive : 0 < l) :
    BitVector.new l = .ok ⟨l,List.replicate ((l.toNat + 7) / 8) 0⟩ := by
  obtain ⟨n,rfl⟩ := Int.eq_ofNat_of_zero_le (show 0 ≤ l by omega)
  have length : (if (n : Int).tmod 8 = 0 ∧ (n : Int) ≠ 0 then (n : Int).tdiv 8 else (n : Int).tdiv 8 + 1) =
      (((n + 7) / 8 : Nat) : Int) := by
    rw [Int.tmod_eq_emod_of_nonneg (by omega),tdiv_eight]
    split <;> omega
  have nonneg : ¬ (((n + 7) / 8 : Nat) : Int) < 0 := by omega
  have long : ¬ (n : Int) ≤ 0 := by omega
  have wide : ¬ ((((n + 7) / 8 : Nat) : Int) * 8 < (n : Int)) := by omega
  simp only [BitVector.new,length,nonneg,if_false,Int.toNat_natCast,BitVector.newFromBytes,long,
    List.length_replicate,wide]

/-- The announcements that a put or a removal leaves for a vector: a put adds
    its bits and lengths, a removal forgets all of them. -/
def announce (t : ChunkType) (root overlay : Address) (told : List (Int × Int)) : Op → List (Int × Int)
  | .put _ u reference providers =>
    if u = t ∧ reference = root then
      told ++ (providers.filter (fun p => p.overlay = overlay)).map (fun p => (p.bit,p.len))
    else told
  | .remove u reference o => if u = t ∧ reference = root ∧ o = overlay then [] else told
  | .removeAll u reference => if u = t ∧ reference = root then [] else told

/-- What was announced for a vector since it was last removed. -/
def announced (t : ChunkType) (root overlay : Address) (ops : List Op) : List (Int × Int) :=
  ops.foldl (announce t root overlay) []

/-- A put of bits announces indexes below the announced lengths. -/
def Indexed : Op → Prop
  | .put _ t _ providers => t = .discover ∨ ∀ p ∈ providers, 0 ≤ p.bit ∧ p.bit < p.len
  | _ => True

/-- A vector has the announced bits and no other, and is as long as the longest
    announcement. -/
def Shows (told : List (Int × Int)) : Option Entry → Prop
  | none => told = []
  | some e => Sized e.bit ∧ (∀ i : Nat, bitAt e.bit.b i = true ↔ ∃ len, ((i : Int),len) ∈ told) ∧
      (∀ a ∈ told, a.2 ≤ e.bit.len) ∧ ∃ a ∈ told, a.2 = e.bit.len

theorem Sized.same {bv' : BitVector} (sized : Sized bv) (len : bv'.len = bv.len) (length : bv'.b.length = bv.b.length) :
    Sized bv' := by
  unfold Sized
  rw [len,length]
  exact sized

theorem sized_room (sized : Sized bv) {i : Nat} (inside : (i : Int) < bv.len) : i < 8 * bv.b.length := by
  have length := sized.2
  omega

theorem shows_snoc {told : List (Int × Int)} {old new : Entry} {i : Nat} {len : Int} (shown : Shows told (some old))
    (sized : Sized new.bit) (longest : new.bit.len = max old.bit.len len)
    (bits : ∀ j, bitAt new.bit.b j = (bitAt old.bit.b j || decide (i = j))) :
    Shows (told ++ [((i : Int),len)]) (some new) := by
  obtain ⟨_,oldBits,oldLen,⟨a,member,reached⟩⟩ := shown
  refine ⟨sized,?_,?_,?_⟩
  · intro j
    rw [bits,Bool.or_eq_true,oldBits,decide_eq_true_iff]
    constructor
    · rintro (⟨l,member⟩ | same)
      · exact ⟨l,List.mem_append_left _ member⟩
      · subst same
        exact ⟨len,by simp⟩
    rintro ⟨l,member⟩
    rcases List.mem_append.mp member with before | last
    · exact .inl ⟨l,before⟩
    · simp only [List.mem_singleton,Prod.mk.injEq,Int.natCast_inj] at last
      exact .inr last.1.symm
  · intro a member
    rcases List.mem_append.mp member with before | last
    · have := oldLen a before
      omega
    · simp only [List.mem_singleton] at last
      subst last
      exact longest ▸ le_max_right _ _
  · rcases le_total old.bit.len len with short | long
    · exact ⟨((i : Int),len),by simp,by rw [longest,max_eq_right short]⟩
    · exact ⟨a,List.mem_append_left _ member,by rw [longest,max_eq_left long,reached]⟩

theorem putBit_shows {m : Vectors} {root overlay : Address} {told : List (Int × Int)} {bit len : Int}
    (shown : Shows told (vectorAt m root overlay)) (nonneg : 0 ≤ bit) (below : bit < len) :
    ∃ data, putBit m root overlay bit len = .ok data ∧
      Shows (told ++ [(bit,len)]) (data.or (vectorAt m root overlay)) := by
  obtain ⟨i,rfl⟩ := Int.eq_ofNat_of_zero_le nonneg
  have positive : 0 < len := by omega
  have fresh : Sized ⟨len,List.replicate ((len.toNat + 7) / 8) 0⟩ := ⟨positive,List.length_replicate⟩
  unfold putBit
  cases known : vectorAt m root overlay with
  | none =>
    rw [known] at shown
    obtain ⟨bv,set,bvLen,bvLength,bits⟩ := set_inside (sized_room fresh below)
    simp only [new_eq positive,bind,Except.bind,set]
    have empty : told = [] := shown
    have whole : bv.len = len := bvLen
    rw [empty]
    refine ⟨some ⟨bv,0⟩,rfl,fresh.same bvLen bvLength,?_,by simp [whole],by simp [whole]⟩
    intro j
    rw [bits,bitAt_replicate]
    simp [eq_comm]
  | some data =>
    rw [known] at shown
    have sized := shown.1
    by_cases short : data.bit.len < len
    · -- the vector is copied into a longer one
      have fits : data.bit.b.length ≤
          (⟨len,List.replicate ((len.toNat + 7) / 8) 0⟩ : BitVector).b.length := by
        rw [List.length_replicate,sized.2]
        omega
      obtain ⟨copy,copied,copyLen,copyLength,copyBits⟩ := setBytes_fits fits
      have copySized : Sized copy := fresh.same copyLen copyLength
      have inside : (i : Int) < copy.len := by rw [copyLen]; exact below
      obtain ⟨bv,set,bvLen,bvLength,bits⟩ := set_inside (sized_room copySized inside)
      simp only [short,if_true,new_eq positive,bind,Except.bind,copied,set]
      have whole : bv.len = len := bvLen.trans copyLen
      refine ⟨some ⟨bv,0⟩,rfl,shows_snoc shown (copySized.same bvLen bvLength) ?_ ?_⟩
      · rw [whole,max_eq_right short.le]
      · intro j
        rw [bits,copyBits,bitAt_replicate,Bool.false_or]
    have inside : (i : Int) < data.bit.len := by omega
    have room := sized_room sized inside
    simp only [short,if_false,get_inside room,bind,Except.bind]
    cases present : bitAt data.bit.b i with
    | true =>
      exact ⟨none,rfl,shows_snoc shown sized (by rw [max_eq_left (by omega)]) (bitAt_or_set present)⟩
    | false =>
      obtain ⟨bv,set,bvLen,bvLength,bits⟩ := set_inside room
      simp only [Bool.false_eq_true,if_false,set]
      refine ⟨some ⟨bv,0⟩,rfl,shows_snoc shown (sized.same bvLen bvLength) ?_ bits⟩
      rw [bvLen,max_eq_left (by omega)]

/-- Every vector of a kind shows what was announced for it. -/
def ShowsAll (t : ChunkType) (told : Address → Address → List (Int × Int)) (cs : Chunkstore) : Prop :=
  ∀ root overlay, Shows (told root overlay) (vectorAt (cs.vectors t) root overlay)

variable {t : ChunkType}

theorem newVector_bits (bits : t ≠ .discover) (cs : Chunkstore) (now : Int) {reference : Address} {p : Provider} :
    cs.newVector now t reference p = putBit (cs.vectors t) reference p.overlay p.bit p.len := by
  cases t with
  | discover => exact absurd rfl bits
  | service => rfl
  | source => rfl

theorem put_other {t u : ChunkType} (other : u ≠ t) (now : Int) (reference : Address) (providers : List Provider)
    (cs : Chunkstore) : (cs.put now t reference providers).2.vectors u = cs.vectors u := by
  refine Chunkstore.put_rule (P := fun cs' => cs'.vectors u = cs.vectors u) (fun cs' p data same _ => ?_) providers rfl
  rw [Chunkstore.vectors_store,if_neg other,same]

variable {told : Address → Address → List (Int × Int)}

/-- A put of bits succeeds for every provider, and adds its announcements. -/
theorem put_shows (bits : t ≠ .discover) (now : Int) (reference : Address) (providers : List Provider)
    (indexed : ∀ p ∈ providers, 0 ≤ p.bit ∧ p.bit < p.len) {cs : Chunkstore} (shown : ShowsAll t told cs) :
    (cs.put now t reference providers).1 = .ok () ∧
      ShowsAll t (fun root overlay => announce t root overlay (told root overlay) (.put now t reference providers))
        (cs.put now t reference providers).2 := by
  induction providers generalizing cs told with
  | nil =>
    refine ⟨rfl,?_⟩
    intro root overlay
    simpa [announce,Chunkstore.put] using shown root overlay
  | cons p providers ih =>
    obtain ⟨nonneg,below⟩ := indexed p (List.mem_cons_self ..)
    obtain ⟨data,put,stored⟩ := putBit_shows (shown reference p.overlay) nonneg below
    have next : ShowsAll t (fun root overlay => if reference = root ∧ p.overlay = overlay then
        told root overlay ++ [(p.bit,p.len)] else told root overlay) (data.elim cs (cs.store t reference p.overlay)) := by
      intro root overlay
      by_cases here : reference = root ∧ p.overlay = overlay
      · obtain ⟨rfl,rfl⟩ := here
        cases data with
        | none => simpa using stored
        | some data => simpa [Chunkstore.vectorAt_store] using stored
      have there : ¬ (root = reference ∧ overlay = p.overlay) := fun same => here ⟨same.1.symm,same.2.symm⟩
      cases data with
      | none => simpa [here] using shown root overlay
      | some data => simpa [Chunkstore.vectorAt_store,here,there] using shown root overlay
    have rest := ih (fun q member => indexed q (List.mem_cons_of_mem _ member)) next
    have step : cs.put now t reference (p :: providers) =
        (data.elim cs (cs.store t reference p.overlay)).put now t reference providers := by
      rw [Chunkstore.put,Chunkstore.putOne_eq,newVector_bits bits,put]
      rfl
    rw [step]
    refine ⟨rest.1,?_⟩
    intro root overlay
    have told := rest.2 root overlay
    by_cases root' : reference = root <;> by_cases overlay' : p.overlay = overlay <;>
      simpa [announce,root',overlay'] using told

theorem apply_shows (bits : t ≠ .discover) {op : Op} (indexed : Indexed op) {cs : Chunkstore}
    (shown : ShowsAll t told cs) :
    ShowsAll t (fun root overlay => announce t root overlay (told root overlay) op) (cs.apply op) := by
  cases op with
  | put now u reference providers =>
    by_cases same : u = t
    · subst same
      exact (put_shows bits now reference providers (indexed.resolve_left bits) shown).2
    · intro root overlay
      simp only [announce,same,false_and,if_false,Chunkstore.apply,put_other (Ne.symm same)]
      exact shown root overlay
  | remove u reference o =>
    intro root overlay
    simp only [announce,Chunkstore.apply,Chunkstore.vectorAt_remove]
    by_cases here : u = t ∧ reference = root ∧ o = overlay
    · simp [here,Shows]
    have there : ¬ (t = u ∧ root = reference ∧ overlay = o) :=
      fun same => here ⟨same.1.symm,same.2.1.symm,same.2.2.symm⟩
    rw [if_neg here,if_neg there]
    exact shown root overlay
  | removeAll u reference =>
    intro root overlay
    simp only [announce,Chunkstore.apply,Chunkstore.vectorAt_removeAll]
    by_cases here : u = t ∧ reference = root
    · simp [here,Shows]
    · have there : ¬ (t = u ∧ root = reference) := fun same => here ⟨same.1.symm,same.2.symm⟩
      rw [if_neg here,if_neg there]
      exact shown root overlay

theorem run_shows (bits : t ≠ .discover) {ops : List Op} (indexed : ∀ op ∈ ops, Indexed op) {cs : Chunkstore}
    (shown : ShowsAll t told cs) :
    ShowsAll t (fun root overlay => ops.foldl (announce t root overlay) (told root overlay)) (cs.run ops) := by
  induction ops generalizing cs told with
  | nil => exact shown
  | cons op ops ih =>
    have next := apply_shows bits (indexed op (List.mem_cons_self ..)) shown
    exact ih (fun o member => indexed o (List.mem_cons_of_mem _ member)) next

/-- After every history of a new chunk store, each vector of `service` and of
    `source` has exactly the bits announced for it since it was last removed,
    and at least every announced length. There is a vector exactly when
    something was announced. -/
theorem vectors_announced (ops : List Op) (indexed : ∀ op ∈ ops, Indexed op) (t : ChunkType) (bits : t ≠ .discover)
    (root overlay : Address) :
    match vectorAt ((({} : Chunkstore).run ops).vectors t) root overlay with
    | none => announced t root overlay ops = []
    | some e => announced t root overlay ops ≠ [] ∧
        (∀ i : Nat, e.bit.get i = .ok true ↔ ∃ len, ((i : Int),len) ∈ announced t root overlay ops) ∧
        ∀ a ∈ announced t root overlay ops, a.2 ≤ e.bit.len := by
  have start : ShowsAll t (fun _ _ => []) ({} : Chunkstore) := by
    intro root overlay
    cases t <;> simp [Chunkstore.vectors,vectorAt,Shows]
  have shown := run_shows bits indexed start root overlay
  cases found : vectorAt ((({} : Chunkstore).run ops).vectors t) root overlay with
  | none =>
    rw [found] at shown
    exact shown
  | some e =>
    rw [found] at shown
    obtain ⟨_,held,lengths,⟨a,member,_⟩⟩ := shown
    exact ⟨List.ne_nil_of_mem member,fun i => get_eq_true.trans (held i),lengths⟩

/-- Two chunks of a file of nine, the first before its length is known, then one
    more with a shorter length. -/
def growing : List Op :=
  [.put 0 .service [1] [⟨[7],2,3,[]⟩],.put 0 .service [1] [⟨[7],8,9,[]⟩],.put 0 .service [1] [⟨[7],0,1,[]⟩]]

theorem vectors_announced_growing :
    match vectorAt ((({} : Chunkstore).run growing).vectors .service) [1] [7] with
    | none => announced .service [1] [7] growing = []
    | some e => announced .service [1] [7] growing ≠ [] ∧
        (∀ i : Nat, e.bit.get i = .ok true ↔ ∃ len, ((i : Int),len) ∈ announced .service [1] [7] growing) ∧
        ∀ a ∈ announced .service [1] [7] growing, a.2 ≤ e.bit.len :=
  vectors_announced growing (by simp [growing,Indexed]) .service (by decide) [1] [7]

end FavorX.Announcements

import FavorX.Reading

/-!
The joiner on chunks that nobody checked. `returns_iff` says that a read returns
exactly when it meets no leaf chunk that ends too early, no span that no size of the
sections fits, no last reference that is cut off but reached, and no endless references.
-/
namespace FavorX.Malformed
open Shed hiding Err
open Localstore hiding gather
open Pipeline Joiners Reading

/-- The sizes of the sections that are tried; the next one wraps around to zero. -/
def sizes (branching : Int) : List Int := (List.range 4).map fun k => (chunkSize : Int) * branching ^ k

/-- The first size that leaves no more for the last of the references than for the others. -/
def guess (refs branching span : Int) : Option Int :=
  (sizes branching).find? fun size => int64 (span - int64 (size * (refs - 1))) ≤ size

/-- Where the loop over the references has got to. -/
structure Place where
  cur : Int
  off : Int
  left : Int

def Place.pass (p : Place) (sec : Int) : Place :=
  if p.left = 0 then p
  else if int64 (p.cur + sec) < p.off then {p with cur := int64 (p.cur + sec)}
  else ⟨int64 (p.cur + sec),int64 (p.cur + sec),
    int64 (p.left - min (min (int64 (sec - int64 (p.off - p.cur))) p.left) sec)⟩

def sectionOf (refs : Nat) (span size : Int) (i : Nat) : Int :=
  if (i : Int) = refs - 1 then int64 (span - int64 ((refs - 1) * size)) else size

/-- The bytes to read are in the chunk or after it, and there is room for them. -/
def LeafFits (room : Int) (data : Bytes) (cur off bufferOffset bytesToRead : Int) : Prop :=
  0 ≤ int64 (off - cur) ∧ int64 (off - cur) ≤ data.length ∧ 0 ≤ bytesToRead ∧ 0 ≤ bufferOffset ∧
    bufferOffset + min bytesToRead (data.length - int64 (off - cur)) ≤ room

/-- Some size of the sections fits the span, and a reference that is cut off is not
    reached: nothing is left to read after the complete ones, or it is before the offset. -/
def NodeFits (refLength : Nat) (data : Bytes) (span cur off bytesToRead : Int) : Prop :=
  ∃ size, guess (data.length / refLength : Nat) (chunkSize / refLength : Nat) span = some size ∧
    (refLength ∣ data.length ∨
      let p := ((List.range (data.length / refLength)).map (sectionOf (data.length / refLength) span size)).foldl
        Place.pass ⟨cur,off,bytesToRead⟩
      p.left = 0 ∨ int64 (p.cur + size) < p.off)

def Fits (refLength : Nat) (room : Int) (data : Bytes) (span cur off bufferOffset bytesToRead : Int) : Prop :=
  if span ≤ data.length then LeafFits room data cur off bufferOffset bytesToRead
  else data = [] ∨ bytesToRead = 0 ∨ NodeFits refLength data span cur off bytesToRead

variable {refs branching span room cur off bufferOffset bytesToRead : Int}

theorem branchSizeFrom_zero (some : 0 < span) (small : span < 2 ^ 63) (turns : Nat) :
    branchSizeFrom refs branching span turns 0 = none := by
  have left : int64 (span - int64 (0 * (refs - 1))) = span := by
    rw [Int.zero_mul,show int64 0 = 0 from by decide,Int.sub_zero]
    exact int64_eq (by omega) small
  have zero : int64 (0 * branching) = 0 := by
    rw [Int.zero_mul]
    decide
  induction turns with
  | zero =>
    rw [branchSizeFrom]
    rw [if_neg (by omega)]
  | succ turns ih =>
    rw [branchSizeFrom]
    simp only [left,zero]
    rw [if_neg (by omega)]
    exact ih

/-- How references are long: those of plain chunks and those of encrypted ones. -/
def RefLength (refLength : Nat) : Prop := refLength = hashSize ∨ refLength = 2 * hashSize

theorem branchSizeFrom_succ (refs branching span : Int) (turns : Nat) (size : Int) :
    branchSizeFrom refs branching span (turns + 1) size =
      if int64 (span - int64 (size * (refs - 1))) ≤ size then some size
      else branchSizeFrom refs branching span turns (int64 (size * branching)) := by
  rw [branchSizeFrom]

theorem branchSizeFrom_four {refs branching span a b c d : Int} (some : 0 < span) (small : span < 2 ^ 63)
    (second : int64 (a * branching) = b) (third : int64 (b * branching) = c) (fourth : int64 (c * branching) = d)
    (last : int64 (d * branching) = 0) {turns : Nat} :
    branchSizeFrom refs branching span (turns + 4) a =
      [a,b,c,d].find? fun size => int64 (span - int64 (size * (refs - 1))) ≤ size := by
  rw [branchSizeFrom_succ,branchSizeFrom_succ,branchSizeFrom_succ,branchSizeFrom_succ,second,third,fourth,last,
    branchSizeFrom_zero some small]
  split_ifs <;> simp [*]

variable {refLength : Nat}

section
variable (ref : RefLength refLength)
include ref

theorem branchSizeFrom_guess (some : 0 < span) (small : span < 2 ^ 63) (turns : Nat) :
    branchSizeFrom refs (chunkSize / refLength : Nat) span (turns + 4) chunkSize =
      guess refs (chunkSize / refLength : Nat) span := by
  rcases ref with rfl | rfl
  · exact branchSizeFrom_four some small (by decide) (by decide) (by decide) (by decide)
  · exact branchSizeFrom_four some small (by decide) (by decide) (by decide) (by decide)

theorem RefLength.pos : 0 < refLength := by
  rcases ref with rfl | rfl <;> decide

theorem subtrieSection_guess {data : Bytes} (some : 0 < span) (small : span < 2 ^ 63) (i : Nat) :
    subtrieSection data (i * refLength) refLength span =
      (guess (data.length / refLength : Nat) (chunkSize / refLength : Nat) span).map fun size =>
        sectionOf (data.length / refLength) span size i := by
  have pos := ref.pos
  have last : ((i * refLength : Nat) : Int) = (((data.length / refLength : Nat) : Int) - 1) * refLength ↔
      (i : Int) = (data.length / refLength : Nat) - 1 := by
    push_cast
    exact mul_left_inj' (by omega)
  simp only [subtrieSection,branchSizeFrom_guess ref some small 60,last,sectionOf]
  cases guess (data.length / refLength : Nat) (chunkSize / refLength : Nat) span with
  | none => rfl
  | some size =>
    split <;> rfl

end

section
variable {refLength : Nat} {data : Bytes} {index lastIndex span size : Int}

theorem foldl_pass_zero {secs : List Int} {p : Place} (none : p.left = 0) : secs.foldl Place.pass p = p := by
  induction secs with
  | nil => rfl
  | cons sec secs ih => rw [List.foldl_cons,Place.pass,if_pos none,ih]

theorem readSections_zero (cursors : List Nat) (cur off bufferOffset : Int) :
    readSections refLength data index lastIndex span cursors cur off bufferOffset 0 = .ok [] := by
  cases cursors <;> rfl

variable (index lastIndex) in
/-- The loop goes through the complete references, and only then may it go wrong. -/
theorem readSections_pass (ref : RefLength refLength) (some : 0 < span) (small : span < 2 ^ 63)
    (guessed : guess (data.length / refLength : Nat) (chunkSize / refLength : Nat) span = Option.some size)
    (tail : List Nat) (n : Nat) :
    ∀ (i : Nat) (cur off bufferOffset left : Int), i + n ≤ data.length / refLength →
      ∃ bufferOffset', ((∃ tasks, readSections refLength data index lastIndex span
            ((List.range' i n).map (· * refLength) ++ tail) cur off bufferOffset left = .ok tasks) ↔
          let p := ((List.range' i n).map (sectionOf (data.length / refLength) span size)).foldl Place.pass ⟨cur,off,left⟩
          ∃ tasks, readSections refLength data index lastIndex span tail p.cur p.off bufferOffset' p.left = .ok tasks) := by
  induction n with
  | zero => exact fun i cur off bufferOffset left _ => ⟨bufferOffset,Iff.rfl⟩
  | succ n ih =>
    intro i cur off bufferOffset left complete
    have enough : ¬ data.length < i * refLength + refLength := by
      have := Nat.mul_le_mul_right refLength (by omega : i + 1 ≤ data.length / refLength)
      have := Nat.div_mul_le_self data.length refLength
      rw [Nat.succ_mul] at *
      omega
    rw [List.range'_succ,List.map_cons,List.map_cons,List.cons_append,readSections,List.foldl_cons]
    simp only [subtrieSection_guess ref some small,guessed,Option.map_some,enough,if_false]
    generalize sectionOf (data.length / refLength) span size i = sec
    by_cases none : left = 0
    · subst none
      refine ⟨bufferOffset,iff_of_true ⟨[],rfl⟩ ?_⟩
      rw [Place.pass,if_pos rfl,foldl_pass_zero rfl]
      exact ⟨[],readSections_zero ..⟩
    rw [if_neg none,Place.pass,if_neg none]
    by_cases before : int64 (cur + sec) < off
    · rw [if_pos before,if_pos before]
      exact ih (i + 1) (int64 (cur + sec)) off bufferOffset left (by omega)
    rw [if_neg before,if_neg before]
    obtain ⟨bufferOffset',same⟩ := ih (i + 1) (int64 (cur + sec)) (int64 (cur + sec))
      (int64 (bufferOffset + min (min (int64 (sec - int64 (off - cur))) left) sec))
      (int64 (left - min (min (int64 (sec - int64 (off - cur))) left) sec)) (by omega)
    refine ⟨bufferOffset',Iff.trans ?_ same⟩
    cases readSections refLength data index lastIndex span ((List.range' (i + 1) n).map (· * refLength) ++ tail)
      (int64 (cur + sec)) (int64 (cur + sec)) (int64 (bufferOffset + min (min (int64 (sec - int64 (off - cur))) left) sec))
      (int64 (left - min (min (int64 (sec - int64 (off - cur))) left) sec)) with
    | error halt => exact iff_of_false (by rintro ⟨tasks,fails⟩; cases fails) (by rintro ⟨tasks,fails⟩; cases fails)
    | ok tasks => exact iff_of_true ⟨_,rfl⟩ ⟨_,rfl⟩

/-- The offsets of the references: the complete ones, and one that is cut off. -/
theorem cursors_complete (ref : RefLength refLength) (data : Bytes) :
    cursors refLength data = (List.range' 0 (data.length / refLength)).map (· * refLength) ++
      if refLength ∣ data.length then [] else [data.length / refLength * refLength] := by
  have count : (data.length + (refLength - 1)) / refLength =
      data.length / refLength + if refLength ∣ data.length then 0 else 1 := by
    rcases ref with rfl | rfl
    · rw [show hashSize = 32 from rfl]
      split <;> omega
    · rw [show 2 * hashSize = 64 from rfl]
      split <;> omega
  rw [cursors,count,← List.range_eq_range']
  split
  · rw [Nat.add_zero,List.append_nil]
  · rw [List.range_succ,List.map_append]
    rfl

theorem sectionOf_cut (refs : Nat) (span size : Int) : sectionOf refs span size refs = size := by
  rw [sectionOf,if_neg (by omega)]

variable (index lastIndex) in
theorem readSections_ok (ref : RefLength refLength) (some : 0 < span) (small : span < 2 ^ 63)
    (cur off bufferOffset bytesToRead : Int) :
    (∃ tasks, readSections refLength data index lastIndex span (cursors refLength data) cur off bufferOffset bytesToRead =
        .ok tasks) ↔
      data = [] ∨ bytesToRead = 0 ∨ NodeFits refLength data span cur off bytesToRead := by
  by_cases empty : data = []
  · subst empty
    refine iff_of_true ⟨[],?_⟩ (.inl rfl)
    rw [cursors_complete ref]
    simp [readSections]
    rfl
  by_cases none : bytesToRead = 0
  · subst none
    exact iff_of_true ⟨[],readSections_zero ..⟩ (.inr (.inl rfl))
  simp only [empty,none,false_or]
  cases guessed : guess (data.length / refLength : Nat) (chunkSize / refLength : Nat) span with
  | none =>
    refine iff_of_false ?_ ?_
    · -- no size fits, so that the loop does not get past the first reference
      rintro ⟨tasks,ok⟩
      have filled := List.length_pos_iff.mpr empty
      have first : ∃ n, (data.length + (refLength - 1)) / refLength = n + 1 :=
        Nat.exists_eq_succ_of_ne_zero (Nat.div_pos (by omega) ref.pos).ne'
      obtain ⟨n,first⟩ := first
      rw [cursors,first,List.range_succ_eq_map,List.map_cons,readSections,if_neg none,
        subtrieSection_guess ref some small 0,guessed] at ok
      cases ok
    · rintro ⟨size,is,-⟩
      rw [guessed] at is
      cases is
  | some size =>
    obtain ⟨bufferOffset',same⟩ := readSections_pass index lastIndex ref some small guessed
      (if refLength ∣ data.length then [] else [data.length / refLength * refLength]) (data.length / refLength) 0 cur off
      bufferOffset bytesToRead (by omega)
    rw [cursors_complete ref,same]
    have fits : NodeFits refLength data span cur off bytesToRead ↔ (refLength ∣ data.length ∨
        let p := ((List.range' 0 (data.length / refLength)).map (sectionOf (data.length / refLength) span size)).foldl
          Place.pass ⟨cur,off,bytesToRead⟩
        p.left = 0 ∨ int64 (p.cur + size) < p.off) := by
      rw [NodeFits,← List.range_eq_range']
      constructor
      · rintro ⟨size',is,rest⟩
        rw [guessed] at is
        cases is
        exact rest
      · exact fun rest => ⟨size,guessed,rest⟩
    rw [fits]
    generalize ((List.range' 0 (data.length / refLength)).map (sectionOf (data.length / refLength) span size)).foldl
      Place.pass ⟨cur,off,bytesToRead⟩ = p
    by_cases whole : refLength ∣ data.length
    · rw [if_pos whole]
      exact iff_of_true ⟨[],rfl⟩ (.inl whole)
    have cut : data.length < data.length / refLength * refLength + refLength := Nat.lt_div_mul_add ref.pos
    rw [if_neg whole]
    simp only [whole,false_or]
    rw [readSections]
    simp only [subtrieSection_guess ref some small,guessed,Option.map_some,sectionOf_cut,cut,if_true]
    by_cases done : p.left = 0
    · exact iff_of_true ⟨[],by rw [if_pos done]; rfl⟩ (.inl done)
    by_cases before : int64 (p.cur + size) < p.off
    · exact iff_of_true ⟨[],by rw [if_neg done,if_pos before]; rfl⟩ (.inr before)
    · rw [if_neg done,if_neg before]
      exact iff_of_false (by rintro ⟨tasks,ok⟩; cases ok) (by simp [done,before])

theorem int64_low (x : Int) : -2 ^ 63 ≤ int64 x := Int.le_bmod (by decide)

theorem leaf_ok {E : Type} (leaf : span ≤ data.length) (short : data.length ≤ chunkSize) (low : -2 ^ 63 ≤ bytesToRead) :
    (∃ outcome : Outcome E, readAtOffset refLength room data index lastIndex cur span off bufferOffset bytesToRead =
      .ok outcome) ↔ LeafFits room data cur off bufferOffset bytesToRead := by
  have short' : data.length ≤ 262144 := short
  have start_high : int64 (off - cur) < 2 ^ 63 := Int.bmod_lt (by decide)
  rw [readAtOffset,if_pos leaf,LeafFits]
  generalize int64 (off - cur) = start at *
  have guarded : ∀ (c : Prop) [Decidable c] (outcome : Outcome E),
      (∃ o, (if c then pure outcome else throw Halt.panicked : Except Halt (Outcome E)) = .ok o) ↔ c := by
    intro c _ outcome
    by_cases holds : c
    · exact iff_of_true ⟨outcome,by rw [if_pos holds]; rfl⟩ holds
    · exact iff_of_false (by rw [if_neg holds]; rintro ⟨o,ok⟩; cases ok) holds
  rw [guarded]
  by_cases pos : 0 ≤ start
  · have stop : (if int64 (data.length - start) < bytesToRead then int64 (start + int64 (data.length - start))
        else int64 (start + bytesToRead)) = start + min bytesToRead (data.length - start) := by
      have bounds : -2 ^ 63 ≤ (data.length : Int) - start ∧ (data.length : Int) - start < 2 ^ 63 := by omega
      rw [int64_eq bounds.1 bounds.2]
      split
      · rw [int64_eq (by omega) (by omega)]
        omega
      · rw [int64_eq (by omega) (by omega)]
        omega
    omega
  · exact iff_of_false (fun holds => pos holds.1) (fun holds => pos holds.1)

variable (index lastIndex) in
theorem readAtOffset_ok {E : Type} (ref : RefLength refLength) (small : span < 2 ^ 63)
    (short : data.length ≤ chunkSize) (low : -2 ^ 63 ≤ bytesToRead) :
    (∃ outcome : Outcome E, readAtOffset refLength room data index lastIndex cur span off bufferOffset bytesToRead =
      .ok outcome) ↔ Fits refLength room data span cur off bufferOffset bytesToRead := by
  rw [Fits]
  by_cases leaf : span ≤ data.length
  · rw [if_pos leaf]
    exact leaf_ok leaf short low
  rw [if_neg leaf,← readSections_ok index lastIndex ref (by omega) small cur off bufferOffset bytesToRead,readAtOffset,
    if_neg leaf]
  cases readSections refLength data index lastIndex span (cursors refLength data) cur off bufferOffset bytesToRead with
  | error halt => exact iff_of_false (by rintro ⟨o,ok⟩; cases ok) (by rintro ⟨tasks,ok⟩; cases ok)
  | ok tasks => exact iff_of_true ⟨_,rfl⟩ ⟨_,rfl⟩

section
variable (ref : RefLength refLength)
include ref

theorem sizes_pos : ∀ size ∈ sizes (chunkSize / refLength : Nat), 0 < size := by
  rcases ref with rfl | rfl <;> decide

/-- The bytes that the goroutines of a loop are to read are 64-bit numbers. -/
theorem readSections_low (some : 0 < span) (small : span < 2 ^ 63) {n : Nat} :
    ∀ (i : Nat) (cur off bufferOffset left : Int) (tasks : List Task), -2 ^ 63 ≤ left →
      readSections refLength data index lastIndex span ((List.range' i n).map (· * refLength)) cur off bufferOffset left =
        .ok tasks → ∀ t ∈ tasks, -2 ^ 63 ≤ t.bytesToRead := by
  induction n with
  | zero =>
    intro i cur off bufferOffset left tasks _ ok
    cases ok
    simp
  | succ n ih =>
    intro i cur off bufferOffset left tasks low ok
    rw [List.range'_succ,List.map_cons,readSections,subtrieSection_guess ref some small] at ok
    by_cases none : left = 0
    · rw [if_pos none] at ok
      cases ok
      simp
    rw [if_neg none] at ok
    cases guessed : guess (data.length / refLength : Nat) (chunkSize / refLength : Nat) span with
    | none =>
      rw [guessed] at ok
      cases ok
    | some size =>
      simp only [guessed,Option.map_some] at ok
      have sec_low : -2 ^ 63 ≤ sectionOf (data.length / refLength) span size i := by
        rw [sectionOf]
        split
        · exact int64_low _
        · have := sizes_pos ref size (List.mem_of_find?_eq_some guessed)
          omega
      split at ok
      · exact ih (i + 1) _ _ _ _ _ low ok
      split at ok
      · cases ok
      obtain ⟨later,run,is⟩ := bind_ok ok
      cases is
      intro t mem
      rcases List.mem_cons.mp mem with rfl | mem
      · exact le_min (le_min (int64_low _) low) sec_low
      · exact ih (i + 1) _ _ _ _ later (int64_low _) run t mem

theorem readAtOffset_low {E : Type} {tasks : List Task} (small : span < 2 ^ 63) (low : -2 ^ 63 ≤ bytesToRead)
    (ok : readAtOffset refLength room data index lastIndex cur span off bufferOffset bytesToRead = (.ok (.spawned tasks) : Except Halt (Outcome E))) :
    ∀ t ∈ tasks, -2 ^ 63 ≤ t.bytesToRead := by
  rw [readAtOffset] at ok
  by_cases leaf : span ≤ data.length
  · dsimp only at ok
    split_ifs at ok <;> cases ok
  rw [if_neg leaf] at ok
  obtain ⟨started,run,is⟩ := bind_ok ok
  cases is
  rw [cursors,List.range_eq_range'] at run
  exact readSections_low ref (by omega) small 0 _ _ _ _ _ low run

end

theorem littleEndian_lt {bytes : Bytes} : littleEndian bytes < 256 ^ bytes.length := by
  induction bytes with
  | nil => decide
  | cons b bytes ih =>
    have := b.toNat_lt
    rw [littleEndian,List.length_cons]
    omega

theorem toSpan_lt {data : Bytes} : toSpan data < 2 ^ 63 := by
  have few : (data.take spanSize).length ≤ 8 := List.length_take_le ..
  have less := littleEndian_lt.trans_le (Nat.pow_le_pow_right (by decide) few)
  rw [toSpan,toInt64]
  split <;> omega

end

section
variable {E : Type} (get : Getter E) (j : Joiner) (buffer : Bytes) (off : Int)

/-- What the chunk that a goroutine fetches has to fulfil, if its span is accepted. -/
def TaskFits (room : Int) (t : Task) : Prop :=
  ∀ d, get t.address (int64 (t.index + j.index)) = .ok d → toSpan d ≤ t.subtrieSpanLimit →
    Fits j.refLength room (d.drop spanSize) (toSpan d) t.cur t.off t.bufferOffset t.bytesToRead

def Visits (t : Task) : Prop :=
  ∃ tasks, ∃ s : Shared E, start j buffer off = some (tasks,s) ∧
    ∃ first ∈ tasks, Relation.ReflTransGen (Pools.Starts (expand get j buffer.length)) first t

/-- The root chunk and every chunk that the read comes to fit what is to be read from
    them, and no chunks that it comes to refer to each other forever. -/
structure Readable : Prop where
  root : Fits j.refLength buffer.length j.rootData j.span 0 off 0 (min buffer.length (int64 (j.span - off)))
  chunks : ∀ t, Visits get j buffer off t → TaskFits get j buffer.length t
  grounded : ¬ ∃ line : Nat → Task, Visits get j buffer off (line 0) ∧
    ∀ n, Pools.Starts (expand get j buffer.length) (line n) (line (n + 1))

/-- The chunks of the store have a span and fit their size. -/
def Bounded : Prop := ∀ address index d, get address index = .ok d → spanSize ≤ d.length ∧ d.length ≤ spanSize + chunkSize

variable {get j buffer off}

section
variable (ref : RefLength j.refLength)
include ref

theorem expand_ok {t : Task} (bounded : Bounded get) (low : -2 ^ 63 ≤ t.bytesToRead) :
    expand get j room t ≠ none ↔ TaskFits get j room t := by
  have run : expand get j room t ≠ none ↔ ∃ outcome, runTask get j room t = .ok outcome := by
    rw [expand]
    cases runTask get j room t with
    | error halt => exact iff_of_false (fun no => no rfl) (by rintro ⟨outcome,ok⟩; cases ok)
    | ok outcome => exact iff_of_true (by cases outcome <;> simp) ⟨outcome,rfl⟩
  rw [run,runTask,TaskFits]
  cases fetched : get t.address (int64 (t.index + j.index)) with
  | error e => exact iff_of_true ⟨_,rfl⟩ (by rintro d ⟨⟩)
  | ok d =>
    have short : (d.drop spanSize).length ≤ chunkSize := by
      have := bounded _ _ d fetched
      rw [List.length_drop]
      omega
    by_cases refused : t.subtrieSpanLimit < toSpan d
    · simp only [refused,if_true]
      refine iff_of_true ⟨_,rfl⟩ ?_
      rintro d' is accepted
      cases is
      omega
    simp only [refused,if_false]
    rw [readAtOffset_ok t.index t.lastIndex ref toSpan_lt short low]
    constructor
    · rintro fits d' is -
      cases is
      exact fits
    · exact fun fits => fits d rfl (by omega)

theorem start_ok (small : j.span < 2 ^ 63) (short : j.rootData.length ≤ chunkSize) :
    (∃ tasks, ∃ s : Shared E, start j buffer off = some (tasks,s)) ↔
      Fits j.refLength buffer.length j.rootData j.span 0 off 0 (min buffer.length (int64 (j.span - off))) := by
  have low : -2 ^ 63 ≤ min (buffer.length : Int) (int64 (j.span - off)) := le_min (by omega) (int64_low _)
  rw [← readAtOffset_ok 0 0 ref small short low,start]
  cases (readAtOffset j.refLength buffer.length j.rootData 0 0 0 j.span off 0 (min buffer.length (int64 (j.span - off))) :
    Except Halt (Outcome E)) with
  | error halt => exact iff_of_false (by rintro ⟨tasks,s,no⟩; cases no) (by rintro ⟨outcome,no⟩; cases no)
  | ok outcome => exact iff_of_true (by cases outcome <;> exact ⟨_,_,rfl⟩) ⟨outcome,rfl⟩

theorem start_low {tasks : List Task} {s : Shared E} (small : j.span < 2 ^ 63)
    (started : start j buffer off = some (tasks,s)) : ∀ t ∈ tasks, -2 ^ 63 ≤ t.bytesToRead := by
  have low : -2 ^ 63 ≤ min (buffer.length : Int) (int64 (j.span - off)) := le_min (by omega) (int64_low _)
  rw [start] at started
  cases run : (readAtOffset j.refLength buffer.length j.rootData 0 0 0 j.span off 0
    (min buffer.length (int64 (j.span - off))) : Except Halt (Outcome E)) with
  | error halt =>
    rw [run] at started
    cases started
  | ok outcome =>
    rw [run] at started
    cases outcome with
    | failed fault | copied bufferOffset bs =>
      cases started
      simp
    | spawned started' =>
      cases started
      exact readAtOffset_low ref small low run

theorem expand_low {t c : Task} (low : -2 ^ 63 ≤ t.bytesToRead) (starts : Pools.Starts (expand get j room) t c) :
    -2 ^ 63 ≤ c.bytesToRead := by
  obtain ⟨children,run,mem⟩ := starts
  cases outcome : runTask get j room t with
  | error halt =>
    rw [expand,outcome] at run
    cases run
  | ok done =>
    cases done with
    | spawned tasks =>
      rw [expand,outcome] at run
      cases run
      rw [runTask] at outcome
      cases fetched : get t.address (int64 (t.index + j.index)) with
      | error e =>
        rw [fetched] at outcome
        cases outcome
      | ok d =>
        simp only [fetched] at outcome
        split at outcome
        · cases outcome
        · exact readAtOffset_low ref toSpan_lt low outcome c mem
    | failed fault | copied bufferOffset bs =>
      rw [expand,outcome] at run
      cases run
      simp at mem

theorem visits_low {t : Task} (small : j.span < 2 ^ 63) (visits : Visits get j buffer off t) :
    -2 ^ 63 ≤ t.bytesToRead := by
  obtain ⟨tasks,s,started,first,mem,below⟩ := visits
  induction below with
  | refl => exact start_low ref small started first mem
  | tail _ starts ih => exact expand_low ref ih starts

end

end

def sampleAddress : Address := List.replicate hashSize 0

def leafStore : Getter Unit := fun _ _ => .ok (putUint64 3 ++ [1,2,3])

theorem bounded_one {d : Bytes} (least : spanSize ≤ d.length) (most : d.length ≤ spanSize + chunkSize) :
    Bounded (fun _ _ => .ok d : Getter Unit) := by
  rintro address index d' is
  cases is
  exact ⟨least,most⟩

/-- A chunk that is too short for a reference, but not for its span. -/
def cutStore : Getter Unit := fun _ _ => .ok (putUint64 2 ++ [0])

/-- A root with two references, and leaf chunks that are shorter than it says. -/
def shortStore : Getter Unit := fun _ index =>
  if index = 0 then .ok (putUint64 300000 ++ List.replicate (2 * hashSize) 0) else .ok (putUint64 10 ++ List.replicate 10 0)

def loopStore : Getter Unit := fun _ _ => .ok (putUint64 100 ++ List.replicate hashSize 0)

theorem loop_unsafe {t : Task} (loops : ∃ a i l b, t = ⟨a,i,l,0,0,b,1,100⟩) :
    ¬ Pools.Safe (expand loopStore ⟨List.replicate hashSize 0,100,0,hashSize⟩ room) t := by
  intro safe
  induction safe with
  | intro well _ ih =>
    obtain ⟨a,i,l,b,rfl⟩ := loops
    cases (show some [_] = some _ from well)
    exact ih _ List.mem_cons_self ⟨_,_,_,_,rfl⟩

end FavorX.Malformed

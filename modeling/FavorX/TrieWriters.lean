import FavorX.Feeders

/-!
The hash trie writer over any short pipeline, which keeps a state of its own and may fail. The
levels hold the tries that do not fill a group yet (`Holds`), and what was fed to the writer ends in
the one trie that gathering the leaves gives (`feed_gathers`), if the short pipeline takes every
group that comes up (`Takes`).
-/
namespace FavorX.TrieWriters
open Shed hiding Err
open Groups
open Localstore (littleEndian)
open Pipeline (maxLevel spanSize putUint64)

inductive Err (ε : Type)
  | trieFull
  | inconsistentRefs
  | panicked
  | pipeline (e : ε)

structure Entry (R : Type) where
  span : Nat
  ref : R

def spanSum {R : Type} (es : List (Entry R)) : Nat := es.foldl (fun sp e => (sp + e.span) % 2 ^ 64) 0

structure Writer (R σ : Type) where
  cursors : Nat → Nat
  buffer : List (Entry R)
  full : Bool
  state : σ

section
variable {R σ ε : Type} (pipelineFn : Bytes → σ → Except ε (R × σ)) (bytes : R → Bytes) (branching : Nat)

def Writer.moveCursor (w : Writer R σ) (level cursor : Nat) : Writer R σ :=
  {w with cursors := Function.update w.cursors level cursor}

def Writer.append (w : Writer R σ) (level : Nat) (e : Entry R) : Writer R σ :=
  {w with buffer := w.buffer.set (w.cursors level) e}.moveCursor level (w.cursors level + 1)

def levelSize (w : Writer R σ) (level : Nat) : Nat :=
  if level = maxLevel then w.cursors level else w.cursors level - w.cursors (level + 1)

def Writer.between (w : Writer R σ) (level : Nat) : List (Entry R) :=
  (w.buffer.take (w.cursors level)).drop (w.cursors (level + 1))

/-- A level that was wrapped ends where the level above it ends. -/
def Writer.truncate (w : Writer R σ) (level : Nat) : Writer R σ :=
  let w := w.moveCursor level (w.cursors (level + 1))
  if level + 1 = maxLevel then {w with full := true} else w

def wrapFullLevel (writeAbove : Entry R → Writer R σ → Except (Err ε) (Writer R σ)) (level : Nat) (w : Writer R σ) :
    Except (Err ε) (Writer R σ) :=
  if w.cursors (level + 1) ≤ w.cursors level ∧ w.cursors level ≤ w.buffer.length then do
    let data := w.between level
    let hashes := data.flatMap (fun e => bytes e.ref)
    let (ref,state) ← (pipelineFn (putUint64 (spanSum data) ++ hashes) w.state).mapError .pipeline
    let w ← writeAbove ⟨spanSum data,ref⟩ {w with state := state}
    pure (w.truncate level)
  else throw .panicked

/-- The level is given by the number of levels above it. -/
def writeToLevel : Nat → Entry R → Writer R σ → Except (Err ε) (Writer R σ)
  | above,e,w =>
    let level := maxLevel - above
    if w.cursors level < w.buffer.length then
      let w := w.append level e
      if levelSize w level = branching then
        match above with
        | 0 => throw .panicked
        | above + 1 => wrapFullLevel pipelineFn bytes (writeToLevel above) level w
      else pure w
    else throw .panicked

def ChainWrite (e : Entry R) (w : Writer R σ) : Except (Err ε) (Writer R σ) :=
  if w.full then throw .trieFull else writeToLevel pipelineFn bytes branching (maxLevel - 1) e w

def sumLevel (above : Nat) (w : Writer R σ) : Except (Err ε) (Writer R σ) :=
  let level := maxLevel - (above + 1)
  let l := levelSize w level
  if l = 0 then pure w
  else if l = branching then wrapFullLevel pipelineFn bytes (writeToLevel pipelineFn bytes branching above) level w
  else if l = 1 then pure (w.moveCursor (level + 1) (w.cursors level))
  else wrapFullLevel pipelineFn bytes (writeToLevel pipelineFn bytes branching above) level w

def sumLevels : Nat → Writer R σ → Except (Err ε) (Writer R σ)
  | 0,w => pure w
  | above + 1,w => do
    let w ← sumLevel pipelineFn bytes branching above w
    sumLevels above w

def Sum (w : Writer R σ) : Except (Err ε) (R × Writer R σ) := do
  let w ← sumLevels pipelineFn bytes branching (maxLevel - 1) w
  if levelSize w maxLevel ≠ 1 then throw .inconsistentRefs
  match w.buffer.head? with
  | some e => pure (e.ref,w)
  | none => throw .panicked

def leafWrite (data : Bytes) (w : Writer R σ) : Except (Err ε) (Writer R σ) := do
  let (ref,state) ← (pipelineFn data w.state).mapError .pipeline
  ChainWrite pipelineFn bytes branching ⟨littleEndian (data.take spanSize),ref⟩ {w with state := state}

end

/-- What the references of a writer stand for, and how groups of them are wrapped. -/
structure Scheme (R σ T : Type) where
  branching : Nat
  stands : Entry R → T → Prop
  join : List T → T
  /-- The state of the short pipeline when these are the tries that were made and not yet wrapped. -/
  kept : List T → σ → Prop
  /-- The lists of tries that can come to a level. -/
  apt : List T → Prop

section
variable {R σ ε T : Type} (S : Scheme R σ T)

def wrapped (ts : List T) : List T := (fulls S.branching ts).map S.join

/-- What a level and the levels above it hold, once the tries `ts` were written to it. -/
def stack : Nat → List T → List T
  | 0,ts => ts
  | above + 1,ts => stack above (wrapped S ts) ++ rest S.branching ts

def Marks (above : Nat) (ts : List T) (w : Writer R σ) : Prop :=
  w.cursors (maxLevel - above) = ts.length ∧ List.Forall₂ S.stands (w.buffer.take ts.length) ts

/-- A level and the levels above it after the tries `ts` were written to it. -/
def Holds : Nat → List T → Writer R σ → Prop
  | 0,ts,w => Marks S 0 ts w
  | above + 1,ts,w => Marks S (above + 1) (stack S (above + 1) ts) w ∧ Holds above (wrapped S ts) w

/-- The short pipeline takes the last group of a list of tries that can come to a level. -/
structure Takes (pipelineFn : Bytes → σ → Except ε (R × σ)) (bytes : R → Bytes) : Prop where
  wide : 2 ≤ S.branching
  take : ∀ {before l group : List T} {es : List (Entry R)} {s : σ}, S.apt (l ++ group) →
    2 ≤ group.length → group.length ≤ S.branching → List.Forall₂ S.stands es group → S.kept (before ++ group) s →
    ∃ r s', pipelineFn (putUint64 (spanSum es) ++ es.flatMap (fun e => bytes e.ref)) s = .ok (r,s') ∧
      S.stands ⟨spanSum es,r⟩ (S.join group) ∧ S.kept (before ++ [S.join group]) s'
  gather : ∀ {l : List T}, S.apt l → S.apt (gather S.branching S.join l)
  shorter : ∀ {l m : List T}, S.apt (l ++ m) → S.apt l

variable {S} {pipelineFn : Bytes → σ → Except ε (R × σ)} {bytes : R → Bytes}
variable {above : Nat} {ts : List T} {w w' : Writer R σ}

theorem Holds.marks (holds : Holds S above ts w) : Marks S above (stack S above ts) w := by
  cases above with
  | zero => exact holds
  | succ above => exact holds.1

/-- What a level and those above it hold depends on their cursors and on the buffer
    below the cursor of the level. -/
theorem Holds.congr (holds : Holds S above ts w)
    (cursors : ∀ level, maxLevel - above ≤ level → w'.cursors level = w.cursors level)
    (buffer : w'.buffer.take (stack S above ts).length = w.buffer.take (stack S above ts).length) :
    Holds S above ts w' := by
  induction above generalizing ts with
  | zero => exact ⟨(cursors _ le_rfl).trans holds.1,by rw [show w'.buffer.take ts.length = _ from buffer]; exact holds.2⟩
  | succ above ih =>
    refine ⟨⟨(cursors _ le_rfl).trans holds.1.1,by rw [buffer]; exact holds.1.2⟩,
      ih holds.2 (fun level higher => cursors level (by omega)) ?_⟩
    have short : (stack S above (wrapped S ts)).length ≤ (stack S (above + 1) ts).length := by
      simp [stack]
    have := congrArg (List.take (stack S above (wrapped S ts)).length) buffer
    rwa [List.take_take,List.take_take,Nat.min_eq_left short] at this

section
variable (pos : 0 < S.branching)
include pos

theorem length_wrapped (ts : List T) : (wrapped S ts).length = ts.length / S.branching := by
  rw [wrapped,List.length_map,length_fulls pos]

theorem length_stack (fits : ts.length < S.branching ^ (above + 1)) :
    (stack S above ts).length < (above + 1) * S.branching := by
  induction above generalizing ts with
  | zero => simpa [stack] using fits
  | succ above ih =>
    have less : (wrapped S ts).length < S.branching ^ (above + 1) := by
      rw [length_wrapped pos]
      exact Nat.div_lt_of_lt_mul (by rwa [Nat.pow_succ,Nat.mul_comm] at fits)
    have below := ih less
    have left := rest_lt pos ts
    rw [stack,List.length_append,Nat.add_mul (above + 1)]
    omega

theorem stack_snoc_short {t : T} (room : (rest S.branching ts).length + 1 < S.branching) :
    stack S (above + 1) (ts ++ [t]) = stack S (above + 1) ts ++ [t] := by
  rw [stack,stack,wrapped,wrapped,fulls_snoc_short pos room,rest_snoc_short pos room,List.append_assoc]

theorem wrapped_snoc_full {t : T} (fills : (rest S.branching ts).length + 1 = S.branching) :
    wrapped S (ts ++ [t]) = wrapped S ts ++ [S.join (rest S.branching ts ++ [t])] := by
  rw [wrapped,wrapped,fulls_snoc_full pos fills,List.map_append,List.map_singleton]

end

theorem marks_append {t : T} {e : Entry R} (stands : S.stands e t) (marks : Marks S above ts w)
    (room : ts.length < w.buffer.length) : Marks S above (ts ++ [t]) (w.append (maxLevel - above) e) := by
  refine ⟨by simp [Writer.append,Writer.moveCursor,marks.1],?_⟩
  have taken : (w.buffer.set ts.length e).take (ts.length + 1) = w.buffer.take ts.length ++ [e] := by
    rw [List.take_succ_eq_append_getElem (by simpa using room),List.take_set_of_le le_rfl,List.getElem_set_self]
  simp only [Writer.append,Writer.moveCursor,marks.1,List.length_append,List.length_singleton,taken]
  exact List.rel_append marks.2 (.cons stands .nil)

theorem Holds.append (holds : Holds S above ts w) {marked : List T} (inside : above < maxLevel)
    (marks : Marks S (above + 1) marked w) (longer : (stack S above ts).length ≤ marked.length) (e : Entry R) :
    Holds S above ts (w.append (maxLevel - (above + 1)) e) := by
  refine holds.congr (fun level higher => Function.update_of_ne (by omega) _ _) ?_
  simp only [Writer.append,Writer.moveCursor,marks.1]
  exact List.take_set_of_le longer

theorem levelSize_marks {upper : List T} (inside : above < maxLevel) (marks : Marks S (above + 1) (upper ++ ts) w)
    (upperMarks : Marks S above upper w) : levelSize w (maxLevel - (above + 1)) = ts.length := by
  have level : maxLevel - (above + 1) + 1 = maxLevel - above := by omega
  rw [levelSize,if_neg (by omega),level,marks.1,upperMarks.1,List.length_append,Nat.add_sub_cancel_left]

/-- The tries written to a level that this one fills make one trie more above. -/
theorem wrapped_fits {k : Nat} (fills : (rest S.branching ts).length + 1 = S.branching)
    (fits : ts.length + 1 < S.branching ^ (k + 1)) : (wrapped S ts).length + 1 < S.branching ^ k := by
  have pos : 0 < S.branching := by omega
  rw [length_rest pos] at fills
  have whole : ts.length + 1 = (ts.length / S.branching + 1) * S.branching := by
    have := Nat.div_add_mod ts.length S.branching
    rw [Nat.add_mul,Nat.mul_comm]
    omega
  rw [length_wrapped pos]
  rw [whole] at fits
  exact Nat.lt_of_mul_lt_mul_right fits

/-- The outcome of writing to a level: the levels hold the tries `ts`, and so does the state
    together with those of the levels below. -/
structure Written (S : Scheme R σ T) (above : Nat) (before ts : List T) (w w' : Writer R σ) : Prop where
  holds : Holds S above ts w'
  kept : S.kept (before ++ stack S above ts) w'.state
  buffer : w'.buffer.length = w.buffer.length
  full : ts.length < S.branching ^ above → w'.full = w.full

/-- A writer to the level with this number of levels above it. -/
def Writes (S : Scheme R σ T) (above : Nat) (write : Entry R → Writer R σ → Except (Err ε) (Writer R σ)) : Prop :=
  ∀ {ts : List T} {t : T} {e : Entry R} {w : Writer R σ} {before : List T}, S.stands e t →
    (above + 1) * S.branching ≤ w.buffer.length → Holds S above ts w → ts.length + 1 < S.branching ^ (above + 1) →
    S.apt (ts ++ [t]) → S.kept (before ++ stack S above ts ++ [t]) w.state →
    ∃ w', write e w = .ok w' ∧ Written S above before (ts ++ [t]) w w'

/-- A level is wrapped into the join of its tries. It then ends where the level above it
    ends, which holds one trie more. -/
theorem wrapFullLevel_wrapped {write : Entry R → Writer R σ → Except (Err ε) (Writer R σ)} {before l group : List T}
    (takes : Takes S pipelineFn bytes) (writes : Writes S above write) (inside : above < maxLevel)
    (room : (above + 1) * S.branching ≤ w.buffer.length) (holds : Holds S above ts w)
    (marks : Marks S (above + 1) (stack S above ts ++ group) w) (fits : ts.length + 1 < S.branching ^ (above + 1))
    (many : 2 ≤ group.length) (few : group.length ≤ S.branching) (apt : S.apt (l ++ group))
    (next : S.apt (ts ++ [S.join group])) (kept : S.kept (before ++ (stack S above ts ++ group)) w.state) :
    ∃ w', wrapFullLevel pipelineFn bytes write (maxLevel - (above + 1)) w = .ok w' ∧
      Marks S (above + 1) (stack S above (ts ++ [S.join group])) w' ∧
      Written S above before (ts ++ [S.join group]) w w' := by
  have level : maxLevel - (above + 1) + 1 = maxLevel - above := by omega
  have upper := holds.marks
  have inBuffer := marks.2.length_eq
  rw [List.length_take] at inBuffer
  have stand : List.Forall₂ S.stands (w.between (maxLevel - (above + 1))) group := by
    rw [Writer.between,level,marks.1,upper.1]
    exact List.forall₂_drop_append _ _ _ marks.2
  rw [← List.append_assoc] at kept
  obtain ⟨r,s,run,stands,kept⟩ := takes.take apt many few stand kept
  obtain ⟨w',wrote,written⟩ := writes (w := {w with state := s}) stands room (holds.congr (fun _ _ => rfl) rfl) fits
    next kept
  have ended := written.holds.marks
  have moved : (w'.truncate (maxLevel - (above + 1))).cursors =
      Function.update w'.cursors (maxLevel - (above + 1)) (w'.cursors (maxLevel - above)) := by
    rw [← level,Writer.truncate]
    split <;> rfl
  have buffer : (w'.truncate (maxLevel - (above + 1))).buffer = w'.buffer := by
    rw [Writer.truncate]
    split <;> rfl
  have state : (w'.truncate (maxLevel - (above + 1))).state = w'.state := by
    rw [Writer.truncate]
    split <;> rfl
  refine ⟨w'.truncate (maxLevel - (above + 1)),?_,⟨?_,by rw [buffer]; exact ended.2⟩,
    written.holds.congr (fun level higher => ?_) (by rw [buffer]),by rw [state]; exact written.kept,
    by rw [buffer]; exact written.buffer,fun small => ?_⟩
  · have ordered : w.cursors (maxLevel - above) ≤ w.cursors (maxLevel - (above + 1)) := by
      rw [upper.1,marks.1,List.length_append]
      omega
    rw [wrapFullLevel,level,if_pos ⟨ordered,by rw [marks.1]; omega⟩]
    simp only [run,Except.mapError,bind,Except.bind,wrote]
    rfl
  · rw [moved,Function.update_self]
    exact ended.1
  · rw [moved]
    exact Function.update_of_ne (by omega) _ _
  have deep : above ≠ 0 := by
    rintro rfl
    simp at small
  rw [Writer.truncate,if_neg (by omega)]
  exact written.full small

theorem writeToLevel_writes (takes : Takes S pipelineFn bytes) (inside : above ≤ maxLevel) :
    Writes S above (writeToLevel pipelineFn bytes S.branching above) := by
  have wide := takes.wide
  have pos : 0 < S.branching := by omega
  induction above with
  | zero =>
    intro ts t e w before stands room holds fits apt kept
    have less : ts.length < w.buffer.length := by simp at fits; omega
    have marks := marks_append stands holds less
    have size : levelSize (w.append maxLevel e) maxLevel = ts.length + 1 := by
      rw [levelSize]
      simpa using marks.1
    have cursor : w.cursors maxLevel = ts.length := holds.1
    refine ⟨w.append maxLevel e,?_,marks,?_,?_,fun _ => rfl⟩
    · simp only [writeToLevel,Nat.sub_zero,cursor,less,if_true,size]
      rw [if_neg (by simp at fits; omega)]
      rfl
    · rwa [List.append_assoc] at kept
    · simp [Writer.append,Writer.moveCursor]
  | succ above ih =>
    intro ts t e w before stands room holds fits apt kept
    have enough : (stack S (above + 1) ts).length < w.buffer.length := (length_stack pos (by omega)).trans_le room
    have marks := marks_append stands holds.1 enough
    have upper := holds.2.append (by omega) holds.1 (by simp [stack]) e
    simp only [stack,List.append_assoc] at marks kept
    have size := levelSize_marks (by omega) marks upper.marks
    rw [List.length_append,List.length_singleton] at size
    have cursor : w.cursors (maxLevel - (above + 1)) < w.buffer.length := by rw [holds.1.1]; exact enough
    have length : (w.append (maxLevel - (above + 1)) e).buffer.length = w.buffer.length := by
      simp [Writer.append,Writer.moveCursor]
    rw [writeToLevel]
    simp only [cursor,if_true,size]
    by_cases fills : (rest S.branching ts).length + 1 = S.branching
    · rw [if_pos fills]
      have group : (rest S.branching ts ++ [t]).length = S.branching := by simpa using fills
      have joined := takes.gather apt
      rw [gather_append _ wide group.le,carry_many (by omega)] at joined
      rw [← flatten_fulls pos ts,List.append_assoc] at apt
      obtain ⟨w',run,ends,after⟩ := wrapFullLevel_wrapped takes (ih (by omega)) (by omega)
        (by rw [Nat.add_mul (above + 1)] at room; omega) upper marks (wrapped_fits fills fits) (by omega) group.le apt
        joined kept
      have next : stack S (above + 1) (ts ++ [t]) = stack S above (wrapped S ts ++ [S.join (rest S.branching ts ++ [t])]) := by
        rw [stack,wrapped_snoc_full pos fills,rest_snoc_full pos fills,List.append_nil]
      refine ⟨w',run,⟨?_,?_⟩,?_,after.buffer.trans length,fun small => after.full ?_⟩
      · rw [next]
        exact ends
      · rw [wrapped_snoc_full pos fills]
        exact after.holds
      · rw [next]
        exact after.kept
      · rw [List.length_append] at small ⊢
        exact wrapped_fits fills small
    have short : (rest S.branching ts).length + 1 < S.branching := by
      have left := rest_lt pos ts
      omega
    rw [if_neg fills]
    refine ⟨_,rfl,⟨?_,?_⟩,?_,length,fun _ => rfl⟩
    · rw [stack_snoc_short pos short,stack,List.append_assoc]
      exact marks
    · rw [wrapped,fulls_snoc_short pos short]
      exact upper
    · rw [stack_snoc_short pos short,stack,List.append_assoc]
      exact kept

/-- A level and the levels above it when `extra` was carried up to the level. -/
def Carries (S : Scheme R σ T) : Nat → List T → List T → Writer R σ → Prop
  | 0,ts,extra,w => Marks S 0 (ts ++ extra) w
  | above + 1,ts,extra,w => Marks S (above + 1) (stack S (above + 1) ts ++ extra) w ∧ Holds S above (wrapped S ts) w

theorem Holds.carries (holds : Holds S above ts w) : Carries S above ts [] w := by
  cases above with
  | zero | succ above =>
    rw [Carries,List.append_nil]
    exact holds

theorem Carries.marks {extra : List T} (carries : Carries S above ts extra w) : Marks S above (stack S above ts ++ extra) w := by
  cases above with
  | zero => exact carries
  | succ above => exact carries.1

variable {group all leaves : List T}

/-- The cursor of the level above moves over the references of a level. -/
theorem Holds.carry (holds : Holds S above ts w) (inside : above < maxLevel)
    (marks : Marks S (above + 1) (stack S above ts ++ group) w) :
    Carries S above ts group (w.moveCursor (maxLevel - (above + 1) + 1) (w.cursors (maxLevel - (above + 1)))) := by
  have level : maxLevel - (above + 1) + 1 = maxLevel - above := by omega
  rw [level]
  have moved : Marks S above (stack S above ts ++ group)
      (w.moveCursor (maxLevel - above) (w.cursors (maxLevel - (above + 1)))) :=
    ⟨by simp [Writer.moveCursor,marks.1],marks.2⟩
  cases above with
  | zero => exact moved
  | succ above => exact ⟨moved,holds.2.congr (fun _ higher => Function.update_of_ne (by omega) _ _) rfl⟩

/-- What `Sum` has when it comes to a level: the tries `all` make up the level and
    those above it, and the state has kept them. -/
structure Summed (S : Scheme R σ T) (above : Nat) (all : List T) (w : Writer R σ) : Prop where
  parts : ∃ ts extra, ts ++ extra = all ∧ extra.length ≤ 1 ∧ Carries S above ts extra w ∧
    S.kept (stack S above ts ++ extra) w.state
  room : (above + 1) * S.branching ≤ w.buffer.length
  fits : all.length ≤ S.branching ^ above
  apt : S.apt all

section
variable (takes : Takes S pipelineFn bytes)
include takes

theorem sumLevel_gathers (inside : above < maxLevel) (summed : Summed S (above + 1) all w) :
    ∃ w', sumLevel pipelineFn bytes S.branching above w = .ok w' ∧ Summed S above (gather S.branching S.join all) w' := by
  have wide := takes.wide
  have pos : 0 < S.branching := by omega
  obtain ⟨⟨ts,extra,rfl,one,carries,kept⟩,room,fits,apt⟩ := summed
  have group : (rest S.branching ts ++ extra).length ≤ S.branching := by
    have left := rest_lt pos ts
    rw [List.length_append]
    omega
  have gathered := gather_append S.join wide group
  have fits' : (gather S.branching S.join (ts ++ extra)).length ≤ S.branching ^ above := by
    rw [length_gather pos]
    exact groupCount_le pos (by rwa [Nat.pow_succ] at fits)
  have room' : (above + 1) * S.branching ≤ w.buffer.length := by
    rw [Nat.add_mul (above + 1)] at room
    omega
  have apt' := takes.gather apt
  have marks := carries.1
  rw [stack,List.append_assoc] at marks kept
  rw [← flatten_fulls pos ts,List.append_assoc] at apt
  have size := levelSize_marks inside marks carries.2.marks
  rw [sumLevel]
  simp only [size]
  generalize rest S.branching ts ++ extra = rests at group gathered marks kept apt
  match rests with
  | [] => exact ⟨w,rfl,⟨_,[],gathered.symm,by simp,carries.2.carries,kept⟩,room',fits',apt'⟩
  | [t] =>
    rw [if_neg (by simp),if_neg (by simp; omega)]
    exact ⟨_,rfl,⟨_,[t],gathered.symm,by simp,carries.2.carry inside marks,kept⟩,room',fits',apt'⟩
  | t :: u :: more =>
    have less : (wrapped S ts).length + 1 < S.branching ^ (above + 1) := by
      rw [gathered,List.length_append,List.length_map] at fits'
      rw [wrapped,List.length_map]
      exact fits'.trans_lt (Nat.pow_lt_pow_right (by omega) (by omega))
    rw [← List.nil_append (stack S above (wrapped S ts) ++ _)] at kept
    obtain ⟨w',run,-,after⟩ := wrapFullLevel_wrapped takes (writeToLevel_writes takes inside.le) inside room' carries.2
      marks less (by simp) group apt (gathered ▸ apt') kept
    refine ⟨w',?_,⟨_,[],(List.append_nil _).trans gathered.symm,by simp,after.holds.carries,?_⟩,?_,fits',apt'⟩
    · rw [if_neg (by simp)]
      split
      · exact run
      · exact run
    · rw [List.append_nil]
      exact after.kept
    · rw [after.buffer]
      exact room'

theorem sumLevels_gathers (inside : above ≤ maxLevel) (summed : Summed S above all w) :
    ∃ w', sumLevels pipelineFn bytes S.branching above w = .ok w' ∧
      Summed S 0 (gathered S.branching S.join above all) w' := by
  induction above generalizing all w with
  | zero => exact ⟨w,rfl,summed⟩
  | succ above ih =>
    obtain ⟨next,run,after⟩ := sumLevel_gathers takes (by omega) summed
    obtain ⟨w',runs,final⟩ := ih (by omega) after
    refine ⟨w',?_,final⟩
    rw [sumLevels,run]
    exact runs

/-- `Sum` returns the reference of the one trie that gathering the levels ends with. -/
theorem Sum_gathers (some : 0 < all.length) (summed : Summed S (maxLevel - 1) all w) :
    ∃ root e w', gathered S.branching S.join (maxLevel - 1) all = [root] ∧ S.stands e root ∧
      Sum pipelineFn bytes S.branching w = .ok (e.ref,w') ∧ S.kept [root] w'.state := by
  have pos : 0 < S.branching := by have := takes.wide; omega
  obtain ⟨w',run,after⟩ := sumLevels_gathers takes (by decide) summed
  have single := length_gathered S.join pos (maxLevel - 1) all
  rw [countAfter_one pos some summed.fits] at single
  obtain ⟨root,is⟩ := List.length_eq_one_iff.mp single
  obtain ⟨⟨ts,extra,same,-,carries,kept⟩,-⟩ := after
  have marks := carries.marks
  rw [stack,same,is] at marks kept
  obtain ⟨e,first,stands⟩ : ∃ e, w'.buffer.head? = Option.some e ∧ S.stands e root := by
    have taken := marks.2
    cases held : w'.buffer with
    | nil => simp [held] at taken
    | cons e es =>
      rw [held] at taken
      exact ⟨e,rfl,(List.forall₂_cons.mp taken).1⟩
  refine ⟨root,e,w',is,stands,?_,kept⟩
  have size : levelSize w' maxLevel = 1 := by
    rw [levelSize]
    exact marks.1
  rw [Sum,run]
  simp only [bind,Except.bind,size,ne_eq,not_true_eq_false,if_false,first]
  rfl

end

/-- The trie writer once these leaves came in. -/
structure Feeds (S : Scheme R σ T) (leaves : List T) (w : Writer R σ) : Prop where
  holds : Holds S (maxLevel - 1) leaves w
  kept : S.kept (stack S (maxLevel - 1) leaves) w.state
  room : maxLevel * S.branching ≤ w.buffer.length
  full : w.full = false

theorem feeds_nil (pos : 0 < S.branching) (empty : ∀ level, w.cursors level = 0) (kept : S.kept [] w.state)
    (room : maxLevel * S.branching ≤ w.buffer.length) (full : w.full = false) : Feeds S [] w := by
  have nothing : ∀ above, stack S above [] = [] := by
    intro above
    induction above with
    | zero => rfl
    | succ above ih =>
      rw [stack,wrapped,fulls_short (by simpa),rest_short (by simpa),List.map_nil,ih]
      rfl
  have marks : ∀ above, Marks S above [] w := fun above => ⟨empty _,by simp⟩
  refine ⟨?_,by rwa [nothing],room,full⟩
  generalize maxLevel - 1 = above
  induction above with
  | zero => exact marks 0
  | succ above ih =>
    refine ⟨by rw [nothing]; exact marks _,?_⟩
    rw [wrapped,fulls_short (by simpa)]
    exact ih

/-- The chunk of a leaf is taken, and its reference stands for a trie. -/
def TakesLeaf (S : Scheme R σ T) (pipelineFn : Bytes → σ → Except ε (R × σ)) (leaf : Bytes → T) (data : Bytes) : Prop :=
  ∀ {before : List T} {s : σ}, S.kept before s → ∃ r s', pipelineFn (Feeders.leafData data) s = .ok (r,s') ∧
    S.stands ⟨littleEndian ((Feeders.leafData data).take spanSize),r⟩ (leaf data) ∧ S.kept (before ++ [leaf data]) s'

variable {leaf : Bytes → T}

variable (takes : Takes S pipelineFn bytes)
include takes

theorem leafWrite_feeds {data : Bytes} (taken : TakesLeaf S pipelineFn leaf data) (feeds : Feeds S leaves w)
    (fits : leaves.length + 1 < S.branching ^ (maxLevel - 1)) (apt : S.apt (leaves ++ [leaf data])) :
    ∃ w', leafWrite pipelineFn bytes S.branching (Feeders.leafData data) w = .ok w' ∧ Feeds S (leaves ++ [leaf data]) w' := by
  have wide := takes.wide
  obtain ⟨r,s,run,stands,kept⟩ := taken feeds.kept
  rw [← List.nil_append (stack S (maxLevel - 1) leaves)] at kept
  obtain ⟨w',wrote,written⟩ := writeToLevel_writes takes (by decide) (w := {w with state := s}) stands feeds.room
    (feeds.holds.congr (fun _ _ => rfl) rfl) (fits.trans (Nat.pow_lt_pow_right (by omega) (by decide))) apt kept
  refine ⟨w',?_,written.holds,written.kept,?_,?_⟩
  · rw [leafWrite,run]
    refine Eq.trans (if_neg ?_) wrote
    simp [feeds.full]
  · rw [written.buffer]
    exact feeds.room
  · rw [written.full (by rw [List.length_append]; exact fits)]
    exact feeds.full

theorem feed_feeds {ds : List Bytes} (taken : ∀ d ∈ ds, TakesLeaf S pipelineFn leaf d) (feeds : Feeds S leaves w)
    (fits : leaves.length + ds.length < S.branching ^ (maxLevel - 1)) (apt : S.apt (leaves ++ ds.map leaf)) :
    ∃ w', Feeders.feed (leafWrite pipelineFn bytes S.branching) ds w = .ok w' ∧ Feeds S (leaves ++ ds.map leaf) w' := by
  induction ds generalizing leaves w with
  | nil => exact ⟨w,rfl,by rwa [List.map_nil,List.append_nil]⟩
  | cons d ds ih =>
    rw [List.length_cons] at fits
    rw [List.map_cons,← List.singleton_append,← List.append_assoc] at apt
    obtain ⟨next,run,feeds⟩ := leafWrite_feeds takes (taken d List.mem_cons_self) feeds (by omega) (takes.shorter apt)
    obtain ⟨w',runs,final⟩ := ih (fun d mem => taken d (List.mem_cons_of_mem _ mem)) feeds
      (by rw [List.length_append,List.length_singleton]; omega) apt
    refine ⟨w',?_,by simpa using final⟩
    rw [Feeders.feed,List.foldlM_cons,run]
    exact runs

/-- What was fed ends in the one trie that gathering the leaves gives. -/
theorem feed_gathers {ds : List Bytes} (taken : ∀ d ∈ ds, TakesLeaf S pipelineFn leaf d) (start : Feeds S [] w)
    (some : 0 < ds.length) (fits : ds.length < S.branching ^ (maxLevel - 1)) (apt : S.apt (ds.map leaf)) :
    ∃ root e w', gathered S.branching S.join (maxLevel - 1) (ds.map leaf) = [root] ∧ S.stands e root ∧
      (Feeders.feed (leafWrite pipelineFn bytes S.branching) ds w >>= Sum pipelineFn bytes S.branching) = .ok (e.ref,w') ∧
      S.kept [root] w'.state := by
  obtain ⟨fed,run,feeds⟩ := feed_feeds takes taken start (by simpa using fits) (by simpa using apt)
  rw [run]
  exact Sum_gathers takes (by simpa using some) ⟨⟨_,[],List.append_nil _,by simp,feeds.holds.carries,
    by rw [List.append_nil]; exact feeds.kept⟩,feeds.room,by rw [List.length_map]; exact fits.le,apt⟩

end

end FavorX.TrieWriters

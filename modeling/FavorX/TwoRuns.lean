import FavorX.Batches

/-!
Two runs of programs on stores that write through and agree on some keys. Programs that act alike
return the same, up to a relation, and leave stores that agree again; silent programs always
succeed and change none of the keys.
-/
namespace FavorX.TwoRuns
open Batches

section
variable {K : Type} {V : K → Type} {E L S : Type} {α β γ δ : Type}
variable (M : Medium K V S) (refuse : (k : K) → Option (V k) → Option E)

/-- Two stores hold the same under the keys in `P`. -/
def Agree (P : K → Prop) (s t : S) : Prop := ∀ k, P k → M.read k s = M.read k t

def Clean (s : S) : Prop := ∀ k v, M.read k s = some v → refuse k (some v) = none

/-- Both runs fail in the same way, or both return and the results are related. -/
inductive Results (ρ : α → β → Prop) : Except E α → Except E β → Prop
  | ok {a : α} {b : β} (related : ρ a b) : Results ρ (.ok a) (.ok b)
  | error (e : E) : Results ρ (.error e) (.error e)

/-- On stores that agree, two programs return related results and leave stores that agree. -/
def Alike (P : K → Prop) (ρ : α → β → Prop) (p : Prog K V E L α) (q : Prog K V E L β) : Prop :=
  ∀ s t : S × L, Clean M refuse s.1 → Clean M refuse t.1 → Agree M P s.1 t.1 →
    Results ρ (through M refuse p s).1 (through M refuse q t).1 ∧
      Agree M P (through M refuse p s).2.1 (through M refuse q t).2.1

/-- A program that succeeds and leaves the keys in `P` as they are. -/
def Silent (P : K → Prop) (p : Prog K V E L α) : Prop :=
  ∀ s : S × L, Clean M refuse s.1 →
    (∃ a, (through M refuse p s).1 = .ok a) ∧ Agree M P s.1 (through M refuse p s).2.1

variable {M refuse} {P : K → Prop}

theorem Agree.symm {s t : S} (agree : Agree M P s t) : Agree M P t s := fun k inside => (agree k inside).symm

theorem Agree.trans {s t u : S} (first : Agree M P s t) (second : Agree M P t u) : Agree M P s u :=
  fun k inside => (first k inside).trans (second k inside)

theorem Agree.write {s t : S} (agree : Agree M P s t) (k : K) (v : Option (V k)) :
    Agree M P (M.write k v s) (M.write k v t) := by
  intro l inside
  by_cases same : l = k
  · subst same
    rw [M.read_write,M.read_write]
  · rw [M.read_write_ne _ _ _ _ same,M.read_write_ne _ _ _ _ same]
    exact agree l inside

theorem agree_write {k : K} (outside : ¬ P k) (v : Option (V k)) {s : S} : Agree M P s (M.write k v s) :=
  fun l inside => (M.read_write_ne k l v s (fun same => outside (same ▸ inside))).symm

theorem clean_through (p : Prog K V E L α) {s : S × L} (clean : Clean M refuse s.1) :
    Clean M refuse (through M refuse p s).2.1 := by
  induction p generalizing s with
  | done a => exact clean
  | fail e => exact clean
  | get k next ih | commit next ih | touch f next ih => exact ih _ clean
  | put k v next ih =>
    simp only [through]
    cases accepted : refuse k (some v) with
    | some e => exact ih _ clean
    | none => exact ih _ (kept_write M (fun w same => Option.some.inj same ▸ accepted) clean)
  | stage k v next ih =>
    simp only [through]
    cases accepted : refuse k v with
    | some e => exact ih _ clean
    | none => exact ih _ (kept_write M (fun w same => same ▸ accepted) clean)

theorem silent_done {a : α} : Silent M refuse P (.done a : Prog K V E L α) := fun _ _ => ⟨⟨a,rfl⟩,fun _ _ => rfl⟩

theorem silent_get {k : K} : Silent M refuse P (Batches.get k : Prog K V E L (Option (V k))) :=
  fun _ _ => ⟨⟨_,rfl⟩,fun _ _ => rfl⟩

theorem silent_touch {f : L → L} : Silent M refuse P (touch f : Prog K V E L L) :=
  fun _ _ => ⟨⟨_,rfl⟩,fun _ _ => rfl⟩

theorem silent_commit : Silent M refuse P (commit : Prog K V E L Unit) := fun _ _ => ⟨⟨_,rfl⟩,fun _ _ => rfl⟩

theorem silent_stage {k : K} (outside : ¬ P k) {v : Option (V k)} (accepted : refuse k v = none) :
    Silent M refuse P (stage k v : Prog K V E L Unit) := by
  intro s _
  rw [through_stage,accepted]
  exact ⟨⟨(),rfl⟩,agree_write outside v⟩

theorem silent_stageAnyway {k : K} (outside : ¬ P k) {v : Option (V k)} :
    Silent M refuse P (stageAnyway k v : Prog K V E L Unit) := by
  intro s _
  rw [through_stageAnyway]
  cases refuse k v with
  | some e => exact ⟨⟨(),rfl⟩,fun _ _ => rfl⟩
  | none => exact ⟨⟨(),rfl⟩,agree_write outside v⟩

variable {p : Prog K V E L α}

theorem silent_bind {f : α → Prog K V E L β} (first : Silent M refuse P p) (rest : ∀ a, Silent M refuse P (f a)) :
    Silent M refuse P (p.bind f) := by
  intro s clean
  obtain ⟨⟨a,returned⟩,agree⟩ := first s clean
  have cleaned := clean_through p clean
  rw [through_bind]
  rcases ran : through M refuse p s with ⟨r,t⟩
  rw [ran] at returned agree cleaned
  cases returned
  obtain ⟨returns,agree'⟩ := rest a t cleaned
  exact ⟨returns,agree.trans agree'⟩

variable {q : Prog K V E L β}

theorem alike_of_silent (left : Silent M refuse P p) (right : Silent M refuse P q) :
    Alike M refuse P (fun _ _ => True) p q := by
  intro s t cleanS cleanT agree
  obtain ⟨⟨a,ranS⟩,agreeS⟩ := left s cleanS
  obtain ⟨⟨b,ranT⟩,agreeT⟩ := right t cleanT
  rw [ranS,ranT]
  exact ⟨.ok trivial,agreeS.symm.trans (agree.trans agreeT)⟩

variable {ρ : α → β → Prop}

theorem alike_done {a : α} {b : β} (related : ρ a b) :
    Alike M refuse P ρ (.done a : Prog K V E L α) (.done b) := fun _ _ _ _ agree => ⟨.ok related,agree⟩

theorem alike_mono {σ : α → β → Prop} (weaker : ∀ a b, ρ a b → σ a b) (alike : Alike M refuse P ρ p q) :
    Alike M refuse P σ p q := by
  intro s t cleanS cleanT agree
  obtain ⟨results,agree'⟩ := alike s t cleanS cleanT agree
  refine ⟨?_,agree'⟩
  revert results
  generalize (through M refuse p s).1 = left
  generalize (through M refuse q t).1 = right
  intro results
  cases results with
  | ok related => exact .ok (weaker _ _ related)
  | error e => exact .error e

theorem alike_fail {e : E} : Alike M refuse P ρ (.fail e : Prog K V E L α) (.fail e) :=
  fun _ _ _ _ agree => ⟨.error e,agree⟩

theorem alike_get {k : K} (inside : P k) :
    Alike M refuse P (fun a b => a = b ∧ ∀ v, a = some v → refuse k (some v) = none)
      (Batches.get k : Prog K V E L (Option (V k))) (Batches.get k) := by
  intro s t clean _ agree
  rw [through_get]
  exact ⟨.ok ⟨agree k inside,fun v held => clean k v held⟩,agree⟩

theorem alike_stage {k : K} {v : Option (V k)} :
    Alike M refuse P (fun _ _ => True) (stage k v : Prog K V E L Unit) (stage k v) := by
  intro s t _ _ agree
  rw [through_stage,through_stage]
  cases refuse k v with
  | some e => exact ⟨.error e,agree⟩
  | none => exact ⟨.ok trivial,agree.write k v⟩

theorem alike_bind {σ : γ → δ → Prop} {f : α → Prog K V E L γ} {g : β → Prog K V E L δ}
    (first : Alike M refuse P ρ p q) (rest : ∀ a b, ρ a b → Alike M refuse P σ (f a) (g b)) :
    Alike M refuse P σ (p.bind f) (q.bind g) := by
  intro s t cleanS cleanT agree
  obtain ⟨results,agree'⟩ := first s t cleanS cleanT agree
  have cleanedS := clean_through p cleanS
  have cleanedT := clean_through q cleanT
  rw [through_bind,through_bind]
  rcases ranS : through M refuse p s with ⟨r,s'⟩
  rcases ranT : through M refuse q t with ⟨r',t'⟩
  simp only [ranS,ranT] at results agree' cleanedS cleanedT
  cases results with
  | ok related => exact rest _ _ related s' t' cleanedS cleanedT agree'
  | error e => exact ⟨.error e,agree'⟩

theorem alike_settle {r : Except E α} : Alike M refuse P Eq (settle r : Prog K V E L α) (settle r) := by
  cases r with
  | error e => exact alike_fail
  | ok a => exact alike_done rfl

theorem alike_attempt {q : Prog K V E L α} (alike : Alike M refuse P Eq p q) {caught : E → Bool} :
    Alike M refuse P Eq (p.attempt caught) (q.attempt caught) := by
  intro s t cleanS cleanT agree
  obtain ⟨results,agree'⟩ := alike s t cleanS cleanT agree
  rw [through_attempt,through_attempt]
  rcases ranS : through M refuse p s with ⟨r,s'⟩
  rcases ranT : through M refuse q t with ⟨r',t'⟩
  simp only [ranS,ranT] at results agree'
  cases results with
  | ok related => exact ⟨.ok (congrArg Except.ok related),agree'⟩
  | error e =>
    dsimp only
    split
    · exact ⟨.ok rfl,agree'⟩
    · exact ⟨.error e,agree'⟩

end
end FavorX.TwoRuns

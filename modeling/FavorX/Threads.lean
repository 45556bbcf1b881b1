import Mathlib

/-!
Tasks on a shared state, which go on by atomic steps with answers from the world
outside. An assertion about the whole, each task and any two tasks holds
throughout every run if the step of a task keeps what it says of the others
(`Stable.run`).
-/
namespace FavorX.Threads
variable {σ τ α β : Type}

/-- How a task goes on with an answer, and what the world may do. -/
structure System (σ τ α β : Type) where
  step : σ → τ → α → Option (σ × τ)
  outside : σ → β → σ

structure Config (σ τ : Type) where
  shared : σ
  tasks : List τ

inductive Event (τ α β : Type) where
  | spawn (task : τ)
  | step (i : Nat) (answer : α)
  | outside (change : β)

variable {c c' : Config σ τ} {events : List (Event τ α β)}

namespace System
variable (M : System σ τ α β)

def next (c : Config σ τ) : Event τ α β → Option (Config σ τ)
  | .spawn task => some { c with tasks := c.tasks ++ [task] }
  | .step i answer =>
    match c.tasks[i]? with
    | none => none
    | some task => (M.step c.shared task answer).map (fun r => ⟨r.1,c.tasks.set i r.2⟩)
  | .outside change => some { c with shared := M.outside c.shared change }

/-- A run is refused if one of its events is not possible. -/
def run : Config σ τ → List (Event τ α β) → Option (Config σ τ)
  | c, [] => some c
  | c, e :: es => (M.next c e).bind (fun c' => run c' es)

def AllFit (Fits : Config σ τ → Event τ α β → Prop) : Config σ τ → List (Event τ α β) → Prop
  | _, [] => True
  | c, e :: es => Fits c e ∧ ∀ c', M.next c e = some c' → AllFit Fits c' es

instance decidableAllFit (Fits : Config σ τ → Event τ α β → Prop) [∀ c e, Decidable (Fits c e)] :
    ∀ c events, Decidable (M.AllFit Fits c events)
  | _, [] => isTrue trivial
  | c, e :: es =>
    match made : M.next c e with
    | none =>
      decidable_of_iff (Fits c e) ⟨fun fits => ⟨fits,fun c' now => by rw [made] at now; cases now⟩,fun all => all.1⟩
    | some c' =>
      have := decidableAllFit Fits c' es
      decidable_of_iff (Fits c e ∧ M.AllFit Fits c' es)
        ⟨fun both => ⟨both.1,fun c'' now => by rw [made] at now; cases now; exact both.2⟩,
          fun all => ⟨all.1,all.2 c' made⟩⟩

theorem next_step {i : Nat} {answer : α} (made : M.next c (.step i answer) = some c') :
    ∃ task s task', c.tasks[i]? = some task ∧ M.step c.shared task answer = some (s,task') ∧
      c' = ⟨s,c.tasks.set i task'⟩ := by
  simp only [next] at made
  cases here : c.tasks[i]? with
  | none => simp only [here] at made; cases made
  | some task =>
    simp only [here] at made
    obtain ⟨⟨s,task'⟩,stepped,rfl⟩ := Option.map_eq_some_iff.mp made
    exact ⟨task,s,task',rfl,stepped,rfl⟩

theorem allFit_of_forall {P : Event τ α β → Prop} (all : ∀ e ∈ events, P e) (c : Config σ τ) :
    M.AllFit (fun _ e => P e) c events := by
  induction events generalizing c with
  | nil => trivial
  | cons e es ih =>
    exact ⟨all e List.mem_cons_self,fun c' _ => ih (fun e' member => all e' (List.mem_cons_of_mem e member)) c'⟩

theorem run_append (c : Config σ τ) (events more : List (Event τ α β)) :
    M.run c (events ++ more) = (M.run c events).bind (fun c' => M.run c' more) := by
  induction events generalizing c with
  | nil => rfl
  | cons e es ih =>
    simp only [List.cons_append,run,Option.bind_assoc]
    congr 1
    funext c'
    exact ih c'

theorem run_task {P : τ → Prop}
    (kept : ∀ s task answer s' task', M.step s task answer = some (s',task') → P task → P task')
    (ran : M.run c events = some c') {i : Nat} {task : τ} (here : c.tasks[i]? = some task) (holds : P task) :
    ∃ task', c'.tasks[i]? = some task' ∧ P task' := by
  induction events generalizing c task with
  | nil => cases ran; exact ⟨task,here,holds⟩
  | cons e es ih =>
    obtain ⟨middle,made,rest⟩ := Option.bind_eq_some_iff.mp ran
    have bound := (List.getElem?_eq_some_iff.mp here).1
    cases e with
    | spawn new => cases made; exact ih rest ((List.getElem?_append_left bound).trans here) holds
    | outside change => cases made; exact ih rest here holds
    | step j answer =>
      obtain ⟨moving,s,moved,there,stepped,rfl⟩ := M.next_step made
      by_cases same : j = i
      · subst same
        rw [here] at there
        cases there
        exact ih rest (List.getElem?_set_self bound) (kept _ _ _ _ _ stepped holds)
      · exact ih rest ((List.getElem?_set_ne same).trans here) holds

end System

/-- What is known of the whole, of each task, and of any two of them. -/
structure Assertion (σ τ : Type) where
  whole : Config σ τ → Prop
  own : σ → τ → Prop
  pair : τ → τ → Prop

namespace Assertion

structure Holds (A : Assertion σ τ) (c : Config σ τ) : Prop where
  whole : A.whole c
  own : ∀ (i : Nat) task, c.tasks[i]? = some task → A.own c.shared task
  pair : ∀ (i j : Nat) task task', i ≠ j → c.tasks[i]? = some task → c.tasks[j]? = some task' → A.pair task task'

end Assertion

/-- No event breaks what the assertion says of the tasks that it does not move. -/
structure Stable (M : System σ τ α β) (Fits : Config σ τ → Event τ α β → Prop) (A : Assertion σ τ) : Prop where
  symm : ∀ task task', A.pair task task' → A.pair task' task
  spawn : ∀ c task, A.Holds c → Fits c (.spawn task) →
    A.whole { c with tasks := c.tasks ++ [task] } ∧ A.own c.shared task ∧
      ∀ (i : Nat) other, c.tasks[i]? = some other → A.pair other task
  outside : ∀ c change, A.Holds c → Fits c (.outside change) →
    A.whole { c with shared := M.outside c.shared change } ∧
      ∀ (i : Nat) task, c.tasks[i]? = some task → A.own (M.outside c.shared change) task
  step : ∀ c (i : Nat) answer task s task', A.Holds c → Fits c (.step i answer) → c.tasks[i]? = some task →
    M.step c.shared task answer = some (s,task') →
      A.whole ⟨s,c.tasks.set i task'⟩ ∧ A.own s task' ∧
        ∀ (j : Nat) other, j ≠ i → c.tasks[j]? = some other → A.own s other ∧ A.pair task' other

theorem getElem?_concat {tasks : List τ} {task other : τ} {i : Nat} (here : (tasks ++ [task])[i]? = some other) :
    tasks[i]? = some other ∨ i = tasks.length ∧ other = task := by
  rcases Nat.lt_trichotomy i tasks.length with inside | rfl | beyond
  · rw [List.getElem?_append_left inside] at here
    exact Or.inl here
  · rw [List.getElem?_concat_length] at here
    exact Or.inr ⟨rfl,(Option.some.inj here).symm⟩
  · rw [List.getElem?_eq_none (by rw [List.length_append]; exact beyond)] at here
    cases here

theorem getElem?_set_cases {tasks : List τ} {task other : τ} {i j : Nat} (here : (tasks.set i task)[j]? = some other) :
    j = i ∧ other = task ∨ j ≠ i ∧ tasks[j]? = some other := by
  by_cases same : i = j
  · subst same
    have bound := (List.getElem?_eq_some_iff.mp here).1
    rw [List.length_set] at bound
    rw [List.getElem?_set_self bound] at here
    exact Or.inl ⟨rfl,(Option.some.inj here).symm⟩
  · rw [List.getElem?_set_ne same] at here
    exact Or.inr ⟨fun again => same again.symm,here⟩

section
variable {M : System σ τ α β} {Fits : Config σ τ → Event τ α β → Prop} {A : Assertion σ τ}

theorem Stable.next (stable : Stable M Fits A) {e : Event τ α β} (holds : A.Holds c) (fits : Fits c e)
    (made : M.next c e = some c') : A.Holds c' := by
  cases e with
  | spawn task =>
    cases made
    obtain ⟨whole,own,pair⟩ := stable.spawn c task holds fits
    refine ⟨whole,fun i other here => ?_,fun i j one other apart here there => ?_⟩
    · obtain before | ⟨-,rfl⟩ := getElem?_concat here
      · exact holds.own i other before
      · exact own
    obtain before | ⟨rfl,rfl⟩ := getElem?_concat here <;> obtain before' | ⟨rfl,rfl⟩ := getElem?_concat there
    · exact holds.pair i j one other apart before before'
    · exact pair i one before
    · exact stable.symm _ _ (pair j other before')
    · exact absurd rfl apart
  | outside change =>
    cases made
    obtain ⟨whole,own⟩ := stable.outside c change holds fits
    exact ⟨whole,own,holds.pair⟩
  | step i answer =>
    obtain ⟨task,s,task',here,stepped,rfl⟩ := M.next_step made
    obtain ⟨whole,own,others⟩ := stable.step c i answer task s task' holds fits here stepped
    refine ⟨whole,fun j other there => ?_,fun j k one other apart first second => ?_⟩
    · obtain ⟨-,rfl⟩ | ⟨moved,before⟩ := getElem?_set_cases there
      · exact own
      · exact (others j other moved before).1
    obtain ⟨rfl,rfl⟩ | ⟨moved,before⟩ := getElem?_set_cases first <;>
      obtain ⟨rfl,rfl⟩ | ⟨moved',before'⟩ := getElem?_set_cases second
    · exact absurd rfl apart
    · exact (others k other moved' before').2
    · exact stable.symm _ _ (others j one moved before).2
    · exact holds.pair j k one other apart before before'

theorem Stable.run (stable : Stable M Fits A) (holds : A.Holds c) (fit : M.AllFit Fits c events)
    (ran : M.run c events = some c') : A.Holds c' := by
  induction events generalizing c with
  | nil => cases ran; exact holds
  | cons e es ih =>
    obtain ⟨middle,made,rest⟩ := Option.bind_eq_some_iff.mp ran
    exact ih (stable.next holds fit.1 made) (fit.2 middle made) rest

end
end FavorX.Threads

import Mathlib

/-!
Pools of tasks that run in any order. A pool ends in every order (`Ends`) exactly
when each of its tasks does (`ends_iff`): no task under it goes wrong, and none has
an endless line of tasks under it (`safe_iff`). What every step keeps holds in all
states (`runs_keep`).
-/
namespace FavorX.Pools

section
variable {τ σ : Type} (expand : τ → Option (List τ)) (effect : τ → σ → σ)

/-- Whichever task runs next, it goes well and the pool ends. -/
inductive Ends : Multiset τ → Prop
  | intro {p : Multiset τ} (well : ∀ t ∈ p, expand t ≠ none)
    (next : ∀ t rest children, p = t ::ₘ rest → expand t = some children → Ends (rest + (children : Multiset τ))) :
    Ends p

/-- The task goes well, and so does every task under it. -/
inductive Safe : τ → Prop
  | intro {t : τ} {children : List τ} (well : expand t = some children) (below : ∀ c ∈ children, Safe c) : Safe t

/-- One task of the pool runs. -/
inductive Step : Multiset τ × σ → Multiset τ × σ → Prop
  | run {t : τ} {rest : Multiset τ} {children : List τ} {s : σ} (well : expand t = some children) :
    Step (t ::ₘ rest,s) (rest + (children : Multiset τ),effect t s)

abbrev Runs : Multiset τ × σ → Multiset τ × σ → Prop := Relation.ReflTransGen (Step expand effect)

variable {expand effect}

theorem Safe.children {t : τ} {children : List τ} (safe : Safe expand t) (well : expand t = some children) :
    ∀ c ∈ children, Safe expand c := by
  cases safe with
  | intro well' below =>
    rw [well'] at well
    cases well
    exact below

def Starts (expand : τ → Option (List τ)) (t c : τ) : Prop := ∃ children, expand t = some children ∧ c ∈ children

def Under (expand : τ → Option (List τ)) (c t : τ) : Prop := Safe expand t ∧ Starts expand t c

theorem acc_under {t : τ} (safe : Safe expand t) : Acc (Under expand) t := by
  induction safe with
  | intro well _ ih =>
    refine Acc.intro _ ?_
    rintro c ⟨-,children,well',mem⟩
    rw [well] at well'
    cases well'
    exact ih c mem

theorem not_under_self (t : τ) : ¬ Under expand t t := by
  intro under
  have acc := acc_under under.1
  induction acc with
  | intro t _ ih => exact ih t under under

instance : Std.Irrefl (Under expand) := ⟨not_under_self⟩

theorem Safe.well {t : τ} (safe : Safe expand t) : expand t ≠ none := by
  cases safe with
  | intro well _ => simp [well]

variable {p : Multiset τ}

theorem ends_of_safe (safe : ∀ t ∈ p, Safe expand t) : Ends expand p := by
  have acc : Acc (Relation.CutExpand (Under expand)) p :=
    Relation.acc_of_singleton fun t mem => (acc_under (safe t mem)).cutExpand
  induction acc with
  | intro p _ ih =>
    refine .intro (fun t mem => (safe t mem).well) fun t rest children same well => ?_
    have here : Safe expand t := safe t (by rw [same]; exact Multiset.mem_cons_self t rest)
    refine ih _ ⟨children,t,fun c mem => ⟨here,children,well,mem⟩,?_⟩ ?_
    · rw [same,Multiset.cons_add,Multiset.add_comm _ {t},Multiset.singleton_add]
    intro c mem
    rcases Multiset.mem_add.mp mem with mem | mem
    · exact safe c (by rw [same]; exact Multiset.mem_cons_of_mem mem)
    · exact here.children well c mem

theorem Ends.safe (ends : Ends expand p) : ∀ t ∈ p, Safe expand t := by
  induction ends with
  | intro well next ih =>
    intro t mem
    obtain ⟨rest,same⟩ := Multiset.exists_cons_of_mem mem
    obtain ⟨children,is⟩ := Option.ne_none_iff_exists'.mp (well t mem)
    exact .intro is fun c below => ih t rest children same is c (Multiset.mem_add.mpr (.inr below))

/-- Whether a pool ends in every order is told by its tasks one by one. -/
theorem ends_iff : Ends expand p ↔ ∀ t ∈ p, Safe expand t :=
  ⟨Ends.safe,ends_of_safe⟩

theorem Safe.under {t c : τ} (safe : Safe expand t) (below : Relation.ReflTransGen (Starts expand) t c) :
    Safe expand c := by
  induction below with
  | refl => exact safe
  | tail _ starts ih =>
    obtain ⟨children,well,mem⟩ := starts
    exact ih.children well _ mem

/-- A task is safe if no task under it goes wrong and there is no endless line of tasks
    under it. -/
theorem safe_iff {t : τ} : Safe expand t ↔
    (∀ c, Relation.ReflTransGen (Starts expand) t c → expand c ≠ none) ∧
      ¬ ∃ line : Nat → τ, line 0 = t ∧ ∀ n, Starts expand (line n) (line (n + 1)) := by
  constructor
  · intro safe
    constructor
    · exact fun c below => (safe.under below).well
    induction safe with
    | intro well _ ih =>
      rintro ⟨line,first,next⟩
      obtain ⟨children,well',mem⟩ := next 0
      rw [first,well] at well'
      cases well'
      exact ih (line 1) mem ⟨fun n => line (n + 1),rfl,fun n => next (n + 1)⟩
  rintro ⟨well,grounded⟩
  have acc : Acc (fun c t => Starts expand t c) t := by
    by_contra endless
    exact grounded (not_acc_iff_exists_descending_chain.mp endless)
  clear grounded
  induction acc with
  | intro t _ ih =>
    obtain ⟨children,is⟩ := Option.ne_none_iff_exists'.mp (well t .refl)
    refine .intro is fun c mem => ih c ⟨children,is,mem⟩ fun d below => ?_
    exact well d (.head ⟨children,is,mem⟩ below)

theorem Ends.finishes (ends : Ends expand p) (s : σ) : ∃ s', Runs expand effect (p,s) (0,s') := by
  induction ends generalizing s with
  | @intro p well _ ih =>
    rcases Multiset.empty_or_exists_mem p with rfl | ⟨t,mem⟩
    · exact ⟨s,.refl⟩
    obtain ⟨rest,same⟩ := Multiset.exists_cons_of_mem mem
    obtain ⟨children,is⟩ := Option.ne_none_iff_exists'.mp (well t mem)
    obtain ⟨s',runs⟩ := ih t rest children same is (effect t s)
    refine ⟨s',.head ?_ runs⟩
    rw [same]
    exact .run is

theorem runs_keep {I : Multiset τ → σ → Prop} {p p' : Multiset τ} {s s' : σ}
    (step : ∀ t rest children s, expand t = some children → I (t ::ₘ rest) s →
      I (rest + (children : Multiset τ)) (effect t s))
    (start : I p s) (runs : Runs expand effect (p,s) (p',s')) : I p' s' := by
  have kept : ∀ a b : Multiset τ × σ, Step expand effect a b → I a.1 a.2 → I b.1 b.2 := by
    intro a b one holds
    cases one with
    | run well => exact step _ _ _ _ well holds
  have all : ∀ b, Runs expand effect (p,s) b → I b.1 b.2 := by
    intro b runs
    induction runs with
    | refl => exact start
    | tail _ one ih => exact kept _ _ one ih
  exact all _ runs

end
end FavorX.Pools

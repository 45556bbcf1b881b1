import Mathlib

/-!
Walks along a relation. Where only finitely many places can be reached, no walk
comes to a place twice exactly when the places can be ranked so that every step
goes to a lower one.
-/
namespace FavorX.Rankings
open Relation

variable {α : Type*} {r : α → α → Prop} {a : α}

theorem reachable_of_chain {l : List α} (chain : (a :: l).IsChain r) : ∀ b ∈ a :: l, ReflTransGen r a b := by
  induction l generalizing a with
  | nil =>
    intro b member
    rw [List.mem_singleton.mp member]
  | cons c l ih =>
    intro b member
    rw [List.isChain_cons_cons] at chain
    rcases List.mem_cons.mp member with rfl | later
    · exact .refl
    · exact .head chain.1 (ih chain.2 b later)

/-- The steps that a walk from a place can take go down. -/
def Ranked (r : α → α → Prop) (a : α) (rank : α → Nat) : Prop :=
  ∀ b c, ReflTransGen r a b → r b c → rank c < rank b

theorem nodup_of_ranked {rank : α → Nat} (ranked : Ranked r a rank) {l : List α} (chain : (a :: l).IsChain r) :
    (a :: l).Nodup := by
  have reachable := reachable_of_chain chain
  have falling : (a :: l).IsChain (fun b c => rank c < rank b) :=
    chain.imp_of_mem_imp (fun b c member _ step => ranked b c (reachable b member) step)
  have pairs : (a :: l).Pairwise (fun b c => rank c < rank b) := by
    exact falling.pairwise
  exact pairs.imp (fun lower same => by rw [same] at lower; exact lt_irrefl _ lower)

theorem acyclic_of_nodup (once : ∀ l, (a :: l).IsChain r → (a :: l).Nodup) {b : α} (reach : ReflTransGen r a b) :
    ¬ TransGen r b b := by
  intro cycle
  obtain ⟨c,step,back⟩ := TransGen.head'_iff.mp cycle
  obtain ⟨l,there,last⟩ := List.exists_isChain_cons_of_relationReflTransGen reach
  obtain ⟨m,around,again⟩ := List.exists_isChain_cons_of_relationReflTransGen back
  have walk : ((a :: l) ++ c :: m).IsChain r := by
    refine List.isChain_append.mpr ⟨there,around,fun x isLast y isFirst => ?_⟩
    rw [List.getLast?_eq_some_getLast (List.cons_ne_nil a l),last] at isLast
    cases isLast
    cases isFirst
    exact step
  have nodup : ((a :: l) ++ c :: m).Nodup := once _ walk
  exact (List.nodup_append.mp nodup).2.2 b (last ▸ List.getLast_mem _) b (again ▸ List.getLast_mem _) rfl

theorem nodup_iff_ranked (finite : {b | ReflTransGen r a b}.Finite) :
    (∀ l, (a :: l).IsChain r → (a :: l).Nodup) ↔ ∃ rank, Ranked r a rank := by
  constructor
  · intro once
    refine ⟨fun b => {c | TransGen r b c}.ncard,fun b c reach step => ?_⟩
    have within : {d | TransGen r b d} ⊆ {d | ReflTransGen r a d} := fun d later => reach.trans later.to_reflTransGen
    apply Set.ncard_lt_ncard _ (finite.subset within)
    refine ⟨fun d later => .head step later,fun back => ?_⟩
    exact acyclic_of_nodup once (reach.tail step) (back (TransGen.single step))
  · rintro ⟨rank,ranked⟩ l chain
    exact nodup_of_ranked ranked chain

end FavorX.Rankings

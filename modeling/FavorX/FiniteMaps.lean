import Mathlib

/-!
Finite maps with values of one type, and totals over their entries. A total
changes by exactly the measure of the entry that an insertion adds or a
removal takes away, so that an account kept next to a map can be compared with
what the map holds.
-/
namespace FavorX.FiniteMaps

abbrev Map (K V : Type) := Finmap (fun _ : K => V)

section
variable {K V : Type} [DecidableEq K]

theorem lookup_insert_eq (m : Map K V) (k l : K) {v : V} :
    (m.insert k v).lookup l = if l = k then some v else m.lookup l := by
  split
  · next same => subst same; exact Finmap.lookup_insert m
  · next other => exact Finmap.lookup_insert_of_ne m other

theorem lookup_erase_eq (m : Map K V) (k l : K) :
    (m.erase k).lookup l = if l = k then none else m.lookup l := by
  split
  · next same => subst same; exact Finmap.lookup_erase l m
  · next other => exact Finmap.lookup_erase_ne other

variable {m : Map K V}

theorem erase_of_none {k : K} (absent : m.lookup k = none) : m.erase k = m := by
  apply Finmap.ext_lookup
  intro l
  rw [lookup_erase_eq]
  split
  · next same => rw [same,absent]
  · rfl

theorem insert_erase (m : Map K V) (k : K) (v : V) : (m.erase k).insert k v = m.insert k v := by
  apply Finmap.ext_lookup
  intro l
  simp only [lookup_insert_eq,lookup_erase_eq]
  split <;> rfl

theorem insert_erase_self {k : K} {v : V} (held : m.lookup k = some v) : (m.erase k).insert k v = m := by
  apply Finmap.ext_lookup
  intro l
  simp only [lookup_insert_eq,lookup_erase_eq]
  split
  · next same => rw [same,held]
  · rfl

def update (m : Map K V) (k : K) : Option V → Map K V
  | some v => m.insert k v
  | none => m.erase k

theorem lookup_update (m : Map K V) (k l : K) (v : Option V) :
    (update m k v).lookup l = if l = k then v else m.lookup l := by
  cases v with
  | some v => exact lookup_insert_eq m k l
  | none => exact lookup_erase_eq m k l

def total (f : K → V → Nat) (m : Map K V) : Nat := (m.entries.map (fun e => f e.1 e.2)).sum

variable (f : K → V → Nat)

theorem total_insert_new {k : K} (absent : m.lookup k = none) (v : V) : total f (m.insert k v) = f k v + total f m := by
  have fresh : k ∉ m := Finmap.lookup_eq_none.mp absent
  simp only [total,Finmap.entries_insert_of_notMem fresh,Multiset.map_cons,Multiset.sum_cons]

theorem total_erase {k : K} {v : V} (held : m.lookup k = some v) : total f m = f k v + total f (m.erase k) := by
  have back := total_insert_new f (Finmap.lookup_erase k m) v
  rwa [insert_erase_self held] at back

theorem total_replace {k : K} {w : V} (held : m.lookup k = some w) (v : V) :
    total f (m.insert k v) + f k w = total f m + f k v := by
  have after := total_insert_new f (Finmap.lookup_erase k m) v
  rw [insert_erase] at after
  have before := total_erase f held
  omega

theorem le_total {k : K} {v : V} (held : m.lookup k = some v) : f k v ≤ total f m := by
  have split := total_erase f held
  omega

theorem total_congr {g : K → V → Nat} (same : ∀ k v, m.lookup k = some v → f k v = g k v) : total f m = total g m := by
  induction m using Finmap.induction_on with
  | H a =>
    unfold total
    congr 1
    apply Multiset.map_congr rfl
    rintro ⟨k,v⟩ member
    exact same k v (AList.mem_lookup_iff.mpr member)

theorem total_eq_zero : total f m = 0 ↔ ∀ k v, m.lookup k = some v → f k v = 0 := by
  constructor
  · intro none k v held
    have := le_total f held
    omega
  · intro all
    rw [total_congr f all]
    simp [total]

theorem total_update (m : Map K V) (k : K) (v : Option V) :
    total f (update m k v) + (m.lookup k).elim 0 (f k) = total f m + v.elim 0 (f k) := by
  cases held : m.lookup k with
  | none =>
    cases v with
    | none => simp [update,erase_of_none held]
    | some v =>
      have added := total_insert_new f held v
      simp only [update,Option.elim_none,Option.elim_some]
      omega
  | some w =>
    cases v with
    | none =>
      have removed := total_erase f held
      simp only [update,Option.elim_none,Option.elim_some]
      omega
    | some v =>
      have replaced := total_replace f held v
      simp only [update,Option.elim_some]
      omega

end
end FavorX.FiniteMaps

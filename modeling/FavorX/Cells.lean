import Mathlib

/-!
Memory cells that several holders share. A program holds references; replacing
what a cell holds is seen through every reference to it, while a new cell is
reached by no reference that was there before.
-/
namespace FavorX.Cells

abbrev Ref := Nat

abbrev Heap (V : Type) := List V

section
variable {V : Type} [Inhabited V]

def read (h : Heap V) (r : Ref) : V := h.getD r default

theorem read_old {h : Heap V} {r : Ref} (old : r < h.length) (vs : List V) : read (h ++ vs) r = read h r :=
  List.getD_append h vs default r old

@[simp] theorem read_new {h : Heap V} {v : V} : read (h ++ [v]) h.length = v := by
  simp [read]

theorem read_set_other (h : Heap V) {r q : Ref} (other : q ≠ r) (v : V) : read (h.set r v) q = read h q := by
  simp [read,List.getElem?_set_ne (Ne.symm other)]

theorem read_set {h : Heap V} {r : Ref} (old : r < h.length) (v : V) (q : Ref) :
    read (h.set r v) q = if q = r then v else read h q := by
  split
  · next same =>
    subst same
    simp [read,old]
  · next other => exact read_set_other h other v

theorem read_defaults {h : Heap V} {n : Nat} {r : Ref} : read (h ++ List.replicate n default) r = read h r := by
  unfold read
  rcases Nat.lt_or_ge r h.length with old | new
  · exact List.getD_append _ _ _ _ old
  · rw [List.getD_append_right _ _ _ _ new,List.getD_eq_default _ _ new]
    simp only [List.getD_eq_getElem?_getD,List.getElem?_replicate]
    split <;> rfl

end
end FavorX.Cells

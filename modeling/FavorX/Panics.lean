import Mathlib

/-!
Programs that return a value or an error, or panic. A sequence panics where one
of its parts does; an index or a slice panics outside of what it is taken from.
-/
namespace FavorX.Panics

inductive Failure (E : Type) where
  | err (e : E)
  | panicked
  deriving DecidableEq

variable {E α β : Type}

/-- Return an error unless the condition holds. -/
def check (ok : Bool) (e : E) : Except (Failure E) Unit := if ok then .ok () else .error (.err e)

def orFail (e : E) : Option α → Except (Failure E) α
  | some a => .ok a
  | none => .error (.err e)

def index (b : List α) (i : Nat) : Except (Failure E) α :=
  match b[i]? with
  | some a => .ok a
  | none => .error .panicked

def slice (b : List α) (low high : Nat) : Except (Failure E) (List α) :=
  if low ≤ high ∧ high ≤ b.length then .ok ((b.take high).drop low) else .error .panicked

def Safe (x : Except (Failure E) α) : Prop := x ≠ .error .panicked

theorem bind_eq_ok {x : Except E α} {f : α → Except E β} {b : β} (ok : x >>= f = .ok b) : ∃ a, x = .ok a ∧ f a = .ok b := by
  cases x with
  | error e => cases ok
  | ok a => exact ⟨a,rfl,ok⟩

theorem safe_bind {x : Except (Failure E) α} {f : α → Except (Failure E) β} :
    Safe (x >>= f) ↔ Safe x ∧ ∀ a, x = .ok a → Safe (f a) := by
  cases x with
  | error e =>
    refine ⟨fun safe => ⟨?_,nofun⟩,fun safe => ?_⟩
    · rintro ⟨⟩
      exact safe rfl
    · rintro ⟨⟩
      exact safe.1 rfl
  | ok a =>
    refine ⟨fun safe => ⟨nofun,?_⟩,fun safe => safe.2 a rfl⟩
    rintro _ ⟨⟩
    exact safe

theorem safe_ok (a : α) : Safe (.ok a : Except (Failure E) α) := nofun

theorem safe_err {e : E} : Safe (.error (.err e) : Except (Failure E) α) := nofun

theorem safe_check (ok : Bool) (e : E) : Safe (check ok e) := by
  cases ok <;> nofun

theorem check_ok {ok : Bool} {e : E} {a : Unit} : check ok e = .ok a ↔ ok = true := by
  cases ok with
  | false => exact iff_of_false nofun nofun
  | true => exact iff_of_true rfl rfl

theorem safe_orFail (e : E) (x : Option α) : Safe (orFail e x) := by
  cases x <;> nofun

theorem orFail_ok {e : E} {x : Option α} {a : α} : orFail e x = .ok a ↔ x = some a := by
  cases x with
  | none => exact iff_of_false nofun nofun
  | some b => exact ⟨fun ok => by cases ok; rfl,fun found => by cases found; rfl⟩

theorem index_ok {b : List α} {i : Nat} {a : α} : (index b i : Except (Failure E) α) = .ok a ↔ b[i]? = some a := by
  unfold index
  split
  · next found => rw [found,Except.ok.injEq,Option.some.injEq]
  · next missing => exact iff_of_false nofun (by rw [missing]; nofun)

theorem safe_index (b : List α) (i : Nat) : Safe (index b i : Except (Failure E) α) ↔ i < b.length := by
  unfold index
  split
  · next found => exact iff_of_true nofun (List.getElem?_eq_some_iff.mp found).1
  · next missing => exact iff_of_false (fun safe => safe rfl) (Nat.not_lt.mpr (List.getElem?_eq_none_iff.mp missing))

theorem safe_slice (b : List α) (low high : Nat) :
    Safe (slice b low high : Except (Failure E) (List α)) ↔ low ≤ high ∧ high ≤ b.length := by
  unfold slice
  split
  · next fits => exact iff_of_true nofun fits
  · next outside => exact iff_of_false (fun safe => safe rfl) outside

theorem slice_ok {b c : List α} {low high : Nat} (ok : (slice b low high : Except (Failure E) (List α)) = .ok c) :
    c.length = high - low := by
  unfold slice at ok
  split at ok
  · next fits =>
    cases ok
    rw [List.length_drop,List.length_take,Nat.min_eq_left fits.2]
  · cases ok

end FavorX.Panics

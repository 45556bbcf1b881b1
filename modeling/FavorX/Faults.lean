import FavorX.Batches

/-!
Programs against a store that defers staged writes, where every request can fail,
so that a program can end in several ways (`Ends`). A part of a program may leave
the store alone however it ends (`Stays`), or be able to end well (`Passes`).
-/
namespace FavorX.Faults
open Batches

section
variable {K : Type} {V : K → Type} {E L S α β : Type} (M : Medium K V S)

/-- The program can end with this result and in this state, which is the store,
    what is kept beside it, and the writes that are staged. -/
def Ends : Prog K V E L α → (S × L) × List (Σ k, Option (V k)) → Except E α → (S × L) × List (Σ k, Option (V k)) → Prop
  | .done a, s, r, t => r = .ok a ∧ t = s
  | .fail e, s, r, t => r = .error e ∧ t = s
  | .get k next, s, r, t => Ends (next (.ok (M.read k s.1.1))) s r t ∨ ∃ e, Ends (next (.error e)) s r t
  | .put k v next, s, r, t =>
    Ends (next (.ok ())) ((M.write k (some v) s.1.1,s.1.2),s.2) r t ∨ ∃ e, Ends (next (.error e)) s r t
  | .stage k v next, s, r, t =>
    Ends (next (.ok ())) (s.1,s.2 ++ [⟨k,v⟩]) r t ∨ ∃ e, Ends (next (.error e)) s r t
  | .commit next, s, r, t =>
    Ends (next (.ok ())) ((flush M s.2 s.1.1,s.1.2),[]) r t ∨ ∃ e, Ends (next (.error e)) s r t
  | .touch f next, s, r, t => Ends (next s.1.2) ((s.1.1,f s.1.2),s.2) r t

theorem ends_deferred (p : Prog K V E L α) (s : S × L) (batch : Batch V) :
    Ends M p (s,batch) (deferred M p s batch).1 (deferred M p s batch).2 := by
  induction p generalizing s batch with
  | done a | fail e => exact ⟨rfl,rfl⟩
  | get k next ih => exact .inl (ih _ s batch)
  | put k v next ih => exact .inl (ih _ _ batch)
  | stage k v next ih => exact .inl (ih _ s _)
  | commit next ih => exact .inl (ih _ _ [])
  | touch f next ih => exact ih _ _ batch

section
variable {M} {p : Prog K V E L α} {f : α → Prog K V E L β} {s t u : (S × L) × Batch V}

theorem ends_bind {r : Except E β} :
    Ends M (p.bind f) s r t ↔
      (∃ e, r = .error e ∧ Ends M p s (.error e) t) ∨ ∃ a u, Ends M p s (.ok a) u ∧ Ends M (f a) u r t := by
  induction p generalizing s with
  | done a =>
    constructor
    · intro rest
      exact .inr ⟨a,s,⟨rfl,rfl⟩,rest⟩
    rintro (⟨e,-,same,-⟩ | ⟨b,u,⟨same,rfl⟩,rest⟩)
    · cases same
    · cases same
      exact rest
  | fail e => simp [Prog.bind,Ends]
  | get k next ih | put k v next ih | stage k v next ih | commit next ih => simp only [Prog.bind,Ends,ih]; grind
  | touch f next ih => simp only [Prog.bind,Ends,ih]

theorem Ends.bind {a : α} {r : Except E β} (first : Ends M p s (.ok a) u) (rest : Ends M (f a) u r t) :
    Ends M (p.bind f) s r t := (ends_bind).mpr (.inr ⟨a,u,first,rest⟩)

theorem Ends.bind_error {e : E} (first : Ends M p s (.error e) t) : Ends M (p.bind f) s (.error e) t :=
  (ends_bind).mpr (.inl ⟨e,rfl,first⟩)

end

theorem ends_get {k : K} {s : (S × L) × Batch V} :
    Ends M (get k : Prog K V E L (Option (V k))) s (.ok (M.read k s.1.1)) s := .inl ⟨rfl,rfl⟩

theorem ends_get_error {k : K} (e : E) (s : (S × L) × Batch V) :
    Ends M (get k : Prog K V E L (Option (V k))) s (.error e) s := .inr ⟨e,rfl,rfl⟩

theorem ends_stage_error {k : K} {v : Option (V k)} {e : E} {s : (S × L) × Batch V} :
    Ends M (stage k v : Prog K V E L Unit) s (.error e) s := .inr ⟨e,rfl,rfl⟩

section
variable {M} {p : Prog K V E L α} {s t : (S × L) × Batch V} {r : Except E α}

theorem ends_attempt {caught : E → Bool} {r : Except E (Except E α)} :
    Ends M (p.attempt caught) s r t ↔
      ∃ r', Ends M p s r' t ∧ r = match r' with
        | .ok a => .ok (.ok a)
        | .error e => if caught e then .ok (.error e) else .error e := by
  induction p generalizing s with
  | done a => simp [Prog.attempt,Ends,and_comm]
  | fail e =>
    unfold Prog.attempt
    split <;> rename_i known <;> simp [Ends,known,and_comm]
  | get k next ih | put k v next ih | stage k v next ih | commit next ih => simp only [Prog.attempt,Ends,ih]; grind
  | touch f next ih => simp only [Prog.attempt,Ends,ih]

theorem ends_quiet (quiet : p.Quiet) (ended : Ends M p s r t) : t = s := by
  revert ended
  refine quiet.rule (fun _ ended => ended.2) (fun _ ended => ended.2) (fun k next ih => ?_)
  rintro (told | ⟨e,failed⟩)
  · exact ih _ told
  · exact ih _ failed

theorem ends_quiet_local (quiet : p.Quiet) (ended : Ends M p s r t) {u : (S × L) × Batch V}
    (same : u.1.1 = s.1.1) : Ends M p u r u := by
  revert ended
  refine quiet.rule (fun _ ended => ⟨ended.1,rfl⟩) (fun _ ended => ⟨ended.1,rfl⟩) (fun k next ih => ?_)
  rintro (told | ⟨e,failed⟩)
  · rw [← same] at told
    exact .inl (ih _ told)
  · exact .inr ⟨e,ih _ failed⟩

end

/-- The results that a program can give on a store. -/
def Returns (s : S) (p : Prog K V E L α) (a : α) : Prop := ∃ l batch t, Ends M p ((s,l),batch) (.ok a) t

/-- However the program ends, the store stays as it is, and what is beside it
    changes only as allowed. -/
def Stays (R : L → L → Prop) (s : S) (p : Prog K V E L α) : Prop :=
  ∀ l batch r t, Ends M p ((s,l),batch) r t → t.1.1 = s ∧ R l t.1.2

def Safe (R : L → L → Prop) (s : S) (p : Prog K V E L α) : Prop :=
  ∀ l batch e t, Ends M p ((s,l),batch) (.error e) t → t.1.1 = s ∧ R l t.1.2

/-- The program can end well, and then with the store as it is. -/
def Passes (s : S) (p : Prog K V E L α) : Prop :=
  ∀ l batch, ∃ a l' batch', Ends M p ((s,l),batch) (.ok a) ((s,l'),batch')

variable {p : Prog K V E L α} {f : α → Prog K V E L β}

section
variable {M} {R : L → L → Prop} {s : S}

theorem returns_get {k : K} {v : Option (V k)} (can : Returns M s (get k : Prog K V E L (Option (V k))) v) :
    v = M.read k s := by
  obtain ⟨l,batch,t,⟨same,-⟩ | ⟨e,same,-⟩⟩ := can
  · exact Except.ok.inj same
  · cases same

theorem returns_pure {a b : α} (can : Returns M s (.done a : Prog K V E L α) b) : b = a := by
  obtain ⟨l,batch,t,same,-⟩ := can
  exact Except.ok.inj same

theorem returns_fail {e : E} {b : α} : ¬ Returns M s (.fail e : Prog K V E L α) b := by
  rintro ⟨l,batch,t,same,-⟩
  cases same

theorem returns_bind {b : β} (stays : Stays M R s p) (can : Returns M s (p.bind f) b) :
    ∃ a, Returns M s p a ∧ Returns M s (f a) b := by
  obtain ⟨l,batch,t,ended⟩ := can
  obtain ⟨e,same,-⟩ | ⟨a,⟨⟨s',l'⟩,batch'⟩,first,rest⟩ := (ends_bind).mp ended
  · cases same
  · have kept := (stays l batch _ _ first).1
    cases kept
    exact ⟨a,⟨l,batch,_,first⟩,⟨l',batch',t,rest⟩⟩

theorem stays_mono {R' : L → L → Prop} (stays : Stays M R s p) (weaker : ∀ l l', R l l' → R' l l') :
    Stays M R' s p := by
  intro l batch r t ended
  obtain ⟨store,beside⟩ := stays l batch r t ended
  exact ⟨store,weaker _ _ beside⟩

theorem safe_map (g : α → β) (safe : Safe M R s p) : Safe M R s (p.bind fun a => .done (g a)) := by
  intro l batch e t ended
  rcases (ends_bind).mp ended with ⟨e',same,failed⟩ | ⟨a,u,-,same,-⟩
  · exact safe l batch e' t failed
  · cases same

theorem returns_bind_quiet {b : β} (quiet : p.Quiet) (can : Returns M s (p.bind f) b) :
    ∃ a, Returns M s p a ∧ Returns M s (f a) b := by
  refine returns_bind (R := fun _ _ => True) ?_ can
  intro l batch r t ended
  cases ends_quiet quiet ended
  exact ⟨rfl,trivial⟩

section
variable [IsPreorder L R]

theorem stays_pure {a : α} : Stays M R s (.done a : Prog K V E L α) := by
  rintro l batch r t ⟨-,rfl⟩
  exact ⟨rfl,refl_of R l⟩

theorem stays_fail (e : E) : Stays M R s (.fail e : Prog K V E L α) := by
  rintro l batch r t ⟨-,rfl⟩
  exact ⟨rfl,refl_of R l⟩

theorem stays_quiet (quiet : p.Quiet) : Stays M R s p := by
  intro l batch r t ended
  cases ends_quiet quiet ended
  exact ⟨rfl,refl_of R l⟩

theorem stays_bind (first : Stays M R s p) (rest : ∀ a, Returns M s p a → Stays M R s (f a)) :
    Stays M R s (p.bind f) := by
  intro l batch r t ended
  rcases (ends_bind).mp ended with ⟨e,-,failed⟩ | ⟨a,⟨⟨s',l'⟩,batch'⟩,done,later⟩
  · exact first l batch _ t failed
  obtain ⟨store,beside⟩ := first l batch _ _ done
  cases store
  obtain ⟨store',beside'⟩ := rest a ⟨l,batch,_,done⟩ l' batch' r t later
  exact ⟨store',trans_of R beside beside'⟩

theorem safe_bind (first : Stays M R s p) (rest : ∀ a, Returns M s p a → Safe M R s (f a)) : Safe M R s (p.bind f) := by
  intro l batch e t ended
  rcases (ends_bind).mp ended with ⟨e,-,failed⟩ | ⟨a,⟨⟨s',l'⟩,batch'⟩,done,later⟩
  · exact first l batch _ t failed
  obtain ⟨store,beside⟩ := first l batch _ _ done
  cases store
  obtain ⟨store',beside'⟩ := rest a ⟨l,batch,_,done⟩ l' batch' e t later
  exact ⟨store',trans_of R beside beside'⟩

theorem safe_commit : Safe M R s (commit : Prog K V E L Unit) := by
  intro l batch e t ended
  rcases ended with ⟨same,-⟩ | ⟨e',-,rfl⟩
  · cases same
  · exact ⟨rfl,refl_of R l⟩

end

/-- The program neither writes directly nor commits, and it touches what is
    beside the store only as allowed. -/
def Calm (R : L → L → Prop) : Prog K V E L α → Prop
  | .done _ => True
  | .fail _ => True
  | .get _ next => ∀ r, Calm R (next r)
  | .put _ _ _ => False
  | .stage _ _ next => ∀ r, Calm R (next r)
  | .commit _ => False
  | .touch f next => (∀ l, R l (f l)) ∧ ∀ l, Calm R (next l)

theorem calm_quiet (quiet : p.Quiet) : Calm R p :=
  quiet.rule (fun _ => trivial) (fun _ => trivial) (fun _ _ ih => ih)

theorem calm_stage {k : K} {v : Option (V k)} : Calm R (stage k v : Prog K V E L Unit) := fun r => by cases r <;> trivial

theorem calm_stageAnyway (k : K) {v : Option (V k)} : Calm R (stageAnyway k v : Prog K V E L Unit) := fun _ => trivial

theorem calm_touch {g : L → L} (allowed : ∀ l, R l (g l)) : Calm R (touch g : Prog K V E L L) :=
  ⟨allowed,fun _ => trivial⟩

theorem calm_bind (first : Calm R p) (rest : ∀ a, Calm R (f a)) : Calm R (p.bind f) := by
  induction p with
  | done a => exact rest a
  | fail e => trivial
  | get k next ih | stage k v next ih => exact fun r => ih r (first r)
  | put k v next ih => exact first
  | commit next ih => exact first
  | touch g next ih => exact ⟨first.1,fun l => ih l (first.2 l)⟩

theorem stays_calm [IsPreorder L R] (calm : Calm R p) : Stays M R s p := by
  intro l batch r t ended
  induction p generalizing l batch with
  | done a => exact stays_pure l batch r t ended
  | fail e => exact stays_fail e l batch r t ended
  | get k next ih =>
    rcases ended with told | ⟨e,failed⟩
    · exact ih _ (calm _) l batch told
    · exact ih _ (calm _) l batch failed
  | put k v next ih | commit next ih => exact calm.elim
  | stage k v next ih =>
    rcases ended with told | ⟨e,failed⟩
    · exact ih _ (calm _) l _ told
    · exact ih _ (calm _) l batch failed
  | touch f next ih =>
    obtain ⟨store,beside⟩ := ih _ (calm.2 _) (f l) batch ended
    exact ⟨store,trans_of R (calm.1 l) beside⟩

theorem passes_pure {a : α} : Passes M s (.done a : Prog K V E L α) := fun l batch => ⟨a,l,batch,rfl,rfl⟩

theorem passes_get {k : K} : Passes M s (get k : Prog K V E L (Option (V k))) :=
  fun l batch => ⟨_,l,batch,ends_get M⟩

theorem passes_stage {k : K} {v : Option (V k)} : Passes M s (stage k v : Prog K V E L Unit) :=
  fun l batch => ⟨(),l,batch ++ [⟨k,v⟩],.inl ⟨rfl,rfl⟩⟩

theorem passes_touch {g : L → L} : Passes M s (touch g : Prog K V E L L) :=
  fun l batch => ⟨l,g l,batch,rfl,rfl⟩

theorem passes_bind (first : Passes M s p) (rest : ∀ a, Returns M s p a → Passes M s (f a)) :
    Passes M s (p.bind f) := by
  intro l batch
  obtain ⟨a,l',batch',done⟩ := first l batch
  obtain ⟨b,l'',batch'',ended⟩ := rest a ⟨l,batch,_,done⟩ l' batch'
  exact ⟨b,l'',batch'',done.bind ended⟩

end
end
end FavorX.Faults

import Mathlib

/-!
Programs against a key-value store that collect writes in a batch, run on a store
that writes through and on one that defers. A program whose reads never meet a key
it has staged, and which fails only before it has staged anything, cannot tell
the two apart (`deferred_eq_through`).
-/
namespace FavorX.Batches

/-- A program: its requests to the store, each with what it does with the
    reply. A reply can be an error, which the program may pass on or ignore.
    `touch` reads and updates state that the program keeps outside the store. -/
inductive Prog (K : Type) (V : K → Type) (E L α : Type) : Type
  | done (a : α)
  | fail (e : E)
  | get (k : K) (next : Except E (Option (V k)) → Prog K V E L α)
  | put (k : K) (v : V k) (next : Except E Unit → Prog K V E L α)
  | stage (k : K) (v : Option (V k)) (next : Except E Unit → Prog K V E L α)
  | commit (next : Except E Unit → Prog K V E L α)
  | touch (f : L → L) (next : L → Prog K V E L α)

section
variable {K : Type} {V : K → Type} {E L S α β : Type}

def Prog.bind : Prog K V E L α → (α → Prog K V E L β) → Prog K V E L β
  | .done a, f => f a
  | .fail e, _ => .fail e
  | .get k next, f => .get k (fun r => (next r).bind f)
  | .put k v next, f => .put k v (fun r => (next r).bind f)
  | .stage k v next, f => .stage k v (fun r => (next r).bind f)
  | .commit next, f => .commit (fun r => (next r).bind f)
  | .touch g next, f => .touch g (fun l => (next l).bind f)

instance : Monad (Prog K V E L) where
  pure := .done
  bind := .bind

def settle : Except E α → Prog K V E L α
  | .ok a => .done a
  | .error e => .fail e

def fail (e : E) : Prog K V E L α := .fail e
def get (k : K) : Prog K V E L (Option (V k)) := .get k settle
def put (k : K) (v : V k) : Prog K V E L Unit := .put k v settle
/-- Stage a write, or with `none` a removal. -/
def stage (k : K) (v : Option (V k)) : Prog K V E L Unit := .stage k v settle
/-- Stage a write and ignore whether it was accepted. -/
def stageAnyway (k : K) (v : Option (V k)) : Prog K V E L Unit := .stage k v (fun _ => .done ())
def commit : Prog K V E L Unit := .commit settle
def touch (f : L → L) : Prog K V E L L := .touch f .done

/-- Run a program and return its error where `caught` accepts it. -/
def Prog.attempt (caught : E → Bool) : Prog K V E L α → Prog K V E L (Except E α)
  | .done a => .done (.ok a)
  | .fail e => if caught e then .done (.error e) else .fail e
  | .get k next => .get k (fun r => (next r).attempt caught)
  | .put k v next => .put k v (fun r => (next r).attempt caught)
  | .stage k v next => .stage k v (fun r => (next r).attempt caught)
  | .commit next => .commit (fun r => (next r).attempt caught)
  | .touch g next => .touch g (fun l => (next l).attempt caught)

def Prog.Quiet : Prog K V E L α → Prop
  | .done _ => True
  | .fail _ => True
  | .get _ next => ∀ r, (next r).Quiet
  | .put _ _ _ => False
  | .stage _ _ _ => False
  | .commit _ => False
  | .touch _ _ => False

/-- Stores that hold at most one value for each key. -/
structure Medium (K : Type) (V : K → Type) (S : Type) where
  read : (k : K) → S → Option (V k)
  write : (k : K) → Option (V k) → S → S
  read_write : ∀ k v s, read k (write k v s) = v
  read_write_ne : ∀ k l v s, l ≠ k → read l (write k v s) = read l s
  ext : ∀ s t, (∀ k, read k s = read k t) → s = t

variable (M : Medium K V S) (refuse : (k : K) → Option (V k) → Option E)

/-- Run a program on a store that writes through and refuses some writes. -/
def through : Prog K V E L α → S × L → Except E α × (S × L)
  | .done a, s => (.ok a,s)
  | .fail e, s => (.error e,s)
  | .get k next, s => through (next (.ok (M.read k s.1))) s
  | .put k v next, s =>
    match refuse k (some v) with
    | some e => through (next (.error e)) s
    | none => through (next (.ok ())) (M.write k (some v) s.1,s.2)
  | .stage k v next, s =>
    match refuse k v with
    | some e => through (next (.error e)) s
    | none => through (next (.ok ())) (M.write k v s.1,s.2)
  | .commit next, s => through (next (.ok ())) s
  | .touch f next, s => through (next s.2) (s.1,f s.2)

abbrev Batch (V : K → Type) := List (Σ k, Option (V k))

def flush (batch : List (Σ k, Option (V k))) (s : S) : S := batch.foldl (fun s w => M.write w.1 w.2 s) s

/-- Run a program on a store that defers staged writes until the commit and
    refuses nothing. The staged writes that no commit applied are returned. -/
def deferred : Prog K V E L α → S × L → List (Σ k, Option (V k)) → Except E α × (S × L) × List (Σ k, Option (V k))
  | .done a, s, batch => (.ok a,s,batch)
  | .fail e, s, batch => (.error e,s,batch)
  | .get k next, s, batch => deferred (next (.ok (M.read k s.1))) s batch
  | .put k v next, s, batch => deferred (next (.ok ())) (M.write k (some v) s.1,s.2) batch
  | .stage k v next, s, batch => deferred (next (.ok ())) s (batch ++ [⟨k,v⟩])
  | .commit next, s, batch => deferred (next (.ok ())) (flush M batch s.1,s.2) []
  | .touch f next, s, batch => deferred (next s.2) (s.1,f s.2) batch

/-- On a store that writes through, the program reads and directly writes no
    key it has staged since the last commit, no write is refused, it fails only
    when nothing is staged, and otherwise it ends in `Q`. -/
def Separate (Q : α → S × L → List K → Prop) : Prog K V E L α → S × L → List K → Prop
  | .done a, s, staged => Q a s staged
  | .fail _, _, staged => staged = []
  | .get k next, s, staged => k ∉ staged ∧ Separate Q (next (.ok (M.read k s.1))) s staged
  | .put k v next, s, staged =>
    k ∉ staged ∧ refuse k (some v) = none ∧ Separate Q (next (.ok ())) (M.write k (some v) s.1,s.2) staged
  | .stage k v next, s, staged =>
    refuse k v = none ∧ Separate Q (next (.ok ())) (M.write k v s.1,s.2) (k :: staged)
  | .commit next, s, _ => Separate Q (next (.ok ())) s []
  | .touch f next, s, staged => Separate Q (next s.2) (s.1,f s.2) staged

@[simp] theorem bind_eq (p : Prog K V E L α) (f : α → Prog K V E L β) : (p >>= f) = p.bind f := rfl
@[simp] theorem pure_eq (a : α) : (pure a : Prog K V E L α) = .done a := rfl

theorem Prog.bind_assoc {γ : Type} (p : Prog K V E L α) (f : α → Prog K V E L β) (g : β → Prog K V E L γ) :
    (p.bind f).bind g = p.bind fun a => (f a).bind g := by
  induction p with
  | done a => rfl
  | fail e => rfl
  | get k next ih => exact congrArg (Prog.get k) (funext ih)
  | put k v next ih => exact congrArg (Prog.put k v) (funext ih)
  | stage k v next ih => exact congrArg (Prog.stage k v) (funext ih)
  | commit next ih => exact congrArg Prog.commit (funext ih)
  | touch h next ih => exact congrArg (Prog.touch h) (funext ih)

@[simp] theorem through_done (a : α) (s : S × L) : through M refuse (.done a) s = (.ok a,s) := rfl
@[simp] theorem through_fail (e : E) (s : S × L) : through M refuse (fail e : Prog K V E L α) s = (.error e,s) := rfl
@[simp] theorem through_get (k : K) (s : S × L) : through M refuse (get k) s = (.ok (M.read k s.1),s) := rfl
@[simp] theorem through_commit (s : S × L) : through M refuse commit s = (.ok (),s) := rfl

theorem through_stage (k : K) (v : Option (V k)) (s : S × L) :
    through M refuse (stage k v) s =
      match refuse k v with
      | some e => (.error e,s)
      | none => (.ok (),(M.write k v s.1,s.2)) := by
  simp only [stage,through]
  cases refuse k v <;> rfl

theorem through_stageAnyway (k : K) (v : Option (V k)) (s : S × L) :
    through M refuse (stageAnyway k v) s =
      match refuse k v with
      | some _ => (.ok (),s)
      | none => (.ok (),(M.write k v s.1,s.2)) := by
  simp only [stageAnyway,through]

@[simp] theorem through_bind (p : Prog K V E L α) (f : α → Prog K V E L β) (s : S × L) :
    through M refuse (p.bind f) s =
      match through M refuse p s with
      | (.ok a,t) => through M refuse (f a) t
      | (.error e,t) => (.error e,t) := by
  induction p generalizing s with
  | done a => rfl
  | fail e => rfl
  | get k next ih | commit next ih | touch f next ih => simp only [Prog.bind,through,ih]
  | put k v next ih => simp only [Prog.bind,through]; cases refuse k (some v) <;> simp only [ih]
  | stage k v next ih => simp only [Prog.bind,through]; cases refuse k v <;> simp only [ih]

variable {p : Prog K V E L α} {f : α → Prog K V E L β}

variable {M refuse} in
theorem through_bind_ok {s t : S × L} {b : β} (run : through M refuse (p.bind f) s = (.ok b,t)) :
    ∃ a u, through M refuse p s = (.ok a,u) ∧ through M refuse (f a) u = (.ok b,t) := by
  rw [through_bind] at run
  rcases first : through M refuse p s with ⟨r,u⟩
  cases r with
  | error e => rw [first] at run; cases run
  | ok a => rw [first] at run; exact ⟨a,u,rfl,run⟩

variable {M refuse} in
theorem through_bind_cases {p : Prog K V E L α} {f : α → Prog K V E L β} {s : S × L} :
    (∃ e t, through M refuse p s = (.error e,t) ∧ through M refuse (p.bind f) s = (.error e,t)) ∨
      ∃ a t, through M refuse p s = (.ok a,t) ∧ through M refuse (p.bind f) s = through M refuse (f a) t := by
  rw [through_bind]
  rcases through M refuse p s with ⟨r,t⟩
  cases r with
  | error e => exact .inl ⟨e,t,rfl,rfl⟩
  | ok a => exact .inr ⟨a,t,rfl,rfl⟩

@[simp] theorem through_attempt (caught : E → Bool) (p : Prog K V E L α) (s : S × L) :
    through M refuse (p.attempt caught) s =
      match through M refuse p s with
      | (.ok a,t) => (.ok (.ok a),t)
      | (.error e,t) => if caught e then (.ok (.error e),t) else (.error e,t) := by
  induction p generalizing s with
  | done a => rfl
  | fail e => simp only [Prog.attempt,through]; split <;> rfl
  | get k next ih | commit next ih | touch f next ih => simp only [Prog.attempt,through,ih]
  | put k v next ih => simp only [Prog.attempt,through]; cases refuse k (some v) <;> simp only [ih]
  | stage k v next ih => simp only [Prog.attempt,through]; cases refuse k v <;> simp only [ih]

theorem quiet_settle (r : Except E α) : (settle r : Prog K V E L α).Quiet := by
  cases r <;> trivial

theorem quiet_get {k : K} : (get k : Prog K V E L (Option (V k))).Quiet := fun r => quiet_settle r

theorem quiet_bind (first : p.Quiet) (rest : ∀ a, (f a).Quiet) : (p.bind f).Quiet := by
  induction p with
  | done a => exact rest a
  | fail e => trivial
  | get k next ih => exact fun r => ih r (first r)
  | put k v next ih => exact first
  | stage k v next ih => exact first
  | commit next ih => exact first
  | touch f next ih => exact first

section
variable (quiet : p.Quiet)
include quiet

/-- What holds of the ends of programs, and of a program that reads if it holds of what follows, holds of
    every program that only reads. -/
@[elab_as_elim] theorem Prog.Quiet.rule {C : Prog K V E L α → Prop} (done : ∀ a, C (.done a))
    (fails : ∀ e, C (.fail e)) (reads : ∀ k next, (∀ r, C (next r)) → C (.get k next)) : C p := by
  induction p with
  | done a => exact done a
  | fail e => exact fails e
  | get k next ih => exact reads k next (fun r => ih r (quiet r))
  | put k v next ih | stage k v next ih | commit next ih | touch f next ih => exact quiet.elim

theorem quiet_attempt {caught : E → Bool} : (p.attempt caught).Quiet := by
  refine quiet.rule (fun _ => trivial) (fun e => ?_) (fun _ _ ih => ih)
  unfold Prog.attempt
  split <;> trivial

theorem through_quiet (s : S × L) : (through M refuse p s).2 = s :=
  quiet.rule (fun _ => rfl) (fun _ => rfl) (fun _ _ ih => ih _)

theorem through_quiet_local {s : S} (l l' : L) : (through M refuse p (s,l)).1 = (through M refuse p (s,l')).1 :=
  quiet.rule (fun _ => rfl) (fun _ => rfl) (fun _ _ ih => ih _)

end

/-- Every key that the program writes or stages, whatever it reads, is in `P`. -/
def Prog.Writes (P : K → Prop) : Prog K V E L α → Prop
  | .done _ => True
  | .fail _ => True
  | .get _ next => ∀ r, (next r).Writes P
  | .put k _ next => P k ∧ ∀ r, (next r).Writes P
  | .stage k _ next => P k ∧ ∀ r, (next r).Writes P
  | .commit next => ∀ r, (next r).Writes P
  | .touch _ next => ∀ l, (next l).Writes P

variable {P : K → Prop}

theorem writes_settle {r : Except E α} : (settle r : Prog K V E L α).Writes P := by
  cases r <;> trivial

variable {k : K}

theorem writes_stage (may : P k) (v : Option (V k)) : (stage k v : Prog K V E L Unit).Writes P :=
  ⟨may,fun _ => writes_settle⟩

theorem writes_commit : (commit : Prog K V E L Unit).Writes P := fun _ => writes_settle

theorem writes_bind (first : p.Writes P) (rest : ∀ a, (f a).Writes P) : (p.bind f).Writes P := by
  induction p with
  | done a => exact rest a
  | fail e => trivial
  | get k next ih | commit next ih => exact fun r => ih r (first r)
  | put k v next ih | stage k v next ih => exact ⟨first.1,fun r => ih r (first.2 r)⟩
  | touch f next ih => exact fun l => ih l (first l)

theorem writes_mono {Q : K → Prop} (weaker : ∀ k, P k → Q k) (only : p.Writes P) : p.Writes Q := by
  induction p with
  | done a => trivial
  | fail e => trivial
  | get k next ih | commit next ih => exact fun r => ih r (only r)
  | put k v next ih | stage k v next ih => exact ⟨weaker k only.1,fun r => ih r (only.2 r)⟩
  | touch f next ih => exact fun l => ih l (only l)

theorem writes_quiet (quiet : p.Quiet) : p.Writes P :=
  quiet.rule (fun _ => trivial) (fun _ => trivial) (fun _ _ ih => ih)

theorem read_through (only : p.Writes P) (other : ¬ P k) (s : S × L) :
    M.read k (through M refuse p s).2.1 = M.read k s.1 := by
  induction p generalizing s with
  | done a => rfl
  | fail e => rfl
  | get l next ih | commit next ih => exact ih _ (only _) s
  | put l v next ih =>
    have ne : k ≠ l := fun same => other (same ▸ only.1)
    simp only [through]
    cases refuse l (some v) with
    | some e => exact ih _ (only.2 _) s
    | none => exact (ih _ (only.2 _) _).trans (M.read_write_ne _ _ _ _ ne)
  | stage l v next ih =>
    have ne : k ≠ l := fun same => other (same ▸ only.1)
    simp only [through]
    cases refuse l v with
    | some e => exact ih _ (only.2 _) s
    | none => exact (ih _ (only.2 _) _).trans (M.read_write_ne _ _ _ _ ne)
  | touch f next ih => exact ih _ (only _) _

/-- If the values that the program reads are in `W`, then so is every value that
    it writes or stages, and its result is in `Q`. -/
def Prog.Keeps (W : (k : K) → V k → Prop) (Q : α → Prop) : Prog K V E L α → Prop
  | .done a => Q a
  | .fail _ => True
  | .get k next => ∀ r, (∀ v, r = .ok (some v) → W k v) → (next r).Keeps W Q
  | .put k v next => W k v ∧ ∀ r, (next r).Keeps W Q
  | .stage k v next => (∀ w, v = some w → W k w) ∧ ∀ r, (next r).Keeps W Q
  | .commit next => ∀ r, (next r).Keeps W Q
  | .touch _ next => ∀ l, (next l).Keeps W Q

variable {v : Option (V k)} {p : Prog K V E L α} {s : S × L}

section
variable {W : (k : K) → V k → Prop} {Q : α → Prop}

theorem keeps_settle {r : Except E α} (fine : ∀ a, r = .ok a → Q a) : (settle r : Prog K V E L α).Keeps W Q := by
  cases r with
  | error e => trivial
  | ok a => exact fine a rfl

theorem keeps_get {k : K} : (get k : Prog K V E L (Option (V k))).Keeps W (fun r => ∀ v, r = some v → W k v) :=
  fun _ fine => keeps_settle (fun _ same v held => fine v (by rw [same,held]))

theorem keeps_bind {R : β → Prop} {f : α → Prog K V E L β} (first : p.Keeps W Q) (rest : ∀ a, Q a → (f a).Keeps W R) :
    (p.bind f).Keeps W R := by
  induction p with
  | done a => exact rest a first
  | fail e => trivial
  | get k next ih => exact fun r fine => ih r (first r fine)
  | put k v next ih | stage k v next ih => exact ⟨first.1,fun r => ih r (first.2 r)⟩
  | commit next ih => exact fun r => ih r (first r)
  | touch f next ih => exact fun l => ih l (first l)

theorem keeps_of_writes (only : p.Writes P) (free : ∀ k v, P k → W k v) : p.Keeps W (fun _ => True) := by
  induction p with
  | done a => trivial
  | fail e => trivial
  | get k next ih => exact fun r _ => ih r (only r)
  | put k v next ih => exact ⟨free k v only.1,fun r => ih r (only.2 r)⟩
  | stage k v next ih => exact ⟨fun w _ => free k w only.1,fun r => ih r (only.2 r)⟩
  | commit next ih => exact fun r => ih r (only r)
  | touch f next ih => exact fun l => ih l (only l)

theorem kept_write {s : S} (may : ∀ w, v = some w → W k w) (holds : ∀ l w, M.read l s = some w → W l w) :
    ∀ l w, M.read l (M.write k v s) = some w → W l w := by
  intro l w held
  by_cases same : l = k
  · subst same
    rw [M.read_write] at held
    exact may w held
  · rw [M.read_write_ne _ _ _ _ same] at held
    exact holds l w held

theorem keeps_through (keeps : p.Keeps W Q) (holds : ∀ k v, M.read k s.1 = some v → W k v) :
    ∀ k v, M.read k (through M refuse p s).2.1 = some v → W k v := by
  induction p generalizing s with
  | done a => exact holds
  | fail e => exact holds
  | get k next ih => exact ih _ (keeps _ (fun v same => holds k v (Except.ok.inj same))) holds
  | put k v next ih =>
    simp only [through]
    cases refuse k (some v) with
    | some e => exact ih _ (keeps.2 _) holds
    | none => exact ih _ (keeps.2 _) (kept_write M (fun w same => Option.some.inj same ▸ keeps.1) holds)
  | stage k v next ih =>
    simp only [through]
    cases refuse k v with
    | some e => exact ih _ (keeps.2 _) holds
    | none => exact ih _ (keeps.2 _) (kept_write M keeps.1 holds)
  | commit next ih | touch f next ih => exact ih _ (keeps _) holds

theorem kept_flush {batch : Batch V} {s : S} (may : ∀ w ∈ batch, ∀ v, w.2 = some v → W w.1 v)
    (holds : ∀ l w, M.read l s = some w → W l w) : ∀ l w, M.read l (flush M batch s) = some w → W l w := by
  induction batch generalizing s with
  | nil => exact holds
  | cons w rest ih =>
    exact ih (fun x member => may x (List.mem_cons_of_mem _ member))
      (kept_write M (may w List.mem_cons_self) holds)

theorem keeps_deferred (keeps : p.Keeps W Q) {batch : Batch V}
    (staged : ∀ w ∈ batch, ∀ v, w.2 = some v → W w.1 v) (holds : ∀ k v, M.read k s.1 = some v → W k v) :
    ∀ k v, M.read k (deferred M p s batch).2.1.1 = some v → W k v := by
  induction p generalizing s batch with
  | done a => exact holds
  | fail e => exact holds
  | get k next ih => exact ih _ (keeps _ (fun v same => holds k v (Except.ok.inj same))) staged holds
  | put k v next ih =>
    exact ih _ (keeps.2 _) staged (kept_write M (fun w same => Option.some.inj same ▸ keeps.1) holds)
  | stage k v next ih =>
    refine ih _ (keeps.2 _) (fun w member => ?_) holds
    rcases List.mem_append.mp member with old | new
    · exact staged w old
    · rw [List.mem_singleton.mp new]
      exact keeps.1
  | commit next ih => exact ih _ (keeps _) nofun (kept_flush M staged holds)
  | touch f next ih => exact ih _ (keeps _) staged holds

end

theorem deferred_bind (p : Prog K V E L α) (f : α → Prog K V E L β) (s : S × L) (batch : Batch V) :
    deferred M (p.bind f) s batch =
      match deferred M p s batch with
      | (.ok a,t,batch') => deferred M (f a) t batch'
      | (.error e,t,batch') => (.error e,t,batch') := by
  induction p generalizing s batch with
  | done a => rfl
  | fail e => rfl
  | get k next ih => exact ih _ s batch
  | put k v next ih | touch g next ih => exact ih _ _ batch
  | stage k v next ih => exact ih _ s _
  | commit next ih => exact ih _ _ []

variable {M} in
theorem deferred_bind_ok {batch : Batch V} {t : (S × L) × Batch V} {b : β}
    (run : deferred M (p.bind f) s batch = (.ok b,t)) :
    ∃ a u, deferred M p s batch = (.ok a,u) ∧ deferred M (f a) u.1 u.2 = (.ok b,t) := by
  rw [deferred_bind] at run
  rcases first : deferred M p s batch with ⟨r,u⟩
  cases r with
  | error e => rw [first] at run; cases run
  | ok a => rw [first] at run; exact ⟨a,u,rfl,run⟩

theorem separate_quiet {Q : α → S × L → List K → Prop} (quiet : p.Quiet)
    (holds : ∀ a, (through M refuse p s).1 = .ok a → Q a s []) : Separate M refuse Q p s [] := by
  revert holds
  refine quiet.rule (fun a holds => holds a rfl) (fun _ _ => rfl) (fun _ _ ih holds => ?_)
  exact ⟨List.not_mem_nil,ih _ holds⟩

theorem separate_bind {Q : β → S × L → List K → Prop} (p : Prog K V E L α) (f : α → Prog K V E L β) (s : S × L)
    (staged : List K) :
    Separate M refuse Q (p.bind f) s staged ↔
      Separate M refuse (fun a t staged' => Separate M refuse Q (f a) t staged') p s staged := by
  induction p generalizing s staged with
  | done a => rfl
  | fail e => rfl
  | get k next ih | put k v next ih | stage k v next ih | commit next ih | touch f next ih =>
    simp only [Prog.bind,Separate,ih]

variable {Q R : α → S × L → List K → Prop} {staged : List K}

theorem separate_mono (weaker : ∀ a s staged, Q a s staged → R a s staged) (holds : Separate M refuse Q p s staged) :
    Separate M refuse R p s staged := by
  induction p generalizing s staged with
  | done a => exact weaker a s staged holds
  | fail e => exact holds
  | get k next ih | stage k v next ih => exact ⟨holds.1,ih _ holds.2⟩
  | put k v next ih => exact ⟨holds.1,holds.2.1,ih _ holds.2.2⟩
  | commit next ih | touch f next ih => exact ih _ holds

theorem separate_ends (holds : Separate M refuse Q p s staged) :
    Separate M refuse (fun a t staged' => Q a t staged' ∧ through M refuse p s = (.ok a,t)) p s staged := by
  induction p generalizing s staged with
  | done a => exact ⟨holds,rfl⟩
  | fail e => exact holds
  | get k next ih => exact ⟨holds.1,ih _ holds.2⟩
  | put k v next ih =>
    have rest := ih _ holds.2.2
    refine ⟨holds.1,holds.2.1,?_⟩
    simpa only [through,holds.2.1] using rest
  | stage k v next ih =>
    have rest := ih _ holds.2
    refine ⟨holds.1,?_⟩
    simpa only [through,holds.1] using rest
  | commit next ih | touch f next ih => exact ih _ holds

/-- While at most keys in `P` are staged the program is separate, and then at
    most keys in `R` are staged. -/
def Apart (P R : K → Prop) (p : Prog K V E L α) (s : S × L) : Prop :=
  ∀ staged : List K, (∀ k ∈ staged, P k) → Separate M refuse (fun _ _ staged' => ∀ k ∈ staged', R k) p s staged

section
variable {M refuse} {P Q R : K → Prop}

theorem apart_bind {f : α → Prog K V E L β} (first : Apart M refuse P Q p s)
    (rest : ∀ a t, through M refuse p s = (.ok a,t) → Apart M refuse Q R (f a) t) :
    Apart M refuse P R (p.bind f) s := by
  intro staged within
  rw [separate_bind]
  refine separate_mono M refuse ?_ (separate_ends M refuse (first staged within))
  rintro a t staged' ⟨within',ended⟩
  exact rest a t ended staged' within'

theorem apart_mono {P' R' : K → Prop} (apart : Apart M refuse P R p s) (fewer : ∀ k, P' k → P k)
    (more : ∀ k, R k → R' k) : Apart M refuse P' R' p s := by
  intro staged within
  refine separate_mono M refuse ?_ (apart staged (fun k member => fewer k (within k member)))
  exact fun _ _ _ within' k member => more k (within' k member)

theorem apart_pure {a : α} : Apart M refuse P P (.done a : Prog K V E L α) s := fun _ within => within

theorem apart_get (unstaged : ¬ P k) : Apart M refuse P P (get k : Prog K V E L (Option (V k))) s :=
  fun _ within => ⟨fun member => unstaged (within k member),within⟩

theorem apart_stage (accepted : refuse k v = none) (may : R k) (more : ∀ k, P k → R k) :
    Apart M refuse P R (stage k v : Prog K V E L Unit) s :=
  fun _ within => ⟨accepted,fun l member => (List.mem_cons.mp member).elim (fun same => same ▸ may)
    (fun old => more l (within l old))⟩

theorem apart_stageAnyway (accepted : refuse k v = none) (may : R k) (more : ∀ k, P k → R k) :
    Apart M refuse P R (stageAnyway k v : Prog K V E L Unit) s :=
  fun _ within => ⟨accepted,fun l member => (List.mem_cons.mp member).elim (fun same => same ▸ may)
    (fun old => more l (within l old))⟩

theorem apart_commit : Apart M refuse P R (commit : Prog K V E L Unit) s := fun _ _ _ member => nomatch member

theorem apart_touch {f : L → L} : Apart M refuse P P (touch f : Prog K V E L L) s := fun _ within => within

/-- A program that only reads is apart from what it does not read. Before
    anything is staged that is everything. -/
theorem apart_quiet (quiet : p.Quiet) : Apart M refuse (fun _ => False) R p s := by
  intro staged within
  rw [List.eq_nil_iff_forall_not_mem.mpr within]
  exact separate_quiet M refuse quiet (fun _ _ _ member => nomatch member)

end

theorem write_comm {k l : K} (other : l ≠ k) (v : Option (V k)) (w : Option (V l)) (s : S) :
    M.write k v (M.write l w s) = M.write l w (M.write k v s) := by
  apply M.ext
  intro j
  by_cases atK : j = k
  · subst atK
    rw [M.read_write,M.read_write_ne _ _ _ _ (Ne.symm other),M.read_write]
  rw [M.read_write_ne _ _ _ _ atK]
  by_cases atL : j = l
  · subst atL
    rw [M.read_write,M.read_write]
  · rw [M.read_write_ne _ _ _ _ atL,M.read_write_ne _ _ _ _ atL,M.read_write_ne _ _ _ _ atK]

section
variable (batch : Batch V)

theorem flush_snoc (k : K) (v : Option (V k)) (s : S) :
    flush M (batch ++ [⟨k,v⟩]) s = M.write k v (flush M batch s) := by
  simp [flush,List.foldl_append]

theorem read_flush (other : k ∉ batch.map Sigma.fst) (s : S) : M.read k (flush M batch s) = M.read k s := by
  induction batch generalizing s with
  | nil => rfl
  | cons w rest ih =>
    simp only [List.map_cons,List.mem_cons,not_or] at other
    change M.read k (flush M rest (M.write w.1 w.2 s)) = M.read k s
    rw [ih other.2,M.read_write_ne _ _ _ _ other.1]

theorem read_flush_congr {s t : S} (same : M.read k s = M.read k t) :
    M.read k (flush M batch s) = M.read k (flush M batch t) := by
  induction batch generalizing s t with
  | nil => exact same
  | cons w rest ih =>
    apply ih
    obtain ⟨l,v⟩ := w
    by_cases here : k = l
    · subst here
      rw [M.read_write,M.read_write]
    · rw [M.read_write_ne _ _ _ _ here,M.read_write_ne _ _ _ _ here,same]

end

theorem read_deferred (only : p.Writes P) (other : ¬ P k) (s : S × L) (batch : Batch V) :
    M.read k (flush M (deferred M p s batch).2.2 (deferred M p s batch).2.1.1) = M.read k (flush M batch s.1) := by
  induction p generalizing s batch with
  | done a => rfl
  | fail e => rfl
  | get l next ih => exact ih _ (only _) s batch
  | put l v next ih =>
    have ne : k ≠ l := fun same => other (same ▸ only.1)
    exact (ih _ (only.2 _) _ batch).trans (read_flush_congr M batch (M.read_write_ne _ _ _ _ ne))
  | stage l v next ih =>
    have ne : k ≠ l := fun same => other (same ▸ only.1)
    refine (ih _ (only.2 _) s _).trans ?_
    rw [flush_snoc,M.read_write_ne _ _ _ _ ne]
  | commit next ih => exact ih _ (only _) _ []
  | touch f next ih => exact ih _ (only _) _ batch

theorem through_staged {rest : Unit → Prog K V E L β} (only : ∀ u, (rest u).Writes P) (other : ¬ P k) {s t : S × L}
    {b : β} (run : through M refuse ((stage k v).bind rest) s = (.ok b,t)) : M.read k t.1 = v := by
  obtain ⟨u,mid,first,second⟩ := through_bind_ok run
  have written : M.read k mid.1 = v := by
    rw [through_stage] at first
    split at first
    · cases first
    · cases first
      exact M.read_write k v s.1
  have after := read_through M refuse (only u) other mid
  rw [second] at after
  exact after.trans written

/-- The last write under a key is what a deferred run writes or stages there in the end. -/
theorem deferred_staged {rest : Unit → Prog K V E L β} (only : ∀ u, (rest u).Writes P) (other : ¬ P k)
    {batch : Batch V} {t : (S × L) × Batch V} {b : β}
    (run : deferred M ((stage k v).bind rest) s batch = (.ok b,t)) : M.read k (flush M t.2 t.1.1) = v := by
  change deferred M (rest ()) s (batch ++ [⟨k,v⟩]) = _ at run
  have after := read_deferred M (only ()) other s (batch ++ [⟨k,v⟩])
  rw [run,flush_snoc,M.read_write] at after
  exact after

theorem write_flush {v : Option (V k)} {batch : Batch V} (other : k ∉ batch.map Sigma.fst) (s : S) :
    M.write k v (flush M batch s) = flush M batch (M.write k v s) := by
  induction batch generalizing s with
  | nil => rfl
  | cons w rest ih =>
    simp only [List.map_cons,List.mem_cons,not_or] at other
    change M.write k v (flush M rest (M.write w.1 w.2 s)) = flush M rest (M.write w.1 w.2 (M.write k v s))
    rw [ih other.2,write_comm M (Ne.symm other.1)]

/-- The simulation behind the agreement: while the staged writes are what
    separates the two stores, they stay so until the program ends. -/
theorem deferred_simulates {s : S} {l : L} {batch : Batch V} {staged : List K}
    (keys : ∀ k, k ∈ batch.map Sigma.fst → k ∈ staged) (empty : staged = [] → batch = [])
    (holds : Separate M refuse (fun _ _ staged' => staged' = []) p (flush M batch s,l) staged) :
    deferred M p (s,l) batch =
      ((through M refuse p (flush M batch s,l)).1,(through M refuse p (flush M batch s,l)).2,[]) := by
  induction p generalizing s l batch staged with
  | done a | fail e =>
    cases empty holds
    rfl
  | get k next ih =>
    have other : k ∉ batch.map Sigma.fst := fun member => holds.1 (keys k member)
    simp only [deferred,through]
    rw [read_flush M batch other]
    have rest := holds.2
    simp only [read_flush M batch other] at rest
    exact ih _ keys empty rest
  | put k v next ih =>
    have other : k ∉ batch.map Sigma.fst := fun member => holds.1 (keys k member)
    have rest := holds.2.2
    simp only [deferred,through,holds.2.1]
    simp only [write_flush M other] at rest ⊢
    exact ih _ keys empty rest
  | stage k v next ih =>
    have rest := holds.2
    simp only [deferred,through,holds.1]
    simp only [← flush_snoc] at rest ⊢
    refine ih _ ?_ (by simp) rest
    intro j member
    simp only [List.map_append,List.map_cons,List.map_nil,List.mem_append,List.mem_singleton] at member
    rcases member with old | new
    · exact List.mem_cons_of_mem _ (keys j old)
    · simp [new]
  | commit next ih => exact ih _ (by simp) (by simp) holds
  | touch f next ih => exact ih _ keys empty holds

/-- A program that keeps its reads apart from its staged writes does the same
    on a store that defers and on a store that writes through. -/
theorem deferred_eq_through (apart : Separate M refuse (fun _ _ staged => staged = []) p s []) :
    deferred M p s [] = ((through M refuse p s).1,(through M refuse p s).2,[]) :=
  deferred_simulates M refuse (by simp) (by simp) apart

theorem deferred_of_apart (apart : Apart M refuse (fun _ => False) (fun _ => False) p s) :
    deferred M p s [] = ((through M refuse p s).1,(through M refuse p s).2,[]) := by
  refine deferred_eq_through M refuse (separate_mono M refuse ?_ (apart [] (fun _ member => nomatch member)))
  exact fun _ _ _ none => List.eq_nil_iff_forall_not_mem.mpr none

end
end FavorX.Batches

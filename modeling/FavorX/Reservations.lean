import FavorX.Debits
import FavorX.Solvency

/-!
Reserving for retrievals. An attempt asks whether the balance suffices and adds its amount when the
chunk has come; nothing is set aside in between. The balance stays where it should be as long as
it covers the amounts of all attempts on their way (`not_overcommitted`).
-/
namespace FavorX.Reservations
open FiniteMaps Cells Settlement Accounting
open Cheques (ChainAddress)
open Shed (Address)
open Threads (System Config Event Assertion Stable)

/-- The accounting and the settlement service, with the locks of the accounting of a peer and the
    lock of the traffic of all peers, which is held while the balance is added up. -/
structure Shared where
  world : World
  peerLocked : Address → Bool
  trafficLocked : Bool

namespace Shared
variable (s : Shared)

abbrev service : Service := s.world.service

abbrev memory : Memory := s.world.service.memory

def withMemory (m : Memory) : Shared := {s with world := s.world.withMemory m}

def lockPeer (peer : Address) (held : Bool) : Shared := {s with peerLocked := Function.update s.peerLocked peer held}

end Shared

inductive Failure (R F : Type) where
  | lowAvailable
  | notRetrieved
  | settlement (e : Err R F)

/-- How far an attempt is: `Reserve` up to `reserved`, then `Credit`. -/
inductive Phase (R F : Type) where
  | called
  | found
  | wants (ret : Int)
  | scanning (ret : Int) (rest : List ChainAddress) (cashed transfer : Int)
  | reserved
  | crediting
  | locked
  | raised (unPaid : Int)
  | adding (a : ChainAddress) (unPaid : Int)
  | added (a : ChainAddress) (unPaid : Int)
  | returning (result : Except (Failure R F) Unit)
  | returned (result : Except (Failure R F) Unit)

structure Attempt (R F : Type) where
  peer : Address
  traffic : UInt64
  phase : Phase R F

/-- What is decided elsewhere: the order in which the peers are gone through, whether the chunk is retrieved, and
    whether the state store fails. -/
inductive Answer (F : Type) where
  | none
  | order (addresses : List ChainAddress)
  | notRetrieved
  | stored (fails : Option F)

section
variable {R F : Type} (paymentThreshold : Int)

def advance (s : Shared) (peer : Address) (traffic : UInt64) : Phase R F → Answer F → Option (Shared × Phase R F)
  | .called, .none =>
    if (s.world.accountingPeers.lookup peer).isNone && s.trafficLocked then none
    else
      match (getAccountingPeer paymentThreshold peer s.world : Except (Err R F) AccountingPeer × World) with
      | (.error e,w) => some ({s with world := w},.returned (.error (.settlement e)))
      | (.ok _,w) => some ({s with world := w},.found)
  | .found, .none =>
    (s.world.accountingPeers.lookup peer).map (fun p =>
      (s,.wants (read s.memory.heap p.unPaidTraffic + traffic.toNat)))
  | .wants ret, .order addresses =>
    if s.trafficLocked then none else some ({s with trafficLocked := true},.scanning ret addresses 0 0)
  | .scanning ret (a :: rest) cashed transfer, .none =>
    some (s,.scanning ret rest (cashed + value .retrieveChainTraffic s.memory a)
      (transfer + value .retrieveTraffic s.memory a))
  | .scanning ret [] cashed transfer, .none =>
    if s.service.balance + (cashed - transfer) < ret then
      some ({s with trafficLocked := false},.returned (.error .lowAvailable))
    else some ({s with trafficLocked := false},.reserved)
  | .reserved, .notRetrieved => some (s,.returned (.error .notRetrieved))
  | .reserved, .none =>
    if (s.world.accountingPeers.lookup peer).isNone && s.trafficLocked then none
    else
      match (getAccountingPeer paymentThreshold peer s.world : Except (Err R F) AccountingPeer × World) with
      | (.error e,w) => some ({s with world := w},.returned (.error (.settlement e)))
      | (.ok _,w) => some ({s with world := w},.crediting)
  | .crediting, .none => if s.peerLocked peer then none else some (s.lockPeer peer true,.locked)
  | .locked, .none =>
    (s.world.accountingPeers.lookup peer).map (fun p =>
      let unPaid := read s.memory.heap p.unPaidTraffic + traffic.toNat
      ({s with world := s.world.renewUnPaid peer p.paymentThreshold unPaid},.raised unPaid))
  | .raised unPaid, .none =>
    match s.service.peerBeneficiary.lookup peer with
    | none => some (s,.returning (.error (.settlement .noCheque)))
    | some a => if s.trafficLocked then none else some (s.withMemory (getTraffic a s.memory).2,.adding a unPaid)
  | .adding a unPaid, .none =>
    some (s.withMemory (addTraffic .retrieve a traffic.toNat s.memory),.added a unPaid)
  | .added a unPaid, .stored fails =>
    match (storeTraffic .retrieve a fails s.service : Except (Err R F) Unit × Service) with
    | (.error e,service) => some ({s with world := {s.world with service := service}},.returning (.error (.settlement e)))
    | (.ok (),service) =>
      let threshold := ((s.world.accountingPeers.lookup peer).map (·.paymentThreshold)).getD paymentThreshold
      some ({s with
        world := {s.world with
          service := service
          payChan := if unPaid ≥ threshold then s.world.payChan ++ [(peer,threshold)] else s.world.payChan}},
        .returning (.ok ()))
  | .returning result, .none => some (s.lockPeer peer false,.returned result)
  | _, _ => none

def step (s : Shared) (t : Attempt R F) (answer : Answer F) : Option (Shared × Attempt R F) :=
  (advance paymentThreshold s t.peer t.traffic t.phase answer).map (Prod.map id (fun phase => {t with phase := phase}))

def system : System Shared (Attempt R F) (Answer F) Empty := ⟨step paymentThreshold,fun s _ => s⟩

end

section
variable {R F : Type}

/-- What an attempt that was let through has yet to add. -/
def Attempt.flight (t : Attempt R F) : Int :=
  match t.phase with
  | .reserved => t.traffic.toNat
  | .crediting => t.traffic.toNat
  | .locked => t.traffic.toNat
  | .raised _ => t.traffic.toNat
  | .adding .. => t.traffic.toNat
  | _ => 0

def flights (attempts : List (Attempt R F)) : Int := (attempts.map Attempt.flight).sum

/-- Whether the next step of an attempt is that `Reserve` lets it through. -/
def Attempt.passes (s : Shared) (t : Attempt R F) : Bool :=
  match t.phase with
  | .scanning ret [] cashed transfer => ret ≤ s.service.balance + (cashed - transfer)
  | _ => false

def Attempt.begins (t : Attempt R F) : Bool :=
  match t.phase with
  | .called => true
  | _ => false

/-- Attempts begin at their beginning, and every peer is gone through once. -/
def Possible (c : Config Shared (Attempt R F)) : Event (Attempt R F) (Answer F) Empty → Prop
  | .spawn t => t.begins
  | .step _ (.order addresses) => addresses.Nodup ∧ addresses.toFinset = c.shared.memory.trafficPeers.keys
  | _ => True

/-- Whenever `Reserve` lets an attempt through, the balance covers its amount and those on their way. -/
def Fits (c : Config Shared (Attempt R F)) : Event (Attempt R F) (Answer F) Empty → Prop
  | .step i _ => ∀ t ∈ c.tasks[i]?, t.passes c.shared →
    flights c.tasks + t.traffic.toNat ≤ availableBalance c.shared.service
  | _ => True

instance (c : Config Shared (Attempt R F)) : (e : Event (Attempt R F) (Answer F) Empty) → Decidable (Possible c e)
  | .spawn t => inferInstanceAs (Decidable (t.begins = true))
  | .step _ (.order addresses) =>
    inferInstanceAs (Decidable (addresses.Nodup ∧ addresses.toFinset = c.shared.memory.trafficPeers.keys))
  | .step _ .none => .isTrue trivial
  | .step _ .notRetrieved => .isTrue trivial
  | .step _ (.stored _) => .isTrue trivial
  | .outside _ => .isTrue trivial

instance (c : Config Shared (Attempt R F)) : (e : Event (Attempt R F) (Answer F) Empty) → Decidable (Fits c e)
  | .step i _ => inferInstanceAs (Decidable (∀ t ∈ c.tasks[i]?, t.passes c.shared →
      flights c.tasks + t.traffic.toNat ≤ availableBalance c.shared.service))
  | .spawn _ => .isTrue trivial
  | .outside _ => .isTrue trivial

theorem mem_keys_add (a : ChainAddress) {amount : Int} (m : Memory) :
    a ∈ (addTraffic .retrieve a amount m).trafficPeers.keys := by
  rw [addTraffic_eq]
  exact Finmap.mem_insert.mpr (.inl rfl)

theorem keys_subset_add (a : ChainAddress) {amount : Int} {m : Memory} :
    m.trafficPeers.keys ⊆ (addTraffic .retrieve a amount m).trafficPeers.keys := by
  intro b member
  by_cases same : b = a
  · exact same ▸ mem_keys_add b m
  · rw [Finmap.mem_keys,← Finmap.lookup_isSome] at member ⊢
    rwa [(touches_addTraffic .retrieve a amount m).others b same]

theorem availableBalance_add {s : Service} (parted : Parted s.memory) (a : ChainAddress) (amount : Int) :
    availableBalance {s with memory := addTraffic .retrieve a amount s.memory} = availableBalance s - amount := by
  have others := fun f b (other : b ≠ a) =>
    touches_value parted (touches_addTraffic .retrieve a amount s.memory) f other
  have chain : ∀ b, value .retrieveChainTraffic (addTraffic .retrieve a amount s.memory) b =
      value .retrieveChainTraffic s.memory b := by
    intro b
    by_cases same : b = a
    · rw [same,value_addTraffic parted,if_neg (by decide)]
    · exact others _ b same
  have traffic : ∀ b, value .retrieveTraffic (addTraffic .retrieve a amount s.memory) b =
      value .retrieveTraffic s.memory b + if b = a then amount else 0 := by
    intro b
    by_cases same : b = a
    · simp [same,value_addTraffic parted,Side.traffic]
    · rw [others _ b same,if_neg same,add_zero]
  unfold availableBalance
  simp only [chain,traffic,Finset.sum_add_distrib,Finset.sum_ite_eq',mem_keys_add,if_true,
    Solvency.sum_known (keys_subset_add a)]
  omega

/-- A step that changes no amount which counts for the available balance. -/
structure Quiet (s s' : Shared) : Prop where
  parted : Parted s.memory → Parted s'.memory
  available : Parted s.memory → availableBalance s'.service = availableBalance s.service

theorem Quiet.refl (s : Shared) : Quiet s s := ⟨id,fun _ => rfl⟩

theorem quiet_getTraffic (s : Shared) (a : ChainAddress) : Quiet s (s.withMemory (getTraffic a s.memory).2) :=
  ⟨fun parted => touches_parted parted (touches_getTraffic a _),fun _ => availableBalance_getTraffic a⟩

theorem quiet_renewUnPaid (s : Shared) (peer : Address) (threshold v : Int) :
    Quiet s {s with world := s.world.renewUnPaid peer threshold v} where
  parted parted := Debits.parted_append parted [v]
  available parted :=
    have same := fun f a => value_append parted.placed f [v] a
    Solvency.availableBalance_same (Finset.Subset.refl _) (same _) (same _)

section
variable {paymentThreshold : Int} {s s' : Shared} {peer : Address} {traffic : UInt64} {phase phase' : Phase R F}
  {answer : Answer F}

theorem quiet_getAccountingPeer (threshold : Int) (s : Shared) (peer : Address) :
    Quiet s {s with
      world := (getAccountingPeer threshold peer s.world : Except (Err R F) AccountingPeer × World).2} := by
  unfold getAccountingPeer
  cases s.world.accountingPeers.lookup peer with
  | some p => exact Quiet.refl s
  | none =>
    cases known : s.world.service.peerBeneficiary.lookup peer with
    | none => simp only [RetrieveTraffic,known]; exact Quiet.refl s
    | some a =>
      simp only [RetrieveTraffic,known,retrieveTraffic_eq]
      have first := quiet_getTraffic s a
      have second := quiet_renewUnPaid (s.withMemory (getTraffic a s.memory).2) peer threshold (unpaid s.memory a)
      exact ⟨fun parted => second.parted (first.parted parted),
        fun parted => (second.available (first.parted parted)).trans (first.available parted)⟩

/-- A step is quiet and adds nothing to what is on its way, unless `Reserve` lets the attempt through or `Credit` adds
    the amount. -/
inductive Moves (s : Shared) (peer : Address) (traffic : UInt64) : Phase R F → Shared → Phase R F → Prop
  | quiet (phase phase' : Phase R F) (s' : Shared) (quiet : Quiet s s')
    (less : (Attempt.mk peer traffic phase').flight ≤ (Attempt.mk peer traffic phase).flight) :
    Moves s peer traffic phase s' phase'
  | pass (ret cashed transfer : Int) (s' : Shared) (quiet : Quiet s s')
    (enough : ret ≤ s.service.balance + (cashed - transfer)) :
    Moves s peer traffic (.scanning ret [] cashed transfer) s' .reserved
  | add (a : ChainAddress) (unPaid : Int) :
    Moves s peer traffic (.adding a unPaid) (s.withMemory (addTraffic .retrieve a traffic.toNat s.memory))
      (.added a unPaid)

theorem advance_moves (made : advance paymentThreshold s peer traffic phase answer = some (s',phase')) :
    Moves s peer traffic phase s' phase' := by
  have amount : (0 : Int) ≤ traffic.toNat := Int.natCast_nonneg _
  have account := quiet_getAccountingPeer (R := R) (F := F) paymentThreshold s peer
  -- the other answers do not fit the phase
  cases phase <;> cases answer <;> try cases made
  case called.none =>
    simp only [advance] at made
    split at made
    · cases made
    generalize (getAccountingPeer paymentThreshold peer s.world : Except (Err R F) AccountingPeer × World) = found
      at made account
    obtain ⟨result,w⟩ := found
    cases result <;> cases made <;> exact .quiet _ _ _ account (le_refl _)
  case found.none =>
    obtain ⟨p,-,same⟩ := Option.map_eq_some_iff.mp made
    cases same
    exact .quiet _ _ _ (Quiet.refl s) (le_refl _)
  case wants.order =>
    simp only [advance] at made
    split at made
    · cases made
    · cases made; exact .quiet _ _ _ ⟨id,fun _ => rfl⟩ (le_refl _)
  case scanning.none rest cashed transfer =>
    cases rest with
    | cons a rest =>
      cases made
      exact .quiet _ _ _ (Quiet.refl s) (le_refl _)
    | nil =>
      simp only [advance] at made
      split at made
      · cases made; exact .quiet _ _ _ ⟨id,fun _ => rfl⟩ (le_refl _)
      · next enough => cases made; exact .pass _ _ _ _ ⟨id,fun _ => rfl⟩ (not_lt.mp enough)
  case reserved.none =>
    simp only [advance] at made
    split at made
    · cases made
    generalize (getAccountingPeer paymentThreshold peer s.world : Except (Err R F) AccountingPeer × World) = found
      at made account
    obtain ⟨result,w⟩ := found
    cases result with
    | error e => cases made; exact .quiet _ _ _ account amount
    | ok p => cases made; exact .quiet _ _ _ account (le_refl _)
  case reserved.notRetrieved => exact .quiet _ _ _ (Quiet.refl s) amount
  case crediting.none =>
    simp only [advance] at made
    split at made
    · cases made
    · cases made; exact .quiet _ _ _ ⟨id,fun _ => rfl⟩ (le_refl _)
  case locked.none =>
    obtain ⟨p,-,same⟩ := Option.map_eq_some_iff.mp made
    cases same
    exact .quiet _ _ _ (quiet_renewUnPaid ..) (le_refl _)
  case raised.none =>
    simp only [advance] at made
    split at made
    · cases made; exact .quiet _ _ _ (Quiet.refl s) amount
    · split at made
      · cases made
      · cases made; exact .quiet _ _ _ (quiet_getTraffic ..) (le_refl _)
  case adding.none a unPaid => exact .add a unPaid
  case added.stored fails =>
    cases fails <;> cases made <;> exact .quiet _ _ _ ⟨id,fun _ => rfl⟩ (le_refl _)
  case returning.none => exact .quiet _ _ _ ⟨id,fun _ => rfl⟩ (le_refl _)
  all_goals simp [advance] at made

theorem flights_set {attempts : List (Attempt R F)} {i : Nat} {t : Attempt R F} (here : attempts[i]? = some t)
    (t' : Attempt R F) : flights (attempts.set i t') + t.flight = flights attempts + t'.flight := by
  induction attempts generalizing i with
  | nil => simp at here
  | cons u attempts ih =>
    cases i with
    | zero =>
      cases here
      simp only [flights,List.set_cons_zero,List.map_cons,List.sum_cons]
      omega
    | succ i =>
      have rest := ih here
      simp only [flights,List.set_cons_succ,List.map_cons,List.sum_cons] at rest ⊢
      omega

theorem flights_nonneg {attempts : List (Attempt R F)} : 0 ≤ flights attempts := by
  refine List.sum_nonneg ?_
  rintro _ member
  obtain ⟨t,-,rfl⟩ := List.mem_map.mp member
  unfold Attempt.flight
  split <;> omega

/-- The available balance covers all amounts that are on their way. -/
structure Covered (c : Config Shared (Attempt R F)) : Prop where
  parted : Parted c.shared.memory
  enough : flights c.tasks ≤ availableBalance c.shared.service

def invariant : Assertion Shared (Attempt R F) where
  whole := Covered
  own _ _ := True
  pair _ _ := True

theorem covered_step {c : Config Shared (Attempt R F)} {i : Nat} {t : Attempt R F} (covered : Covered c)
    (here : c.tasks[i]? = some t) (fits : Fits c (.step i answer))
    (moves : Moves c.shared t.peer t.traffic t.phase s phase') :
    Covered ⟨s,c.tasks.set i {t with phase := phase'}⟩ := by
  have balance := flights_set here {t with phase := phase'}
  have enough := covered.enough
  obtain ⟨peer,traffic,phase⟩ := t
  cases moves with
  | quiet _ _ s' quiet less =>
    refine ⟨quiet.parted covered.parted,?_⟩
    rw [quiet.available covered.parted]
    simp only at balance less ⊢
    omega
  | pass ret cashed transfer s' quiet passes =>
    have room := fits _ here (decide_eq_true passes)
    refine ⟨quiet.parted covered.parted,?_⟩
    rw [quiet.available covered.parted]
    simp only [Attempt.flight] at balance room ⊢
    omega
  | add a unPaid =>
    refine ⟨touches_parted covered.parted (touches_addTraffic ..),?_⟩
    have lower := availableBalance_add (s := c.shared.service) covered.parted a traffic.toNat
    refine le_of_le_of_eq ?_ lower.symm
    simp only [Attempt.flight] at balance ⊢
    omega

theorem stable (paymentThreshold : Int) :
    Stable (system (R := R) (F := F) paymentThreshold) (fun c e => Possible c e ∧ Fits c e) invariant where
  symm _ _ _ := trivial
  spawn c t holds fits := by
    have covered : Covered c := holds.whole
    refine ⟨⟨covered.parted,?_⟩,trivial,fun _ _ _ => trivial⟩
    have nothing : t.flight = 0 := by
      obtain ⟨peer,traffic,phase⟩ := t
      cases phase <;> first | rfl | exact absurd fits.1 Bool.false_ne_true
    simpa [flights,nothing] using covered.enough
  outside c change := change.elim
  step c i answer t s t' holds fits here stepped := by
    obtain ⟨⟨s₁,phase'⟩,made,same⟩ := Option.map_eq_some_iff.mp stepped
    cases same
    exact ⟨covered_step holds.whole here fits.2 (advance_moves made),trivial,fun _ _ _ _ => ⟨trivial,trivial⟩⟩

/-- In every interleaving of attempts where the balance covers, whenever an attempt is let through, its amount and the
    amounts on their way, the available balance is never negative. -/
theorem not_overcommitted (paymentThreshold : Int) (s : Shared) (events : List (Event (Attempt R F) (Answer F) Empty))
    (c : Config Shared (Attempt R F)) (parted : Parted s.memory) (start : 0 ≤ availableBalance s.service)
    (covered : (system paymentThreshold).AllFit (fun c e => Possible c e ∧ Fits c e) ⟨s,[]⟩ events)
    (ran : (system paymentThreshold).run ⟨s,[]⟩ events = some c) : 0 ≤ availableBalance c.shared.service := by
  have holds : (invariant (R := R) (F := F)).Holds ⟨s,[]⟩ :=
    ⟨⟨parted,start⟩,fun _ _ _ => trivial,fun _ _ _ _ _ _ _ => trivial⟩
  have final := ((stable paymentThreshold).run holds covered ran).whole
  exact le_trans flights_nonneg final.enough

/-- One after the other two peers are paid for out of a balance of 512. -/
theorem not_overcommitted_sequence :
    let s : Shared := ⟨⟨{sampleService with balance := 512},∅,[]⟩,fun _ => false,false⟩
    let attempt (i : Nat) (peer : Address) (order : List ChainAddress) :
        List (Event (Attempt Unit Unit) (Answer Unit) Empty) :=
      [.spawn ⟨peer,256,.called⟩,.step i .none,.step i .none,.step i (.order order)] ++
        order.map (fun _ => .step i .none) ++ List.replicate 6 (.step i .none) ++
          [.step i (.stored none),.step i .none]
    let events := attempt 0 [1] [10] ++ attempt 1 [2] [10,11]
    ∃ c, (system 1000).run ⟨s,[]⟩ events = some c ∧ availableBalance c.shared.service = 0 ∧
      0 ≤ availableBalance c.shared.service := by
  intro s attempt events
  have left : ((system 1000).run ⟨s,[]⟩ events).map (fun c => availableBalance c.shared.service) = some 0 := by
    decide +kernel +zetaReduce
  obtain ⟨c,ran,nothing⟩ := Option.map_eq_some_iff.mp left
  have covered : (system 1000).AllFit (fun c e => Possible c e ∧ Fits c e) ⟨s,[]⟩ events := by
    decide +kernel +zetaReduce
  have start : 0 ≤ availableBalance s.service := by decide +kernel +zetaReduce
  exact ⟨c,ran,nothing,not_overcommitted 1000 s events c sampleService_parted start covered ran⟩

/-- Two attempts that reserve before either credits bring a balance of 256 down to -256. -/
theorem reserved_together :
    let s : Shared := ⟨⟨{sampleService with balance := 256},∅,[]⟩,fun _ => false,false⟩
    let reserve (i : Nat) (order : List ChainAddress) : List (Event (Attempt Unit Unit) (Answer Unit) Empty) :=
      [.step i .none,.step i .none,.step i (.order order)] ++ order.map (fun _ => .step i .none) ++ [.step i .none]
    let credit (i : Nat) : List (Event (Attempt Unit Unit) (Answer Unit) Empty) :=
      List.replicate 5 (.step i .none) ++ [.step i (.stored none),.step i .none]
    let events := [.spawn ⟨[1],256,.called⟩,.spawn ⟨[2],256,.called⟩] ++ reserve 0 [10] ++ reserve 1 [10,11] ++
      credit 0 ++ credit 1
    0 ≤ availableBalance s.service ∧ (system 1000).AllFit Possible ⟨s,[]⟩ events ∧
      ((system 1000).run ⟨s,[]⟩ events).map (fun c => availableBalance c.shared.service) = some (-256) := by
  decide +kernel

end

end
end FavorX.Reservations

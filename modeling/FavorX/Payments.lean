import FavorX.Settlement

/-!
Payments next to each other. What is unpaid is read, and added to a payout later
that may have grown in between. As long as no other payment and no handshake
comes between, no cheque pays more than what is owed (`no_overpayment`).
-/
namespace FavorX.Payments
open FiniteMaps Cells Settlement
open Cheques (ChainAddress Cheque SignedCheque ChequeStore)
open Shed (Address)

/-- How far a payment has come: it has read what is unpaid; it holds the lock and
    has increased the payout; it has sent the cheque. -/
inductive Phase
  | read (balance : Int)
  | raised (payout : Ref)
  | sent (payout : Ref) (cheque : Cheque)

/-- Whether the payment holds the lock of the peer. -/
def Phase.locks : Phase → Bool
  | .read _ => false
  | .raised _ => true
  | .sent _ _ => true

/-- The service, the payments under way, the presented cheques that are about to be
    kept, and the cheques that were sent with what was owed at that moment. -/
structure State where
  service : Service
  paying : List Phase
  presented : List (Cheque × Int)
  emitted : List (Cheque × Int)

def State.withMemory (st : State) (m : Memory) : State := {st with service := {st.service with memory := m}}

def State.locked (st : State) : Bool := st.paying.any Phase.locks

def State.leave (st : State) (i : Nat) : State := {st with paying := st.paying.eraseIdx i}

/-- The steps of the calls: a payment reads, raises the payout, sends the cheque
    and keeps it; retrieved traffic is added and then stored; a handshake updates
    the balance of the peer, finds that the presented cheque pays more than the
    last one, and keeps it. -/
inductive Step (F : Type)
  | read
  | raise (i : Nat) (paymentThreshold : Int)
  | emit (i : Nat) (out : Outside F)
  | keep (i : Nat) (fails : Option F)
  | add (amount : Nat)
  | save (fails : Option F)
  | greet (balance : Int)
  | present (cheque : SignedCheque)
  | file (i : Nat) (fails : Option F)

variable {a : ChainAddress} {st : State}

section
variable {R F : Type}

/-- A payment that has read what is unpaid takes the lock again. -/
def raise (a : ChainAddress) (i : Nat) (paymentThreshold balance : Int) (st : State) : State :=
  if balance ≥ paymentThreshold then
    if availableBalance st.service < balance then st.leave i
    else {st.withMemory (increase a balance st.service.memory) with
      paying := st.paying.set i (.raised (payoutCell a st.service.memory))}
  else st.leave i

def emit (own a : ChainAddress) (i : Nat) (out : Outside F) (payout : Ref) (st : State) : State :=
  match out.sign with
  | .error _ => st.leave i
  | .ok _ =>
    let c := chequeOver own a payout st.service.memory
    let st := {st with emitted := st.emitted ++ [(c,value .retrieveTraffic st.service.memory a)]}
    match out.emit with
    | some _ => st.leave i
    | none => {st with paying := st.paying.set i (.sent payout c)}

/-- A cheque that this node has signed is kept if it pays more than the last one. -/
def present (cs : ChequeStore R) (a : ChainAddress) (cheque : SignedCheque) (st : State) : State :=
  match cs.recoverChequeFunc cheque cs.chainID with
  | .error _ => st
  | .ok isUser =>
    if isUser ≠ cs.recipient then st
    else match cheque.cumulativePayout, lastSent st.service a with
      | some payout, some last =>
        if payout > last then {st with presented := st.presented ++ [(cheque.toCheque,payout)]} else st
      | _, _ => st

/-- A step of the calls for the peer with the chain address `a`; none if it has to
    wait. -/
def step (cs : ChequeStore R) (a : ChainAddress) (st : State) : Step F → Option State
  | .read =>
    if st.locked then none
    else some {st.withMemory (retrieveTraffic a st.service.memory).2 with
      paying := st.paying ++ [.read (retrieveTraffic a st.service.memory).1]}
  | .raise i paymentThreshold =>
    match st.paying[i]? with
    | some (.read balance) => if st.locked then none else some (raise a i paymentThreshold balance st)
    | _ => none
  | .emit i out =>
    match st.paying[i]? with
    | some (.raised payout) => some (emit cs.recipient a i out payout st)
    | _ => none
  | .keep i fails =>
    match st.paying[i]? with
    | some (.sent payout cheque) =>
      some {st.leave i with service := (putSendCheque cheque payout a fails st.service : Except (Err R F) Unit × Service).2}
    | _ => none
  | .add amount => if st.locked then none else some (st.withMemory (addTraffic .retrieve a amount st.service.memory))
  | .save fails =>
    some {st with service := (storeTraffic .retrieve a fails st.service : Except (Err R F) Unit × Service).2}
  | .greet balance =>
    if st.locked then none else some (st.withMemory (renew a .trafficPeerBalance balance st.service.memory))
  | .present cheque => some (present cs a cheque st)
  | .file i fails =>
    match st.presented[i]? with
    | some (cheque,payout) => some {st with
        service := (fileCheque a cheque payout fails st.service : Except (Err R F) Unit × Service).2
        presented := st.presented.eraseIdx i}
    | none => none

def run (cs : ChequeStore R) (a : ChainAddress) : State → List (Step F) → Option State
  | st, [] => some st
  | st, e :: steps => (step cs a st e).bind (fun st => run cs a st steps)

/-- No payment is under way when another one begins or when a handshake keeps a
    cheque. -/
def Alone (st : State) : Step F → Prop
  | .read => st.paying = []
  | .file _ _ => st.paying = []
  | _ => True

def AloneRun (cs : ChequeStore R) (a : ChainAddress) : State → List (Step F) → Prop
  | _, [] => True
  | st, e :: steps => Alone st e ∧ ∀ st', step cs a st e = some st' → AloneRun cs a st' steps

/-- No cheque was sent over more than what was owed at that moment. -/
def Covered (st : State) : Prop := ∀ c owed p, (c,owed) ∈ st.emitted → c.cumulativePayout = some p → p ≤ owed

def Relies (a : ChainAddress) (m : Memory) : Phase → Prop
  | .read balance => value .retrieveChequeTraffic m a + balance ≤ value .retrieveTraffic m a
  | .raised payout => ∃ t, m.trafficPeers.lookup a = some t ∧ payout = t.cell .retrieveChequeTraffic ∧
    value .retrieveChequeTraffic m a ≤ value .retrieveTraffic m a
  | .sent payout _ => ∃ t, m.trafficPeers.lookup a = some t ∧ payout = t.cell .retrieveChequeTraffic

/-- At most one payment is under way, and what it relies on holds. -/
structure Orderly (a : ChainAddress) (st : State) : Prop where
  parted : Parted st.service.memory
  covered : Covered st
  single : st.paying = [] ∨ ∃ ph, st.paying = [ph] ∧ Relies a st.service.memory ph

section
variable (orderly : Orderly a st)
include orderly

theorem orderly_paying {i : Nat} {ph : Phase} (at_i : st.paying[i]? = some ph) :
    i = 0 ∧ st.paying = [ph] ∧ Relies a st.service.memory ph := by
  rcases orderly.single with none | ⟨ph',one,relies⟩
  · simp [none] at at_i
  rw [one,List.getElem?_singleton] at at_i
  split at at_i
  · next first =>
    cases at_i
    exact ⟨first,one,relies⟩
  · cases at_i

theorem orderly_unlocked (free : st.locked = false) :
    st.paying = [] ∨ ∃ balance, st.paying = [.read balance] ∧ Relies a st.service.memory (.read balance) := by
  rcases orderly.single with none | ⟨ph,one,relies⟩
  · exact .inl none
  cases ph with
  | read balance => exact .inr ⟨balance,one,relies⟩
  | raised payout | sent payout cheque => simp [State.locked,one,Phase.locks] at free

theorem leave_orderly {ph : Phase} (one : st.paying = [ph]) : Orderly a (st.leave 0) :=
  ⟨orderly.parted,orderly.covered,.inl (by simp [State.leave,one])⟩

theorem raise_orderly {i : Nat} {balance : Int} (at_i : st.paying[i]? = some (.read balance)) {paymentThreshold : Int} :
    Orderly a (raise a i paymentThreshold balance st) := by
  obtain ⟨rfl,one,relies⟩ := orderly_paying orderly at_i
  unfold raise
  split
  · split
    · exact leave_orderly orderly one
    refine ⟨touches_parted orderly.parted (touches_increase ..),orderly.covered,.inr ⟨_,by rw [one]; rfl,?_⟩⟩
    refine ⟨_,increase_held balance,rfl,?_⟩
    show value .retrieveChequeTraffic (increase a balance st.service.memory) a ≤
      value .retrieveTraffic (increase a balance st.service.memory) a
    rw [value_increase_cheque orderly.parted.placed,value_increase orderly.parted.placed]
    split
    · exact le_refl _
    · exact relies
  · exact leave_orderly orderly one

theorem emit_orderly {own : ChainAddress} {i : Nat} {payout : Ref} (at_i : st.paying[i]? = some (.raised payout))
    (out : Outside F) : Orderly a (emit own a i out payout st) := by
  obtain ⟨rfl,one,t,held,is,less⟩ := orderly_paying orderly at_i
  unfold emit
  split
  · exact leave_orderly orderly one
  -- The cheque is over what was paid by cheque, which the invariant bounds.
  have covered : Covered {st with emitted := st.emitted ++
      [(chequeOver own a payout st.service.memory,value .retrieveTraffic st.service.memory a)]} := by
    intro c owed p member paid
    rcases List.mem_append.mp member with before | now
    · exact orderly.covered c owed p before paid
    cases List.mem_singleton.mp now
    cases paid
    rw [is,← value_held held]
    exact less
  split
  · exact ⟨orderly.parted,covered,.inl (by simp [State.leave,one])⟩
  · exact ⟨orderly.parted,covered,.inr ⟨.sent payout _,by rw [one]; rfl,t,held,is⟩⟩

end

variable {cs : ChequeStore R}

section
variable (orderly : Orderly a st)
include orderly

theorem present_orderly {cheque : SignedCheque} : Orderly a (present cs a cheque st) := by
  unfold present
  split
  · exact orderly
  split
  · exact orderly
  split
  · split
    · exact ⟨orderly.parted,orderly.covered,orderly.single⟩
    · exact orderly
  · exact orderly

/-- Another change of the peer while the lock is free keeps what a payment relies on
    if what was paid stays and what is owed does not shrink. -/
theorem change_orderly (free : st.locked = false) {m : Memory} (touches : Touches a st.service.memory m)
    (cheque : value .retrieveChequeTraffic m a = value .retrieveChequeTraffic st.service.memory a)
    (traffic : value .retrieveTraffic st.service.memory a ≤ value .retrieveTraffic m a) :
    Orderly a (st.withMemory m) := by
  refine ⟨touches_parted orderly.parted touches,orderly.covered,?_⟩
  rcases orderly_unlocked orderly free with none | ⟨balance,one,relies⟩
  · exact .inl none
  refine .inr ⟨_,one,?_⟩
  simp only [Relies] at relies
  show value .retrieveChequeTraffic m a + balance ≤ value .retrieveTraffic m a
  omega

theorem step_orderly {st' : State} {e : Step F} (alone : Alone st e) (steps : step cs a st e = some st') :
    Orderly a st' := by
  have parted := orderly.parted
  cases e <;> simp only [step] at steps
  case read =>
    split at steps
    · cases steps
    cases steps
    have none : st.paying = [] := alone
    have looked := touches_getTraffic a st.service.memory
    rw [retrieveTraffic_eq]
    refine ⟨touches_parted parted looked,orderly.covered,.inr ⟨_,by rw [none]; rfl,?_⟩⟩
    show value .retrieveChequeTraffic (getTraffic a st.service.memory).2 a + unpaid st.service.memory a ≤
      value .retrieveTraffic (getTraffic a st.service.memory).2 a
    rw [value_getTraffic,value_getTraffic]
    unfold unpaid
    omega
  case raise i paymentThreshold =>
    split at steps
    · next balance at_i =>
      split at steps
      · cases steps
      · cases steps
        exact raise_orderly orderly at_i
    · cases steps
  case emit i out =>
    split at steps
    · next payout at_i =>
      cases steps
      exact emit_orderly orderly at_i out
    · cases steps
  case keep i fails =>
    split at steps
    · next payout cheque at_i =>
      cases steps
      obtain ⟨rfl,one,t,held,is⟩ := orderly_paying orderly at_i
      have memory : (putSendCheque cheque payout a fails st.service : Except (Err R F) Unit × Service).2.memory =
          keepPayout a payout st.service.memory := by
        cases fails <;> rfl
      refine ⟨?_,orderly.covered,.inl (by simp [State.leave,one])⟩
      rw [memory,is]
      exact touches_parted parted (touches_keepPayout_own held .retrieveChequeTraffic)
    · cases steps
  case add amount =>
    split at steps
    · cases steps
    next free =>
    cases steps
    refine change_orderly orderly (by simpa using free) (touches_addTraffic ..) ?_ ?_
    · rw [value_addTraffic parted]
      exact if_neg nofun
    · rw [value_addTraffic parted]
      simp only [Side.traffic,if_true]
      omega
  case save fails =>
    cases steps
    have memory : (storeTraffic .retrieve a fails st.service : Except (Err R F) Unit × Service).2.memory =
        st.service.memory := by
      cases fails <;> rfl
    refine ⟨?_,orderly.covered,?_⟩
    · rw [memory]
      exact parted
    · rcases orderly.single with none | ⟨ph,one,relies⟩
      · exact .inl none
      · exact .inr ⟨ph,one,by simpa only [memory] using relies⟩
  case greet balance =>
    split at steps
    · cases steps
    next free =>
    cases steps
    refine change_orderly orderly (by simpa using free) (touches_renew ..) ?_ ?_
    · rw [value_renew parted]
      exact if_neg nofun
    · rw [value_renew parted,if_neg nofun]
  case present cheque =>
    cases steps
    exact present_orderly orderly
  case file i fails =>
    split at steps
    · next cheque payout at_i =>
      cases steps
      obtain ⟨sent,_,run⟩ := fileCheque_cases a cheque payout fails st.service
      rw [run]
      exact ⟨touches_parted parted (touches_restored ..),orderly.covered,.inl alone⟩
    · cases steps

theorem run_orderly {steps : List (Step F)} {st' : State} (alone : AloneRun cs a st steps)
    (reached : run cs a st steps = some st') : Orderly a st' := by
  induction steps generalizing st with
  | nil =>
    cases reached
    exact orderly
  | cons e steps ih =>
    obtain ⟨st₁,first,rest⟩ := Option.bind_eq_some_iff.mp reached
    exact ih (step_orderly orderly alone.1 first) (alone.2 st₁ first) rest

end

/-- If no payment is under way whenever another one begins or a handshake keeps a
    cheque, then no cheque of an interleaving pays more than what was owed at the
    moment it was sent. -/
theorem no_overpayment (cs : ChequeStore R) (a : ChainAddress) {s : Service} (parted : Parted s.memory)
    (steps : List (Step F)) (alone : AloneRun cs a ⟨s,[],[],[]⟩ steps) {st : State}
    (reached : run cs a ⟨s,[],[],[]⟩ steps = some st) : Covered st :=
  (run_orderly ⟨parted,fun _ _ _ member => absurd member List.not_mem_nil,.inl rfl⟩ alone reached).covered

end

def payOnce : List (Step Unit) := [.add 100,.read,.raise 0 0,.emit 0 {},.keep 0 none]

/-- A cheque over 80 that this node has signed for the chain address 10. -/
def earlierCheque : SignedCheque := ⟨⟨10,1,some 80⟩,[7]⟩

/-- A handshake presents the earlier cheque after the payment has read what is
    unpaid. -/
def payAcross : List (Step Unit) :=
  [.add 100,.read,.greet 0,.present earlierCheque,.file 0 none,.raise 0 0,.emit 0 {}]

/-- The sample service with the balance 1000 and nothing under way. -/
def idle : State := ⟨{sampleService with balance := 1000},[],[],[]⟩

theorem no_overpayment_once :
    ∃ st, run sampleStore 10 idle payOnce = some st ∧ st.emitted.length = 1 ∧ Covered st := by
  have alone : AloneRun sampleStore 10 idle payOnce := by
    refine ⟨trivial,fun st₁ first => ?_⟩
    cases first
    refine ⟨rfl,fun st₂ second => ?_⟩
    cases second
    refine ⟨trivial,fun st₃ third => ⟨trivial,fun st₄ fourth => ⟨trivial,fun st₅ fifth => trivial⟩⟩⟩
  exact ⟨_,rfl,by decide +kernel,no_overpayment sampleStore 10 (s := idle.service) sampleService_parted payOnce alone rfl⟩

/-- The payment adds the 100 that it has read to the 80 of the presented cheque: a
    cheque over 180 is sent where 100 is owed. -/
theorem overpaid_across_handshake :
    ∃ st, run sampleStore 10 idle payAcross = some st ∧ ¬ Covered st := by
  refine ⟨_,rfl,fun covered => ?_⟩
  have less := covered ⟨10,1,some 180⟩ 100 180 (by decide +kernel) rfl
  omega

end FavorX.Payments

import FavorX.Accounting
import FavorX.Threads

/-!
How much service a peer gets that it has not paid for. `Debit` compares and adds under the
lock of the accounting, while cheques, which only lower what is owed, come in under another
one; a peer owes less than the tolerance and one amount (`debt_bounded`).
-/
namespace FavorX.Debits
open FiniteMaps Cells Settlement Accounting
open Cheques (ChainAddress ChequeStore Call payout)
open Shed (Address)
open Threads (System Config Event Assertion Stable)

/-! ### The code -/

/-- The accounting and the settlement service, with the locks of the accounting of a peer and
    of the traffic of a chain address. -/
structure Shared where
  world : World
  peerLocked : Address → Bool
  trafficLocked : ChainAddress → Bool

namespace Shared
variable (s : Shared)

abbrev service : Service := s.world.service

abbrev memory : Memory := s.world.service.memory

def withService (service : Service) : Shared := {s with world := {s.world with service := service}}

def withMemory (m : Memory) : Shared := {s with world := s.world.withMemory m}

def withReceived (received : Cheques.Received) : Shared := s.withService {s.service with receivedCheques := received}

def lockPeer (peer : Address) (held : Bool) : Shared := {s with peerLocked := Function.update s.peerLocked peer held}

def lockTraffic (a : ChainAddress) (held : Bool) : Shared :=
  {s with trafficLocked := Function.update s.trafficLocked a held}

/-- Whether the traffic of a peer is locked by somebody else. -/
def waits (peer : Address) : Bool := (s.service.peerBeneficiary.lookup peer).any s.trafficLocked

end Shared

inductive DebitErr (R F : Type) where
  | blockPeer
  | settlement (e : Err R F)

/-- How far a `Debit` is. From `locked` on it holds the lock of the accounting of its peer. -/
inductive DebitPhase (R F : Type) where
  | called
  | found
  | locked
  | passed
  | added (a : ChainAddress)
  | returning (result : Except (DebitErr R F) Unit)
  | returned (result : Except (DebitErr R F) Unit)

/-- How far a `ReceiveCheque` is. From `locked` on it holds the lock of the traffic. -/
inductive ChequePhase (R F : Type) where
  | called
  | admitted (a : ChainAddress)
  | locked (a : ChainAddress)
  | received (a : ChainAddress)
  | returning (a : ChainAddress) (result : Except (Err R F) Unit)
  | returned (result : Except (Err R F) Unit)

inductive Task (R F : Type) where
  | debit (peer : Address) (traffic : UInt64) (phase : DebitPhase R F)
  | receiveCheque (peer : Address) (call : Call F) (phase : ChequePhase R F)

section
variable {R F : Type} (paymentTolerance paymentThreshold : Int) (cs : ChequeStore R)

/-- The next step of a `Debit`. The state store may fail in the step that writes to it. Whoever needs the
    traffic waits for its lock. -/
def debit (s : Shared) (peer : Address) (traffic : UInt64) :
    DebitPhase R F → Option F → Option (Shared × DebitPhase R F)
  | .called, _ =>
    if (s.world.accountingPeers.lookup peer).isNone && s.waits peer then none
    else
      match (getAccountingPeer paymentThreshold peer s.world : Except (Err R F) AccountingPeer × World) with
      | (.error e,w) => some ({s with world := w},.returned (.error (.settlement e)))
      | (.ok _,w) => some ({s with world := w},.found)
  | .found, _ => if s.peerLocked peer then none else some (s.lockPeer peer true,.locked)
  | .locked, _ =>
    if s.waits peer then none
    else
      match (TransferTraffic peer s.service : Except (Err R F) Int × Service) with
      | (.error e,service) => some (s.withService service,.returning (.error (.settlement e)))
      | (.ok traff,service) =>
        if paymentTolerance ≤ traff then some (s.withService service,.returning (.error .blockPeer))
        else some (s.withService service,.passed)
  | .passed, _ =>
    match s.service.peerBeneficiary.lookup peer with
    | none => some (s,.returning (.error (.settlement .noCheque)))
    | some a =>
      if s.trafficLocked a then none
      else some (s.withMemory (addTraffic .transfer a traffic.toNat s.memory),.added a)
  | .added a, fails =>
    match (storeTraffic .transfer a fails s.service : Except (Err R F) Unit × Service) with
    | (.error e,service) => some (s.withService service,.returning (.error (.settlement e)))
    | (.ok (),service) => some (s.withService service,.returning (.ok ()))
  | .returning result, _ => some (s.lockPeer peer false,.returned result)
  | .returned _, _ => none

def receive (s : Shared) (peer : Address) (call : Call F) : ChequePhase R F → Option (Shared × ChequePhase R F)
  | .called =>
    match s.service.peerBeneficiary.lookup peer with
    | none => some (s,.returned (.error .accountUnknown))
    | some a =>
      if call.cheque.beneficiary ≠ a ∧ call.cheque.recipient ≠ cs.recipient then
        some (s,.returned (.error .accountMismatch))
      else some (s.withMemory (getTraffic a s.memory).2,.admitted a)
  | .admitted a => if s.trafficLocked a then none else some (s.lockTraffic a true,.locked a)
  | .locked a =>
    match Cheques.receiveCheque cs call s.service.receivedCheques with
    | (.error e,received) =>
      some (s.withReceived received,.returning a (.error (.store e)))
    | (.ok _,received) => some (s.withReceived received,.received a)
  | .received a =>
    some (s.withMemory (renew a .transferChequeTraffic (call.cheque.cumulativePayout.getD 0) s.memory),
      .returning a (.ok ()))
  | .returning a result => some (s.lockTraffic a false,.returned result)
  | .returned _ => none

def step (s : Shared) : Task R F → Option F → Option (Shared × Task R F)
  | .debit peer traffic phase, fails =>
    (debit paymentTolerance paymentThreshold s peer traffic phase fails).map (Prod.map id (.debit peer traffic))
  | .receiveCheque peer call phase, _ =>
    (receive cs s peer call phase).map (Prod.map id (.receiveCheque peer call))

def system : System Shared (Task R F) (Option F) Empty := ⟨step paymentTolerance paymentThreshold cs,fun s _ => s⟩

end

/-! ### Steps -/

/-- Nothing has changed but cells that nobody reads and what is stored. -/
structure Still (s s' : Shared) : Prop where
  parted : Parted s.memory → Parted s'.memory
  values : Parted s.memory → ∀ f a, value f s'.memory a = value f s.memory a
  book : s'.service.peerBeneficiary = s.service.peerBeneficiary
  received : s'.service.receivedCheques = s.service.receivedCheques
  peerLocked : s'.peerLocked = s.peerLocked
  trafficLocked : s'.trafficLocked = s.trafficLocked

theorem Still.refl (s : Shared) : Still s s := ⟨id,fun _ _ _ => rfl,rfl,rfl,rfl,rfl⟩

theorem still_getTraffic (s : Shared) (a : ChainAddress) :
    Still s (s.withMemory (getTraffic a s.memory).2) :=
  ⟨fun parted => touches_parted parted (touches_getTraffic a _),fun _ f b => value_getTraffic f a _ b,rfl,rfl,rfl,rfl⟩

theorem parted_append {m : Memory} (parted : Parted m) (new : List Int) : Parted {m with heap := m.heap ++ new} where
  allocated held f := by
    rw [List.length_append]
    exact Nat.lt_add_right _ (parted.allocated held f)
  apart := parted.apart

variable {a : ChainAddress}

section
variable {R F : Type} {paymentTolerance paymentThreshold : Int} {cs : ChequeStore R}

theorem still_getAccountingPeer (threshold : Int) (s : Shared) (peer : Address) :
    Still s {s with
      world := (getAccountingPeer threshold peer s.world : Except (Err R F) AccountingPeer × World).2} := by
  unfold getAccountingPeer
  cases s.world.accountingPeers.lookup peer with
  | some p => exact Still.refl s
  | none =>
    cases known : s.world.service.peerBeneficiary.lookup peer with
    | none => simp only [RetrieveTraffic,known]; exact Still.refl s
    | some a =>
      simp only [RetrieveTraffic,known,retrieveTraffic_eq]
      have first := still_getTraffic s a
      refine ⟨fun parted => parted_append (first.parted parted) _,fun parted f b => ?_,rfl,rfl,rfl,rfl⟩
      exact (value_append (first.parted parted).placed f _ b).trans (first.values parted f b)

inductive DebitMoves (paymentTolerance : Int) (s : Shared) (peer : Address) (traffic : UInt64) :
    DebitPhase R F → Shared → DebitPhase R F → Prop
  | find (s' : Shared) (still : Still s s') : DebitMoves paymentTolerance s peer traffic .called s' .found
  | fail (s' : Shared) (still : Still s s') (e : Err R F) :
    DebitMoves paymentTolerance s peer traffic .called s' (.returned (.error (.settlement e)))
  | lock (unlocked : s.peerLocked peer = false) :
    DebitMoves paymentTolerance s peer traffic .found (s.lockPeer peer true) .locked
  | refuse (s' : Shared) (still : Still s s') (result : Except (DebitErr R F) Unit) :
    DebitMoves paymentTolerance s peer traffic .locked s' (.returning result)
  | pass (s' : Shared) (still : Still s s')
    (low : ∀ a, s.service.peerBeneficiary.lookup peer = some a → owed s.memory a < paymentTolerance) :
    DebitMoves paymentTolerance s peer traffic .locked s' .passed
  | add (a : ChainAddress) (known : s.service.peerBeneficiary.lookup peer = some a) :
    DebitMoves paymentTolerance s peer traffic .passed
      (s.withMemory (addTraffic .transfer a traffic.toNat s.memory)) (.added a)
  | unknown (e : Err R F) :
    DebitMoves paymentTolerance s peer traffic .passed s (.returning (.error (.settlement e)))
  | store (a : ChainAddress) (s' : Shared) (still : Still s s') :
    DebitMoves paymentTolerance s peer traffic (.added a) s' (.returning (.ok ()))
  | unstored (a : ChainAddress) (s' : Shared) (still : Still s s') (e : Err R F) :
    DebitMoves paymentTolerance s peer traffic (.added a) s' (.returning (.error (.settlement e)))
  | unlock (result : Except (DebitErr R F) Unit) :
    DebitMoves paymentTolerance s peer traffic (.returning result) (s.lockPeer peer false) (.returned result)

theorem debit_moves {s s' : Shared} {peer : Address} {traffic : UInt64} {phase phase' : DebitPhase R F}
    {fails : Option F} (made : debit paymentTolerance paymentThreshold s peer traffic phase fails = some (s',phase')) :
    DebitMoves paymentTolerance s peer traffic phase s' phase' := by
  cases phase with
  | called =>
    have still := still_getAccountingPeer (R := R) (F := F) paymentThreshold s peer
    simp only [debit] at made
    split at made
    · cases made
    generalize (getAccountingPeer paymentThreshold peer s.world : Except (Err R F) AccountingPeer × World) = found
      at made still
    obtain ⟨result,w⟩ := found
    cases result with
    | error e => cases made; exact .fail _ still e
    | ok p => cases made; exact .find _ still
  | found =>
    simp only [debit] at made
    split at made
    · cases made
    · next unlocked => cases made; exact .lock (Bool.eq_false_iff.mpr unlocked)
  | locked =>
    simp only [debit] at made
    split at made
    · cases made
    cases known : s.service.peerBeneficiary.lookup peer with
    | none =>
      simp only [TransferTraffic,known] at made
      cases made
      exact .refuse _ (Still.refl s) _
    | some a =>
      simp only [TransferTraffic,known,transferTraffic_eq] at made
      split at made
      · cases made
        exact .refuse _ (still_getTraffic s a) _
      next low =>
      cases made
      refine .pass _ (still_getTraffic s a) (fun b same => ?_)
      rw [known] at same
      cases same
      exact not_le.mp low
  | passed =>
    cases known : s.service.peerBeneficiary.lookup peer with
    | none =>
      simp only [debit,known] at made
      cases made
      exact .unknown _
    | some a =>
      simp only [debit,known] at made
      split at made
      · cases made
      · cases made; exact .add a known
  | added a =>
    cases fails with
    | none =>
      cases made
      exact .store a _ ⟨id,fun _ _ _ => rfl,rfl,rfl,rfl,rfl⟩
    | some e =>
      cases made
      exact .unstored a _ (Still.refl s) _
  | returning result => cases made; exact .unlock result
  | returned result => cases made

inductive ChequeMoves (s : Shared) (peer : Address) (call : Call F) :
    ChequePhase R F → Shared → ChequePhase R F → Prop
  | enter (a : ChainAddress) (s' : Shared) (still : Still s s')
    (known : s.service.peerBeneficiary.lookup peer = some a) : ChequeMoves s peer call .called s' (.admitted a)
  | fail (e : Err R F) : ChequeMoves s peer call .called s (.returned (.error e))
  | lock (a : ChainAddress) (unlocked : s.trafficLocked a = false) :
    ChequeMoves s peer call (.admitted a) (s.lockTraffic a true) (.locked a)
  | refuse (a : ChainAddress) (result : Except (Err R F) Unit) :
    ChequeMoves s peer call (.locked a) s (.returning a result)
  | take (a : ChainAddress) (p : Int) (paid : call.cheque.cumulativePayout = some p)
    (more : payout s.service.receivedCheques call.cheque.beneficiary < p) :
    ChequeMoves s peer call (.locked a)
      (s.withReceived (s.service.receivedCheques.insert call.cheque.beneficiary call.cheque)) (.received a)
  | write (a : ChainAddress) :
    ChequeMoves s peer call (.received a)
      (s.withMemory (renew a .transferChequeTraffic (call.cheque.cumulativePayout.getD 0) s.memory))
      (.returning a (.ok ()))
  | unlock (a : ChainAddress) (result : Except (Err R F) Unit) :
    ChequeMoves s peer call (.returning a result) (s.lockTraffic a false) (.returned result)

theorem receive_moves {s s' : Shared} {peer : Address} {call : Call F} {phase phase' : ChequePhase R F}
    (made : receive cs s peer call phase = some (s',phase')) : ChequeMoves s peer call phase s' phase' := by
  cases phase with
  | called =>
    cases known : s.service.peerBeneficiary.lookup peer with
    | none =>
      simp only [receive,known] at made
      cases made
      exact .fail _
    | some a =>
      simp only [receive,known] at made
      split at made
      · cases made; exact .fail _
      · cases made; exact .enter a _ (still_getTraffic s a) known
  | admitted a =>
    simp only [receive] at made
    split at made
    · cases made
    · next unlocked => cases made; exact .lock a (Bool.eq_false_iff.mpr unlocked)
  | locked a =>
    simp only [receive] at made
    rcases Cheques.receiveCheque_cases cs s.service.receivedCheques call with ⟨e,run⟩ | ⟨p,paid,more,-,-,run⟩
    · rw [run] at made
      cases made
      exact .refuse a _
    · rw [run] at made
      cases made
      exact .take a p paid more
  | received a => cases made; exact .write a
  | returning a result => cases made; exact .unlock a result
  | returned result => cases made

/-! ### The invariant -/

def DebitPhase.holds : DebitPhase R F → Bool
  | .called => false
  | .found => false
  | .returned _ => false
  | _ => true

def ChequePhase.traffic : ChequePhase R F → Option ChainAddress
  | .admitted a => some a
  | .locked a => some a
  | .received a => some a
  | .returning a _ => some a
  | _ => none

def ChequePhase.holds : ChequePhase R F → Option ChainAddress
  | .locked a => some a
  | .received a => some a
  | .returning a _ => some a
  | _ => none

def Task.holdsPeer (peer : Address) : Task R F → Prop
  | .debit q _ phase => q = peer ∧ phase.holds
  | .receiveCheque .. => False

def Task.holdsTraffic (a : ChainAddress) : Task R F → Prop
  | .debit .. => False
  | .receiveCheque _ _ phase => phase.holds = some a

/-- Cheques draw on the chain address of the peer that presents them, and no amount is more than `most`. -/
def Task.Fair (book : Map Address ChainAddress) (most : Nat) : Task R F → Prop
  | .debit _ traffic _ => traffic.toNat ≤ most
  | .receiveCheque peer call _ => ∀ a, book.lookup peer = some a → call.cheque.beneficiary = a

/-- What a task relies on in the middle of its work. -/
def Task.Relies (paymentTolerance : Int) (s : Shared) : Task R F → Prop
  | .debit peer _ phase => phase = .passed → ∀ a, s.service.peerBeneficiary.lookup peer = some a →
    owed s.memory a < paymentTolerance
  | .receiveCheque peer call phase =>
    (∀ a, phase.traffic = some a → s.service.peerBeneficiary.lookup peer = some a) ∧
      ∀ a, phase = .received a → ∃ p, call.cheque.cumulativePayout = some p ∧
        value .transferChequeTraffic s.memory a ≤ p ∧ p ≤ payout s.service.receivedCheques a

/-- Every known peer owes less than the tolerance and one amount, and what it paid by cheque is backed by a cheque. -/
structure Bounded (paymentTolerance : Int) (book : Map Address ChainAddress) (most : Nat) (s : Shared) : Prop where
  parted : Parted s.memory
  known : s.service.peerBeneficiary = book
  bound : ∀ peer a, book.lookup peer = some a → owed s.memory a < paymentTolerance + most
  backed : ∀ peer a, book.lookup peer = some a →
    value .transferChequeTraffic s.memory a ≤ payout s.service.receivedCheques a

def invariant (paymentTolerance : Int) (book : Map Address ChainAddress) (most : Nat) :
    Assertion Shared (Task R F) where
  whole c := Bounded paymentTolerance book most c.shared
  own s task := task.Fair book most ∧ task.Relies paymentTolerance s ∧
    (∀ peer, task.holdsPeer peer → s.peerLocked peer) ∧ ∀ a, task.holdsTraffic a → s.trafficLocked a
  pair task other :=
    (∀ peer, task.holdsPeer peer → ¬other.holdsPeer peer) ∧ ∀ a, task.holdsTraffic a → ¬other.holdsTraffic a

variable {book : Map Address ChainAddress} {most : Nat} {s s' : Shared} {task : Task R F}

theorem Still.owed (still : Still s s') (parted : Parted s.memory) (a : ChainAddress) :
    owed s'.memory a = Settlement.owed s.memory a := by
  unfold Settlement.owed
  rw [still.values parted,still.values parted]

theorem Bounded.still (bounded : Bounded paymentTolerance book most s) (still : Still s s') :
    Bounded paymentTolerance book most s' where
  parted := still.parted bounded.parted
  known := still.book.trans bounded.known
  bound peer a known := (still.owed bounded.parted a).symm ▸ bounded.bound peer a known
  backed peer a known := by
    rw [still.values bounded.parted,still.received]
    exact bounded.backed peer a known

section
variable (parted : Parted s.memory)
include parted

theorem own_still (still : Still s s') (own : (invariant paymentTolerance book most).own s task) :
    (invariant paymentTolerance book most).own s' task := by
  obtain ⟨fair,relies,peers,traffics⟩ := own
  refine ⟨fair,?_,still.peerLocked ▸ peers,still.trafficLocked ▸ traffics⟩
  unfold Task.Relies at *
  simp only [still.book,still.received,still.values parted,still.owed parted]
  exact relies

/-! ### Effects on the others -/

variable (a b : ChainAddress)

theorem cheque_add {amount : Int} :
    value .transferChequeTraffic (addTraffic .transfer a amount s.memory) b =
      value .transferChequeTraffic s.memory b := by
  by_cases same : b = a
  · subst same
    rw [value_addTraffic parted,if_neg (by decide)]
  · exact touches_value parted (touches_addTraffic .transfer a amount s.memory) _ same

theorem owed_add (amount : Int) :
    owed (addTraffic .transfer a amount s.memory) b = owed s.memory b + if b = a then amount else 0 := by
  unfold owed
  rw [cheque_add parted]
  by_cases same : b = a
  · subst same
    simp only [value_addTraffic parted,Side.traffic,if_true]
    omega
  · rw [touches_value parted (touches_addTraffic .transfer a amount s.memory) _ same,if_neg same,add_zero]

theorem cheque_write (p : Int) :
    value .transferChequeTraffic (renew a .transferChequeTraffic p s.memory) b =
      if b = a then p else value .transferChequeTraffic s.memory b := by
  by_cases same : b = a
  · subst same
    rw [value_renew parted,if_pos rfl,if_pos rfl]
  · rw [touches_value parted (touches_renew ..) _ same,if_neg same]

theorem owed_write (p : Int) :
    owed (renew a .transferChequeTraffic p s.memory) b =
      if b = a then value .transferTraffic s.memory a - p else owed s.memory b := by
  unfold owed
  rw [cheque_write parted]
  by_cases same : b = a
  · subst same
    rw [value_renew parted,if_pos rfl,if_pos rfl,if_neg (by decide)]
  · rw [touches_value parted (touches_renew ..) _ same,if_neg same,if_neg same]

end

section
variable (bounded : Bounded paymentTolerance book most s)
include bounded

/-- An amount is added for one peer; whoever was let through is another one. -/
theorem relies_add {amount : Int} (alone : ∀ q, book.lookup q = some a → ¬task.holdsPeer q)
    (relies : task.Relies paymentTolerance s) :
    task.Relies paymentTolerance (s.withMemory (addTraffic .transfer a amount s.memory)) := by
  cases task with
  | debit q traffic phase =>
    intro passed b other
    have apart : b ≠ a := by
      rintro rfl
      exact alone q (bounded.known ▸ other) ⟨rfl,by rw [passed]; rfl⟩
    have same := owed_add bounded.parted a b amount
    rw [if_neg apart,add_zero] at same
    exact lt_of_eq_of_lt same (relies passed b other)
  | receiveCheque q call phase =>
    refine ⟨relies.1,fun b received => ?_⟩
    obtain ⟨p,paid,low,high⟩ := relies.2 b received
    exact ⟨p,paid,le_of_eq_of_le (cheque_add bounded.parted a b) low,high⟩

omit bounded in
/-- A cheque is filed; whoever is to write down another one does so for another peer. -/
theorem relies_take {cheque : Cheques.SignedCheque} {p : Int} (paid : cheque.cumulativePayout = some p)
    (alone : ¬task.holdsTraffic a) (relies : task.Relies paymentTolerance s) :
    task.Relies paymentTolerance (s.withReceived (s.service.receivedCheques.insert a cheque)) := by
  cases task with
  | debit q traffic phase => exact relies
  | receiveCheque q call phase =>
    refine ⟨relies.1,fun b received => ?_⟩
    obtain ⟨p',paid',low,high⟩ := relies.2 b received
    have apart : b ≠ a := by
      rintro rfl
      exact alone (by rw [received]; rfl)
    refine ⟨p',paid',low,le_of_le_of_eq high ?_⟩
    exact ((Cheques.payout_insert _ paid a b).trans (if_neg apart)).symm

theorem relies_write {p : Int} (more : value .transferChequeTraffic s.memory a ≤ p) (alone : ¬task.holdsTraffic a)
    (relies : task.Relies paymentTolerance s) :
    task.Relies paymentTolerance (s.withMemory (renew a .transferChequeTraffic p s.memory)) := by
  cases task with
  | debit q traffic phase =>
    intro passed b other
    refine lt_of_le_of_lt (le_of_eq_of_le (owed_write bounded.parted a b p) ?_) (relies passed b other)
    split
    · next same =>
      subst same
      unfold owed
      omega
    · exact le_refl _
  | receiveCheque q call phase =>
    refine ⟨relies.1,fun b received => ?_⟩
    obtain ⟨p',paid',low,high⟩ := relies.2 b received
    have apart : b ≠ a := by
      rintro rfl
      exact alone (by rw [received]; rfl)
    exact ⟨p',paid',le_of_eq_of_le ((cheque_write bounded.parted a b p).trans (if_neg apart)) low,high⟩

theorem Bounded.add {amount : Nat} (low : owed s.memory a < paymentTolerance) (fair : amount ≤ most) :
    Bounded paymentTolerance book most (s.withMemory (addTraffic .transfer a amount s.memory)) where
  parted := touches_parted bounded.parted (touches_addTraffic ..)
  known := bounded.known
  bound peer b known := by
    have before := bounded.bound peer b known
    have after := owed_add bounded.parted a b amount
    refine lt_of_eq_of_lt after ?_
    split
    · next same => subst same; omega
    · omega
  backed peer b known := le_of_eq_of_le (cheque_add bounded.parted a b) (bounded.backed peer b known)

theorem Bounded.take {cheque : Cheques.SignedCheque} {p : Int} (paid : cheque.cumulativePayout = some p)
    (more : payout s.service.receivedCheques a < p) :
    Bounded paymentTolerance book most (s.withReceived (s.service.receivedCheques.insert a cheque)) where
  parted := bounded.parted
  known := bounded.known
  bound := bounded.bound
  backed peer b known := by
    have before := bounded.backed peer b known
    refine le_of_le_of_eq ?_ (Cheques.payout_insert _ paid a b).symm
    split
    · next same => subst same; exact le_of_lt (lt_of_le_of_lt before more)
    · exact before

theorem Bounded.write {p : Int} (more : value .transferChequeTraffic s.memory a ≤ p)
    (backed : p ≤ payout s.service.receivedCheques a) :
    Bounded paymentTolerance book most (s.withMemory (renew a .transferChequeTraffic p s.memory)) where
  parted := touches_parted bounded.parted (touches_renew ..)
  known := bounded.known
  bound peer b known := by
    have before := bounded.bound peer b known
    refine lt_of_eq_of_lt (owed_write bounded.parted a b p) ?_
    split
    · next same =>
      subst same
      unfold owed at before
      omega
    · exact before
  backed peer b known := by
    refine le_of_eq_of_le (cheque_write bounded.parted a b p) ?_
    split
    · next same => subst same; exact backed
    · exact bounded.backed peer b known

end

/-! ### Stability -/

theorem locked_lockPeer (s : Shared) (peer q : Address) (held : Bool) :
    (s.lockPeer peer held).peerLocked q = if q = peer then held else s.peerLocked q :=
  Function.update_apply s.peerLocked peer held q

theorem locked_lockTraffic (s : Shared) (a b : ChainAddress) (held : Bool) :
    (s.lockTraffic a held).trafficLocked b = if b = a then held else s.trafficLocked b :=
  Function.update_apply s.trafficLocked a held b

theorem own_debit {peer : Address} {traffic : UInt64} {phase : DebitPhase R F} (fair : traffic.toNat ≤ most)
    (low : phase = .passed → ∀ a, s.service.peerBeneficiary.lookup peer = some a → owed s.memory a < paymentTolerance)
    (locked : phase.holds → s.peerLocked peer) :
    (invariant paymentTolerance book most).own s (.debit peer traffic phase) := by
  refine ⟨fair,low,?_,fun a held => held.elim⟩
  rintro q ⟨rfl,held⟩
  exact locked held

theorem own_cheque {peer : Address} {call : Call F} {phase : ChequePhase R F}
    (fair : (Task.receiveCheque peer call phase).Fair book most)
    (relies : (Task.receiveCheque peer call phase).Relies paymentTolerance s)
    (locked : ∀ a, phase.holds = some a → s.trafficLocked a) :
    (invariant paymentTolerance book most).own s (.receiveCheque peer call phase) :=
  ⟨fair,relies,fun _ held => held.elim,locked⟩

section
variable {c : Config Shared (Task R F)} {i : Nat} {peer : Address}

theorem debit_keeps {traffic : UInt64} {phase phase' : DebitPhase R F}
    (holds : (invariant paymentTolerance book most).Holds c) (here : c.tasks[i]? = some (.debit peer traffic phase))
    (moves : DebitMoves paymentTolerance c.shared peer traffic phase s phase') :
    Bounded paymentTolerance book most s ∧
      (invariant paymentTolerance book most).own s (.debit peer traffic phase') := by
  have bounded : Bounded paymentTolerance book most c.shared := holds.whole
  obtain ⟨fair,relies,peers,-⟩ := holds.own i _ here
  -- the lock of the peer stays with the task
  have locked : phase.holds → c.shared.peerLocked peer := fun held => peers peer ⟨rfl,held⟩
  cases moves with
  | find s' still | fail s' still e => exact ⟨bounded.still still,own_debit fair nofun nofun⟩
  | lock unlocked =>
    refine ⟨⟨bounded.parted,bounded.known,bounded.bound,bounded.backed⟩,own_debit fair nofun (fun _ => ?_)⟩
    rw [locked_lockPeer,if_pos rfl]
  | refuse s' still result | store a s' still | unstored a s' still e =>
    exact ⟨bounded.still still,own_debit fair nofun (fun _ => still.peerLocked ▸ locked rfl)⟩
  | pass s' still low =>
    refine ⟨bounded.still still,own_debit fair (fun _ a known => ?_) (fun _ => still.peerLocked ▸ locked rfl)⟩
    rw [still.owed bounded.parted]
    exact low a (still.book ▸ known)
  | add a known => exact ⟨bounded.add (relies rfl a known) fair,own_debit fair nofun (fun _ => locked rfl)⟩
  | unknown e => exact ⟨bounded,own_debit fair nofun (fun _ => locked rfl)⟩
  | unlock result =>
    exact ⟨⟨bounded.parted,bounded.known,bounded.bound,bounded.backed⟩,own_debit fair nofun nofun⟩

theorem cheque_keeps {call : Call F} {phase phase' : ChequePhase R F}
    (holds : (invariant paymentTolerance book most).Holds c)
    (here : c.tasks[i]? = some (.receiveCheque peer call phase))
    (moves : ChequeMoves c.shared peer call phase s phase') :
    Bounded paymentTolerance book most s ∧
      (invariant paymentTolerance book most).own s (.receiveCheque peer call phase') := by
  have bounded : Bounded paymentTolerance book most c.shared := holds.whole
  obtain ⟨fair,⟨known,received⟩,-,locked⟩ := holds.own i _ here
  cases moves with
  | enter a s' still found =>
    refine ⟨bounded.still still,own_cheque fair ⟨fun b same => ?_,nofun⟩ nofun⟩
    cases same
    exact still.book ▸ found
  | fail e => exact ⟨bounded,own_cheque fair ⟨nofun,nofun⟩ nofun⟩
  | lock a unlocked =>
    refine ⟨⟨bounded.parted,bounded.known,bounded.bound,bounded.backed⟩,
      own_cheque fair ⟨known,nofun⟩ (fun b same => ?_)⟩
    cases same
    rw [locked_lockTraffic,if_pos rfl]
  | refuse a result => exact ⟨bounded,own_cheque fair ⟨known,nofun⟩ locked⟩
  | take a p paid more =>
    have drawn : call.cheque.beneficiary = a := fair a (bounded.known ▸ known a rfl)
    rw [drawn] at more ⊢
    refine ⟨bounded.take paid more,own_cheque fair ⟨known,fun b same => ?_⟩ locked⟩
    cases same
    have before := bounded.backed peer a (bounded.known ▸ known a rfl)
    have filed := Cheques.payout_insert c.shared.service.receivedCheques paid a a
    rw [if_pos rfl] at filed
    exact ⟨p,paid,le_of_lt (lt_of_le_of_lt before more),ge_of_eq filed⟩
  | write a =>
    obtain ⟨p,paid,low,high⟩ := received a rfl
    rw [paid]
    exact ⟨bounded.write low high,own_cheque fair ⟨known,nofun⟩ locked⟩
  | unlock a result =>
    exact ⟨⟨bounded.parted,bounded.known,bounded.bound,bounded.backed⟩,own_cheque fair ⟨nofun,nofun⟩ nofun⟩

theorem debit_spares {traffic : UInt64} {phase phase' : DebitPhase R F}
    (distinct : ∀ p q a, book.lookup p = some a → book.lookup q = some a → p = q)
    (holds : (invariant paymentTolerance book most).Holds c) (here : c.tasks[i]? = some (.debit peer traffic phase))
    (moves : DebitMoves paymentTolerance c.shared peer traffic phase s phase') {j : Nat} {other : Task R F}
    (moved : j ≠ i) (there : c.tasks[j]? = some other) :
    (invariant paymentTolerance book most).own s other ∧
      (invariant paymentTolerance book most).pair (.debit peer traffic phase') other := by
  have bounded : Bounded paymentTolerance book most c.shared := holds.whole
  have own := holds.own j other there
  obtain ⟨fair,relies,peers,traffics⟩ := holds.own j other there
  have apart := (holds.pair i j _ other moved.symm here there).1
  -- no other task holds the lock of the peer while this one does
  have alone : phase.holds → ¬other.holdsPeer peer := fun held => apart peer ⟨rfl,held⟩
  have pair : (phase'.holds → ¬other.holdsPeer peer) →
      (invariant paymentTolerance book most).pair (.debit peer traffic phase') other := by
    intro still
    refine ⟨?_,fun a held => held.elim⟩
    rintro q ⟨rfl,held⟩
    exact still held
  cases moves with
  | find s' still | fail s' still e => exact ⟨own_still bounded.parted still own,pair nofun⟩
  | lock unlocked =>
    refine ⟨⟨fair,relies,fun q held => ?_,traffics⟩,pair (fun _ held => ?_)⟩
    · rw [locked_lockPeer]
      split
      · rfl
      · exact peers q held
    · rw [peers peer held] at unlocked
      cases unlocked
  | refuse s' still result | pass s' still low | store a s' still | unstored a s' still e =>
    exact ⟨own_still bounded.parted still own,pair (fun _ => alone rfl)⟩
  | add a known =>
    refine ⟨⟨fair,relies_add bounded (fun q same held => ?_) relies,peers,traffics⟩,
      pair (fun _ => alone rfl)⟩
    rw [distinct q peer a same (bounded.known ▸ known)] at held
    exact alone rfl held
  | unknown e => exact ⟨own,pair (fun _ => alone rfl)⟩
  | unlock result =>
    refine ⟨⟨fair,relies,fun q held => ?_,traffics⟩,pair nofun⟩
    rw [locked_lockPeer,if_neg]
    · exact peers q held
    · rintro rfl
      exact alone rfl held

theorem cheque_spares {call : Call F} {phase phase' : ChequePhase R F}
    (holds : (invariant paymentTolerance book most).Holds c)
    (here : c.tasks[i]? = some (.receiveCheque peer call phase))
    (moves : ChequeMoves c.shared peer call phase s phase') {j : Nat} {other : Task R F} (moved : j ≠ i)
    (there : c.tasks[j]? = some other) :
    (invariant paymentTolerance book most).own s other ∧
      (invariant paymentTolerance book most).pair (.receiveCheque peer call phase') other := by
  have bounded : Bounded paymentTolerance book most c.shared := holds.whole
  have own := holds.own j other there
  obtain ⟨fair,relies,peers,traffics⟩ := holds.own j other there
  obtain ⟨own',⟨known,received⟩,-,-⟩ := holds.own i _ here
  have alone : ∀ a, phase.holds = some a → ¬other.holdsTraffic a := (holds.pair i j _ other moved.symm here there).2
  have pair : (∀ a, phase'.holds = some a → ¬other.holdsTraffic a) →
      (invariant paymentTolerance book most).pair (.receiveCheque peer call phase') other :=
    fun still => ⟨fun q held => held.elim,still⟩
  cases moves with
  | enter a s' still found => exact ⟨own_still bounded.parted still own,pair nofun⟩
  | fail e => exact ⟨own,pair nofun⟩
  | lock a unlocked =>
    refine ⟨⟨fair,relies,peers,fun b held => ?_⟩,pair (fun b same held => ?_)⟩
    · rw [locked_lockTraffic]
      split
      · rfl
      · exact traffics b held
    · cases same
      rw [traffics a held] at unlocked
      cases unlocked
  | refuse a result => exact ⟨own,pair alone⟩
  | take a p paid more =>
    rw [own' a (bounded.known ▸ known a rfl)]
    exact ⟨⟨fair,relies_take paid (alone a rfl) relies,peers,traffics⟩,pair alone⟩
  | write a =>
    obtain ⟨p,paid,low,-⟩ := received a rfl
    rw [paid]
    exact ⟨⟨fair,relies_write bounded low (alone a rfl) relies,peers,traffics⟩,pair alone⟩
  | unlock a result =>
    refine ⟨⟨fair,relies,peers,fun b held => ?_⟩,pair nofun⟩
    rw [locked_lockTraffic,if_neg]
    · exact traffics b held
    · rintro rfl
      exact alone b rfl held

end

/-! ### Runs -/

/-- Calls begin at their beginning, cheques draw on the chain address of the peer that presents them, and no
    amount is more than `most`. -/
def Calls (book : Map Address ChainAddress) (most : Nat) : Event (Task R F) (Option F) Empty → Prop
  | .spawn (.debit peer traffic phase) => phase = .called ∧ (Task.debit peer traffic phase).Fair book most
  | .spawn (.receiveCheque peer call phase) =>
    phase = .called ∧ (Task.receiveCheque peer call phase).Fair book most
  | _ => True

theorem stable (paymentTolerance paymentThreshold : Int) (cs : ChequeStore R) (most : Nat)
    (distinct : ∀ p q a, book.lookup p = some a → book.lookup q = some a → p = q) :
    Stable (system (F := F) paymentTolerance paymentThreshold cs) (fun _ e => Calls book most e)
      (invariant paymentTolerance book most) where
  symm task other pair := ⟨fun q held held' => pair.1 q held' held,fun a held held' => pair.2 a held' held⟩
  spawn c task holds calls := by
    cases task with
    | debit peer traffic phase =>
      obtain ⟨rfl,fair⟩ := calls
      exact ⟨holds.whole,own_debit fair nofun nofun,
        fun i other _ => ⟨fun q _ held => absurd held.2 Bool.false_ne_true,fun a _ held => held⟩⟩
    | receiveCheque peer call phase =>
      obtain ⟨rfl,fair⟩ := calls
      exact ⟨holds.whole,own_cheque fair ⟨nofun,nofun⟩ nofun,
        fun i other _ => ⟨fun q _ held => held,fun a _ held => nomatch held⟩⟩
  outside c change := change.elim
  step c i fails task s task' holds _ here stepped := by
    cases task with
    | debit peer traffic phase =>
      obtain ⟨⟨s₁,phase'⟩,made,same⟩ := Option.map_eq_some_iff.mp stepped
      cases same
      have moves := debit_moves made
      obtain ⟨bounded,own⟩ := debit_keeps holds here moves
      exact ⟨bounded,own,fun j other moved there => debit_spares distinct holds here moves moved there⟩
    | receiveCheque peer call phase =>
      obtain ⟨⟨s₁,phase'⟩,made,same⟩ := Option.map_eq_some_iff.mp stepped
      cases same
      have moves := receive_moves made
      obtain ⟨bounded,own⟩ := cheque_keeps holds here moves
      exact ⟨bounded,own,fun j other moved there => cheque_spares holds here moves moved there⟩

/-- A task that does not and will not return that the peer is blocked. -/
def Task.Unblocked : Task R F → Prop
  | .debit _ _ (.added _) => True
  | .debit _ _ (.returning result) => result ≠ .error .blockPeer
  | .debit _ _ (.returned result) => result ≠ .error .blockPeer
  | .debit .. => False
  | .receiveCheque .. => True

theorem unblocked_step {s s' : Shared} {task task' : Task R F} {fails : Option F}
    (stepped : (system paymentTolerance paymentThreshold cs).step s task fails = some (s',task'))
    (unblocked : task.Unblocked) : task'.Unblocked := by
  cases task with
  | debit peer traffic phase =>
    obtain ⟨⟨s₁,phase'⟩,made,same⟩ := Option.map_eq_some_iff.mp stepped
    cases same
    cases debit_moves made with
    | store a s' still => exact nofun
    | unstored a s' still e => exact nofun
    | unlock result => exact unblocked
    | find s' still | fail s' still e | lock unlocked | refuse s' still result | pass s' still low | add a known
    | unknown e => exact unblocked.elim
  | receiveCheque peer call phase =>
    obtain ⟨⟨s₁,phase'⟩,made,same⟩ := Option.map_eq_some_iff.mp stepped
    cases same
    trivial

theorem step_amounts {s s' : Shared} (parted : Parted s.memory) {task task' : Task R F} {fails : Option F}
    (stepped : (system paymentTolerance paymentThreshold cs).step s task fails = some (s',task')) :
    (∀ a, value .transferTraffic s'.memory a = value .transferTraffic s.memory a) ∨ task'.Unblocked := by
  cases task with
  | debit peer traffic phase =>
    obtain ⟨⟨s₁,phase'⟩,made,same⟩ := Option.map_eq_some_iff.mp stepped
    cases same
    cases debit_moves made with
    | add a known => exact Or.inr trivial
    | find s' still | fail s' still e | refuse s' still result | pass s' still low | store a s' still
    | unstored a s' still e => exact Or.inl (still.values parted _)
    | lock unlocked | unknown e | unlock result => exact Or.inl (fun a => rfl)
  | receiveCheque peer call phase =>
    obtain ⟨⟨s₁,phase'⟩,made,same⟩ := Option.map_eq_some_iff.mp stepped
    cases same
    exact Or.inr trivial

/-- No step of a `Debit` that returns that the peer is blocked changes what any peer owes in total. -/
def BlockedUnchanged (M : System Shared (Task R F) (Option F) Empty) (start : Config Shared (Task R F))
    (events : List (Event (Task R F) (Option F) Empty)) (c : Config Shared (Task R F)) : Prop :=
  ∀ before i fails after c₁ c₂, events = before ++ .step i fails :: after → M.run start before = some c₁ →
    M.next c₁ (.step i fails) = some c₂ →
      (∃ peer traffic, c.tasks[i]? = some (.debit peer traffic (.returned (.error .blockPeer)))) →
        ∀ a, value .transferTraffic c₂.shared.memory a = value .transferTraffic c₁.shared.memory a

/-- In every interleaving of `Debit` and `ReceiveCheque`, where cheques draw on the chain address of the peer that
    presents them and peers have different chain addresses, every peer owes less than the tolerance and the largest
    amount, if it does in the beginning, and a `Debit` that blocks the peer adds nothing. -/
theorem debt_bounded (paymentTolerance paymentThreshold : Int) (cs : ChequeStore R) (s : Shared) (most : Nat)
    (events : List (Event (Task R F) (Option F) Empty)) (c : Config Shared (Task R F)) (parted : Parted s.memory)
    (distinct : ∀ p q a, s.service.peerBeneficiary.lookup p = some a → s.service.peerBeneficiary.lookup q = some a →
      p = q)
    (start : ∀ peer a, s.service.peerBeneficiary.lookup peer = some a → owed s.memory a < paymentTolerance + most)
    (recorded : ∀ peer a, s.service.peerBeneficiary.lookup peer = some a →
      value .transferChequeTraffic s.memory a = payout s.service.receivedCheques a)
    (calls : ∀ e ∈ events, Calls s.service.peerBeneficiary most e)
    (ran : (system paymentTolerance paymentThreshold cs).run ⟨s,[]⟩ events = some c) :
    (∀ peer a, s.service.peerBeneficiary.lookup peer = some a → owed c.shared.memory a < paymentTolerance + most) ∧
      BlockedUnchanged (system paymentTolerance paymentThreshold cs) ⟨s,[]⟩ events c := by
  have holds : (invariant (R := R) (F := F) paymentTolerance s.service.peerBeneficiary most).Holds ⟨s,[]⟩ :=
    ⟨⟨parted,rfl,start,fun peer a known => le_of_eq (recorded peer a known)⟩,
      fun i task here => by simp at here,fun i j task other _ here => by simp at here⟩
  have kept := stable (F := F) paymentTolerance paymentThreshold cs most distinct
  refine ⟨(kept.run holds (System.allFit_of_forall _ calls _) ran).whole.bound,?_⟩
  rintro before i fails after c₁ c₂ rfl first made ⟨peer,traffic,blocked⟩
  have sofar := kept.run holds
    (System.allFit_of_forall _ (fun e member => calls e (List.mem_append_left _ member)) _) first
  rw [System.run_append,first,Option.bind_some,System.run,made] at ran
  obtain ⟨task,s₁,task',here,stepped,rfl⟩ := System.next_step _ made
  rcases step_amounts sofar.whole.parted stepped with unchanged | unblocked
  · exact unchanged
  have bound := (List.getElem?_eq_some_iff.mp here).1
  obtain ⟨final,there,still⟩ := System.run_task _ (fun s t f s' t' => unblocked_step) ran
    (List.getElem?_set_self bound) unblocked
  rw [blocked] at there
  cases there
  exact absurd rfl still

end

/-- The third of three requests is refused when two have used up the tolerance. -/
theorem debt_bounded_refused :
    let cs : ChequeStore Unit := ⟨1,0,fun cheque _ => .ok cheque.beneficiary,fun _ _ => True,fun _ _ _ => trivial⟩
    let s : Shared := ⟨⟨sampleService,∅,[]⟩,fun _ => false,fun _ => false⟩
    let one (i : Nat) : List (Event (Task Unit Unit) (Option Unit) Empty) :=
      .spawn (.debit [1] 7 .called) :: List.replicate (if i < 2 then 6 else 4) (.step i none)
    let events := one 0 ++ one 1 ++ one 2
    ∃ c, (system 10 100 cs).run ⟨s,[]⟩ events = some c ∧ owed c.shared.memory 10 = 14 ∧
      owed c.shared.memory 10 < 10 + 7 ∧ BlockedUnchanged (system 10 100 cs) ⟨s,[]⟩ events c := by
  intro cs s one events
  have owes : ((system 10 100 cs).run ⟨s,[]⟩ events).map (fun c => owed c.shared.memory 10) = some 14 := by
    decide +kernel +zetaReduce
  obtain ⟨c,ran,owing⟩ := Option.map_eq_some_iff.mp owes
  have calls : ∀ e ∈ events, Calls sampleService.peerBeneficiary 7 e := by
    simp [events,one,Calls,Task.Fair]
  obtain ⟨bound,unchanged⟩ := debt_bounded 10 100 cs s 7 events c sampleService_parted sampleService_single
    (fun peer a known => by change (0 : Int) - 0 < 10 + 7; decide) (fun peer a known => rfl) calls ran
  exact ⟨c,ran,owing,bound [1] 10 rfl,unchanged⟩

end FavorX.Debits

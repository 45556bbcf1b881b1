import FavorX.Settlement

/-!
What is not yet paid to each peer, next to the settlement service. A payment that
fails leaves everything as it was only if there was nothing to pay
(`failed_pay_unchanged_iff`), and the accounting follows the settlement as long
as payments find the funds they need (`accounting_mirrors`).
-/
namespace FavorX.Accounting
open FiniteMaps Cells Settlement
open Cheques (ChainAddress Cheque)
open Shed (Address)

structure AccountingPeer where
  paymentThreshold : Int
  unPaidTraffic : Ref

/-- The settlement service and the accounting, with the payments that are to be
    made. Their cells are in one memory. -/
structure World where
  service : Service
  accountingPeers : Map Address AccountingPeer
  payChan : List (Address × Int)

def World.withMemory (w : World) (m : Memory) : World := {w with service := {w.service with memory := m}}

/-- Replace what a peer has not been paid by a new cell. -/
def World.renewUnPaid (w : World) (peer : Address) (threshold v : Int) : World :=
  {w.withMemory {w.service.memory with heap := w.service.memory.heap ++ [v]} with
    accountingPeers := w.accountingPeers.insert peer ⟨threshold,w.service.memory.heap.length⟩}

section
variable {R F : Type}

def getAccountingPeer (paymentThreshold : Int) (peer : Address) (w : World) :
    Except (Err R F) AccountingPeer × World :=
  match w.accountingPeers.lookup peer with
  | some p => (.ok p,w)
  | none =>
    match (RetrieveTraffic peer w.service : Except (Err R F) Int × Service) with
    | (.error e,s) => (.error e,{w with service := s})
    | (.ok retrieve,s) => (.ok ⟨paymentThreshold,s.memory.heap.length⟩,
      World.renewUnPaid {w with service := s} peer paymentThreshold retrieve)

/-- The part of `credit` after the peer was found. -/
def creditPeer (p : AccountingPeer) (peer : Address) (traffic : UInt64) (fails : Option F) (w : World) :
    Except (Err R F) Unit × World :=
  let unPaid := read w.service.memory.heap p.unPaidTraffic + traffic.toNat
  let w := w.renewUnPaid peer p.paymentThreshold unPaid
  match (putRetrieveTraffic peer traffic.toNat fails w.service : Except (Err R F) Unit × Service) with
  | (.error e,s) => (.error e,{w with service := s})
  | (.ok (),s) => (.ok (),
    {w with
      service := s
      payChan := if unPaid ≥ p.paymentThreshold then w.payChan ++ [(peer,p.paymentThreshold)] else w.payChan})

def credit (paymentThreshold : Int) (peer : Address) (traffic : UInt64) (fails : Option F) (w : World) :
    Except (Err R F) Unit × World :=
  match (getAccountingPeer paymentThreshold peer w : Except (Err R F) AccountingPeer × World) with
  | (.error e,w) => (.error e,w)
  | (.ok p,w) => creditPeer p peer traffic fails w

def notifyPayment (paymentThreshold : Int) (peer : Address) (traffic : Int) (w : World) :
    Except (Err R F) Unit × World :=
  match (getAccountingPeer paymentThreshold peer w : Except (Err R F) AccountingPeer × World) with
  | (.error e,w) => (.error e,w)
  | (.ok p,w) =>
    let unPay := read w.service.memory.heap p.unPaidTraffic
    if unPay ≤ 0 then (.ok (),w)
    else (.ok (),w.renewUnPaid peer p.paymentThreshold
      (if unPay < traffic then 0 else unPay - traffic))

/-- A payment with its notification. What the notification returns is dropped. -/
def payAndNotify (paymentThreshold : Int) (own : ChainAddress) (peer : Address) (threshold : Int) (out : Outside F)
    (w : World) : Except (Err R F) Unit × World :=
  match (pay own peer threshold out w.service : Paid R F × Option Int) with
  | (paid,none) => (paid.result,{w with service := paid.service})
  | (paid,some balance) =>
    (paid.result,(notifyPayment paymentThreshold peer balance {w with service := paid.service} :
      Except (Err R F) Unit × World).2)

/-- The next payment that is to be made; an error is only logged. -/
def settle (paymentThreshold : Int) (own : ChainAddress) (out : Outside F) (w : World) : World :=
  match w.payChan with
  | [] => w
  | (peer,threshold) :: rest =>
    (payAndNotify paymentThreshold own peer threshold out {w with payChan := rest} :
      Except (Err Empty F) Unit × World).2

end

/-- What the accounting has as unpaid to a peer; for a peer that it does not keep
    yet, what it would start from. -/
def unPaid (w : World) (peer : Address) : Int :=
  match w.accountingPeers.lookup peer with
  | some p => read w.service.memory.heap p.unPaidTraffic
  | none =>
    match w.service.peerBeneficiary.lookup peer with
    | none => 0
    | some a => unpaid w.service.memory a

structure Placed (w : World) : Prop where
  traffic : Allocated w.service.memory
  accounts : ∀ peer p, w.accountingPeers.lookup peer = some p → p.unPaidTraffic < w.service.memory.heap.length

/-- What is left unpaid once a payment was notified. -/
def lessPaid (unPay traffic : Int) : Int :=
  if unPay ≤ 0 then unPay else if unPay < traffic then 0 else unPay - traffic

variable {w : World}

theorem value_renewUnPaid (placed : Placed w) (peer : Address) (threshold v : Int) (f : Field) (a : ChainAddress) :
    value f (w.renewUnPaid peer threshold v).service.memory a = value f w.service.memory a :=
  value_append placed.traffic f [v] a

theorem unPaid_renewUnPaid (placed : Placed w) (peer : Address) (threshold v : Int) (q : Address) :
    unPaid (w.renewUnPaid peer threshold v) q = if q = peer then v else unPaid w q := by
  have same : ∀ a, unpaid (w.renewUnPaid peer threshold v).service.memory a = unpaid w.service.memory a := fun a => by
    simp only [unpaid,value_renewUnPaid placed]
  unfold unPaid
  simp only [World.renewUnPaid,World.withMemory,lookup_insert_eq]
  by_cases is : q = peer
  · simp only [is,if_true]
    exact read_new
  simp only [is,if_false]
  cases held : w.accountingPeers.lookup q with
  | some p => exact read_old (placed.accounts q p held) [v]
  | none =>
    cases w.service.peerBeneficiary.lookup q with
    | none => rfl
    | some a => exact same a

theorem placed_renewUnPaid (placed : Placed w) (peer : Address) (threshold v : Int) :
    Placed (w.renewUnPaid peer threshold v) := by
  have longer : (w.renewUnPaid peer threshold v).service.memory.heap.length = w.service.memory.heap.length + 1 := by
    simp [World.renewUnPaid,World.withMemory]
  refine ⟨fun a t held f => ?_,fun q p held => ?_⟩
  · rw [longer]
    exact Nat.lt_succ_of_lt (placed.traffic a t held f)
  rw [longer]
  simp only [World.renewUnPaid,lookup_insert_eq] at held
  split at held
  · cases held
    exact Nat.lt_succ_self _
  · exact Nat.lt_succ_of_lt (placed.accounts q p held)

theorem unPaid_getTraffic (w : World) (a : ChainAddress) (q : Address) :
    unPaid (w.withMemory (getTraffic a w.service.memory).2) q = unPaid w q := by
  unfold unPaid
  simp only [World.withMemory,unpaid,value_getTraffic]
  cases held : w.accountingPeers.lookup q with
  | none => rfl
  | some p => exact getTraffic_read

theorem placed_getTraffic (placed : Placed w) (a : ChainAddress) :
    Placed (w.withMemory (getTraffic a w.service.memory).2) :=
  ⟨allocated_getTraffic placed.traffic a,fun q p held =>
    lt_of_lt_of_le (placed.accounts q p held) (touches_getTraffic a w.service.memory).grows⟩

variable {a : ChainAddress} {peer : Address}

section
variable {R F : Type}

theorem getAccountingPeer_known (known : w.service.peerBeneficiary.lookup peer = some a) (threshold : Int) :
    (∃ p, w.accountingPeers.lookup peer = some p ∧
      (getAccountingPeer threshold peer w : Except (Err R F) AccountingPeer × World) = (.ok p,w)) ∨
    w.accountingPeers.lookup peer = none ∧
      (getAccountingPeer threshold peer w : Except (Err R F) AccountingPeer × World) =
        (.ok ⟨threshold,(getTraffic a w.service.memory).2.heap.length⟩,
          (w.withMemory (getTraffic a w.service.memory).2).renewUnPaid peer threshold (unpaid w.service.memory a)) := by
  unfold getAccountingPeer
  cases held : w.accountingPeers.lookup peer with
  | some p => exact .inl ⟨p,rfl,rfl⟩
  | none =>
    refine .inr ⟨rfl,?_⟩
    simp only [RetrieveTraffic,known,retrieveTraffic_eq]
    rfl

theorem getAccountingPeer_amounts (placed : Placed w) (known : w.service.peerBeneficiary.lookup peer = some a)
    (threshold : Int) :
    ∃ p w₁, (getAccountingPeer threshold peer w : Except (Err R F) AccountingPeer × World) = (.ok p,w₁) ∧
      w₁.accountingPeers.lookup peer = some p ∧ Placed w₁ ∧
      (∀ f b, value f w₁.service.memory b = value f w.service.memory b) ∧ (∀ q, unPaid w₁ q = unPaid w q) ∧
      w₁.service.sendCheques = w.service.sendCheques := by
  rcases getAccountingPeer_known known threshold with ⟨p,held,run⟩ | ⟨absent,run⟩
  · exact ⟨p,w,run,held,placed,fun _ _ => rfl,fun _ => rfl,rfl⟩
  have placed₁ := placed_getTraffic placed a
  refine ⟨_,_,run,Finmap.lookup_insert _,placed_renewUnPaid placed₁ ..,fun f b => ?_,fun q => ?_,rfl⟩
  · rw [value_renewUnPaid placed₁]
    exact value_getTraffic f a _ b
  rw [unPaid_renewUnPaid placed₁,unPaid_getTraffic w]
  split
  · next is =>
    subst is
    simp only [unPaid,absent,known]
  · rfl

theorem notifyPayment_known (placed : Placed w) (known : w.service.peerBeneficiary.lookup peer = some a)
    (threshold traffic : Int) : let after := (notifyPayment threshold peer traffic w : Except (Err R F) Unit × World).2
    (∀ f b, value f after.service.memory b = value f w.service.memory b) ∧
      after.service.sendCheques = w.service.sendCheques ∧
      ∀ q, unPaid after q = if q = peer then lessPaid (unPaid w peer) traffic else unPaid w q := by
  obtain ⟨p,w₁,run,held,placed₁,values,same,sent⟩ :=
    getAccountingPeer_amounts (R := R) (F := F) placed known threshold
  have unPay : Cells.read w₁.service.memory.heap p.unPaidTraffic = unPaid w peer := by
    rw [← same]
    simp only [unPaid,held]
  simp only [notifyPayment,run,unPay]
  by_cases none : unPaid w peer ≤ 0
  · simp only [none,if_true,lessPaid]
    refine ⟨values,sent,fun q => ?_⟩
    rw [same]
    split
    · next is => rw [is]
    · rfl
  · simp only [none,if_false,lessPaid]
    refine ⟨fun f b => (value_renewUnPaid placed₁ ..).trans (values f b),sent,fun q => ?_⟩
    rw [unPaid_renewUnPaid placed₁,same]

/-! ### Payments that fail -/

/-- The ways a payment fails after it found what to pay. -/
def PaymentFailed (e : Err R F) : Prop := e = .insufficientFunds ∨ ∃ x, e = .sign x ∨ e = .emit x

/-- What was paid to a peer and what is owed to it, the last cheque sent to it and
    what the accounting has as unpaid are the same. -/
structure Unchanged (peer : Address) (a : ChainAddress) (w w' : World) : Prop where
  cheque : value .retrieveChequeTraffic w'.service.memory a = value .retrieveChequeTraffic w.service.memory a
  traffic : value .retrieveTraffic w'.service.memory a = value .retrieveTraffic w.service.memory a
  sent : w'.service.sendCheques.lookup a = w.service.sendCheques.lookup a
  unPaid : unPaid w' peer = unPaid w peer

theorem placed_increase (placed : Placed w) (a : ChainAddress) {amount : Int} :
    Placed (w.withMemory (increase a amount w.service.memory)) := by
  have placed₁ := placed_getTraffic placed a
  have length : (increase a amount w.service.memory).heap.length = (getTraffic a w.service.memory).2.heap.length := by
    rw [increase_eq]
    simp
  refine ⟨fun b t held f => ?_,fun q p held => ?_⟩
  · show t.cell f < (increase a amount w.service.memory).heap.length
    rw [length]
    rw [World.withMemory] at held
    exact placed₁.traffic b t held f
  · show p.unPaidTraffic < (increase a amount w.service.memory).heap.length
    rw [length]
    exact placed₁.accounts q p held

/-- What a payment of a known peer does: it is not due, the funds are missing, the
    cheque could not be signed or sent, or it was sent. -/
theorem payAndNotify_cases (known : w.service.peerBeneficiary.lookup peer = some a) (own : ChainAddress)
    (threshold : Int) (out : Outside F) (start : Int) : let balance := unpaid w.service.memory a
    let run := (payAndNotify start own peer threshold out w : Except (Err R F) Unit × World)
    let notified := fun w => (notifyPayment start peer balance w : Except (Err R F) Unit × World).2
    (balance < threshold ∧ run = (.ok (),w.withMemory (getTraffic a w.service.memory).2)) ∨
    (threshold ≤ balance ∧ availableBalance w.service < balance ∧
      run = (.error .insufficientFunds,notified (w.withMemory (getTraffic a w.service.memory).2))) ∨
    (balance ≤ availableBalance w.service ∧ ∃ e, ((∃ x, e = .sign x) ∨ ∃ x, e = .emit x) ∧
      run = (.error e,notified (w.withMemory (increase a balance w.service.memory)))) ∨
    (balance ≤ availableBalance w.service ∧ ∃ result sent, (result = .ok () ∨ ∃ e, result = .error (.storage e)) ∧
      run = (result,notified {w with service := {w.service with
        memory := keepPayout a (payoutCell a w.service.memory) (increase a balance w.service.memory)
        sendCheques := sent}})) := by
  intro balance run notified
  rcases pay_cases (R := R) known own threshold out with
    ⟨early,paid⟩ | ⟨due,poor,paid⟩ | ⟨_,rich,e,emitted,kind,paid⟩ | ⟨_,rich,result,signature,sent,ended,paid⟩
  · exact .inl ⟨early,by simp only [run,payAndNotify,paid]; rfl⟩
  · exact .inr (.inl ⟨due,poor,by simp only [run,payAndNotify,paid]; rfl⟩)
  · refine .inr (.inr (.inl ⟨rich,e,?_,by simp only [run,payAndNotify,paid]; rfl⟩))
    exact kind.imp (fun signing => signing.1) (fun sending => sending.1)
  · exact .inr (.inr (.inr ⟨rich,result,sent,ended,by simp only [run,payAndNotify,paid]; rfl⟩))

theorem unPaid_increase_zero (placed : Placed w) (known : w.service.peerBeneficiary.lookup peer = some a) :
    unPaid (w.withMemory (increase a 0 w.service.memory)) peer = unPaid w peer := by
  unfold unPaid
  simp only [World.withMemory,known,unpaid,value_increase_zero placed.traffic]
  cases w.accountingPeers.lookup peer with
  | some p => exact increase_zero placed.traffic a
  | none => rfl

theorem lessPaid_zero (unPay : Int) : lessPaid unPay 0 = unPay := by
  unfold lessPaid
  split
  · rfl
  · split
    · omega
    · omega

/-- A payment that fails for want of funds, at the signature or in the network
    leaves everything as it was exactly if nothing was to be paid, or if the funds
    were missing and the accounting had nothing as unpaid anyway. -/
theorem failed_pay_unchanged_iff {w : World} (placed : Placed w) {peer : Address} {a : ChainAddress}
    (known : w.service.peerBeneficiary.lookup peer = some a) (own : ChainAddress) (threshold : Int) (out : Outside F)
    (start : Int) {e : Err R F} (failed : (payAndNotify start own peer threshold out w).1 = .error e)
    (kind : PaymentFailed e) :
    Unchanged peer a w (payAndNotify start own peer threshold out w : Except (Err R F) Unit × World).2 ↔
      unpaid w.service.memory a = 0 ∨
        availableBalance w.service < unpaid w.service.memory a ∧ unPaid w peer ≤ 0 := by
  rcases payAndNotify_cases known own threshold out start with
    ⟨_,run⟩ | ⟨_,poor,run⟩ | ⟨rich,x,_,run⟩ | ⟨_,result,sent,ended,run⟩
  · rw [run] at failed
    cases failed
  · rw [run]
    -- Only the accounting can change.
    obtain ⟨values,sent,accounts⟩ := notifyPayment_known
      (placed_getTraffic placed a) known start
      (unpaid w.service.memory a)
    have account := accounts peer
    rw [if_pos rfl,unPaid_getTraffic] at account
    have same : Unchanged peer a w (notifyPayment start peer (unpaid w.service.memory a)
        (w.withMemory (getTraffic a w.service.memory).2) : Except (Err R F) Unit × World).2 ↔
        lessPaid (unPaid w peer) (unpaid w.service.memory a) = unPaid w peer :=
      ⟨fun unchanged => account.symm.trans unchanged.unPaid,fun kept =>
        ⟨(values _ a).trans (value_getTraffic ..),(values _ a).trans (value_getTraffic ..),by rw [sent]; rfl,
          account.trans kept⟩⟩
    rw [same]
    unfold lessPaid
    split
    · next none => exact ⟨fun _ => .inr ⟨poor,none⟩,fun _ => rfl⟩
    next some =>
    split
    · next less =>
      constructor
      · omega
      · omega
    constructor
    · intro kept
      exact .inl (by omega)
    · rintro (zero | ⟨_,none⟩)
      · omega
      · omega
  · rw [run]
    -- The payout has grown, so nothing may have been owed.
    obtain ⟨values,sent,accounts⟩ := notifyPayment_known
      (placed_increase placed a) known
      start (unpaid w.service.memory a)
    constructor
    · intro unchanged
      have paid : value .retrieveChequeTraffic (increase a (unpaid w.service.memory a) w.service.memory) a = _ :=
        (values .retrieveChequeTraffic a).symm.trans unchanged.cheque
      rw [value_increase_cheque placed.traffic] at paid
      exact .inl (by omega)
    rintro (zero | ⟨poor,_⟩)
    · rw [zero] at values sent accounts ⊢
      have same := value_increase_zero placed.traffic a
      have account := accounts peer
      rw [if_pos rfl,unPaid_increase_zero placed known,lessPaid_zero] at account
      refine ⟨(values _ a).trans (same _),(values _ a).trans (same _),?_,account⟩
      rw [sent]
      rfl
    · omega
  rw [run] at failed
  rcases ended with ok | ⟨x,stored⟩
  · rw [ok] at failed
    cases failed
  · rw [stored] at failed
    cases failed
    rcases kind with none | ⟨y,none | none⟩ <;> cases none

end

def fundedService : Service := {sampleService with balance := 100}

def creditedWorld (s : Service) : World :=
  (credit 5 [1] 5 none ⟨s,∅,[]⟩ : Except (Err Empty Unit) Unit × World).2

/-- Nothing is to be paid, and the cheque cannot be signed: all stays. -/
theorem failed_pay_unchanged_nothing :
    Unchanged [1] 10 ⟨sampleService,∅,[]⟩
      (payAndNotify 0 1 [1] 0 {sign := .error ()} ⟨sampleService,∅,[]⟩ : Except (Err Empty Unit) Unit × World).2 :=
  (failed_pay_unchanged_iff ⟨sampleService_parted.placed,fun _ _ held => by simp at held⟩ rfl 1 0 {sign := .error ()} 0 rfl
    (.inr ⟨(),.inl rfl⟩)).mpr (.inl rfl)

/-- Without funds the payment fails and the accounting changes; with funds it fails
    at the signature and what was paid by cheque changes. -/
theorem failed_pay_changes :
    ((payAndNotify 5 1 [1] 5 {} (creditedWorld sampleService) : Except (Err Empty Unit) Unit × World).1 =
        .error .insufficientFunds ∧
      ¬ Unchanged [1] 10 (creditedWorld sampleService)
        (payAndNotify 5 1 [1] 5 {} (creditedWorld sampleService) : Except (Err Empty Unit) Unit × World).2) ∧
    (payAndNotify 5 1 [1] 5 {sign := .error ()} (creditedWorld fundedService) :
        Except (Err Empty Unit) Unit × World).1 = .error (.sign ()) ∧
      ¬ Unchanged [1] 10 (creditedWorld fundedService)
        (payAndNotify 5 1 [1] 5 {sign := .error ()} (creditedWorld fundedService) :
          Except (Err Empty Unit) Unit × World).2 := by
  refine ⟨⟨rfl,fun unchanged => ?_⟩,rfl,fun unchanged => ?_⟩
  · have same := unchanged.unPaid
    revert same
    decide +kernel
  · have same := unchanged.cheque
    revert same
    decide +kernel

/-! ### Runs of credits and payments -/

/-- Nobody's cells are anybody else's: those of the peers of the settlement are
    parted, and those of the accounting are none of them. -/
structure Sound (w : World) : Prop where
  parted : Parted w.service.memory
  accounts : ∀ {q p}, w.accountingPeers.lookup q = some p → p.unPaidTraffic < w.service.memory.heap.length ∧
    ∀ {a t}, w.service.memory.trafficPeers.lookup a = some t → ∀ f, t.cell f ≠ p.unPaidTraffic

theorem Sound.placed (sound : Sound w) : Placed w :=
  ⟨sound.parted.placed,fun _ _ held => (sound.accounts held).1⟩

variable {m : Memory}

theorem sound_touches (sound : Sound w) (touches : Touches a w.service.memory m) : Sound (w.withMemory m) := by
  refine ⟨touches_parted sound.parted touches,fun {q p} held => ?_⟩
  obtain ⟨old,foreign⟩ := sound.accounts held
  refine ⟨lt_of_lt_of_le old touches.grows,fun {b t} heldB f same => ?_⟩
  by_cases is : b = a
  · subst is
    rcases touches.own t heldB f with new | ⟨t₀,g,held₀,cell⟩
    · rw [same] at new
      exact absurd old (not_lt.mpr new.1)
    · exact foreign held₀ g (cell ▸ same)
  · exact foreign (touches.others b is ▸ heldB) f same

theorem sound_renewUnPaid (sound : Sound w) (peer : Address) (threshold v : Int) :
    Sound (w.renewUnPaid peer threshold v) := by
  have longer : (w.renewUnPaid peer threshold v).service.memory.heap.length = w.service.memory.heap.length + 1 := by
    simp [World.renewUnPaid,World.withMemory]
  refine ⟨⟨fun {a t} held f => ?_,fun differ held heldB f g => sound.parted.apart differ held heldB f g⟩,
    fun {q p} held => ?_⟩
  · rw [longer]
    exact Nat.lt_succ_of_lt (sound.parted.allocated held f)
  rw [longer]
  simp only [World.renewUnPaid,lookup_insert_eq] at held
  split at held
  · cases held
    exact ⟨Nat.lt_succ_self _,fun heldA f => Nat.ne_of_lt (sound.parted.allocated heldA f)⟩
  · exact ⟨Nat.lt_succ_of_lt (sound.accounts held).1,fun heldA f => (sound.accounts held).2 heldA f⟩

/-- What the accounting has of a peer stays when the settlement changes the
    amounts of one, unless it was to start from these. -/
theorem unPaid_touches (sound : Sound w) (touches : Touches a w.service.memory m) {q : Address} :
    unPaid (w.withMemory m) q = unPaid w q ∨
      w.accountingPeers.lookup q = none ∧ w.service.peerBeneficiary.lookup q = some a ∧
        unPaid (w.withMemory m) q = unpaid m a := by
  unfold unPaid
  simp only [World.withMemory]
  cases held : w.accountingPeers.lookup q with
  | some p =>
    exact .inl (touches.cells _ (sound.accounts held).1 (fun t heldA f => (sound.accounts held).2 heldA f))
  | none =>
    cases known : w.service.peerBeneficiary.lookup q with
    | none => exact .inl rfl
    | some b =>
      by_cases is : b = a
      · subst is
        exact .inr ⟨rfl,rfl,rfl⟩
      · exact .inl (by simp only [unpaid,touches_value sound.parted touches _ is])

/-- The accounting mirrors the settlement: what it has as unpaid to a peer is what
    is owed and not paid by cheque, which is never negative. -/
structure Mirrors (w : World) : Prop where
  sound : Sound w
  single : ∀ {p q a}, w.service.peerBeneficiary.lookup p = some a → w.service.peerBeneficiary.lookup q = some a → p = q
  owing : ∀ a, 0 ≤ unpaid w.service.memory a
  equal : ∀ {q a}, w.service.peerBeneficiary.lookup q = some a → unPaid w q = unpaid w.service.memory a

theorem mirrors_congr {w' : World} (mirrors : Mirrors w) (memory : w'.service.memory = w.service.memory)
    (book : w'.service.peerBeneficiary = w.service.peerBeneficiary)
    (accounts : w'.accountingPeers = w.accountingPeers) : Mirrors w' := by
  have same : ∀ q, unPaid w' q = unPaid w q := fun q => by simp only [unPaid,memory,book,accounts]
  refine ⟨⟨memory ▸ mirrors.sound.parted,fun held => ?_⟩,fun {p q a} first second => ?_,fun a => ?_,
    fun {q a} known => ?_⟩
  · rw [accounts] at held
    rw [memory]
    exact mirrors.sound.accounts held
  · rw [book] at first second
    exact mirrors.single first second
  · rw [memory]
    exact mirrors.owing a
  · rw [same,memory]
    exact mirrors.equal (book ▸ known)

/-- A step of a peer that changes its amounts in the settlement and in the
    accounting alike. -/
theorem mirrors_step {w' : World} (mirrors : Mirrors w) (known : w.service.peerBeneficiary.lookup peer = some a)
    (sound : Sound w') (book : w'.service.peerBeneficiary = w.service.peerBeneficiary)
    (others : ∀ b, b ≠ a → unpaid w'.service.memory b = unpaid w.service.memory b)
    (accounts : ∀ q, q ≠ peer → (∀ b, w.service.peerBeneficiary.lookup q = some b → b ≠ a) → unPaid w' q = unPaid w q)
    (owing : 0 ≤ unpaid w'.service.memory a) (equal : unPaid w' peer = unpaid w'.service.memory a) : Mirrors w' := by
  refine ⟨sound,fun {p q b} first second => ?_,fun b => ?_,fun {q b} knownB => ?_⟩
  · rw [book] at first second
    exact mirrors.single first second
  · by_cases is : b = a
    · rw [is]
      exact owing
    · rw [others b is]
      exact mirrors.owing b
  rw [book] at knownB
  by_cases is : q = peer
  · subst is
    rw [known] at knownB
    cases knownB
    exact equal
  · have other : b ≠ a := fun same => is (mirrors.single knownB (same ▸ known))
    rw [accounts q is (fun c knownC => by rw [knownB] at knownC; cases knownC; exact other),others b other]
    exact mirrors.equal knownB

section
variable {R F : Type}

theorem mirrors_getAccountingPeer (mirrors : Mirrors w) (known : w.service.peerBeneficiary.lookup peer = some a)
    (threshold : Int) :
    ∃ p w₁, (getAccountingPeer threshold peer w : Except (Err R F) AccountingPeer × World) = (.ok p,w₁) ∧
      w₁.accountingPeers.lookup peer = some p ∧ w₁.service.peerBeneficiary = w.service.peerBeneficiary ∧
      Mirrors w₁ := by
  obtain ⟨p,w₁,run,held,_,values,same,_⟩ :=
    getAccountingPeer_amounts mirrors.sound.placed known threshold
  have rest : w₁.service.peerBeneficiary = w.service.peerBeneficiary ∧ Sound w₁ := by
    rcases getAccountingPeer_known known threshold with ⟨p',_,run'⟩ | ⟨_,run'⟩
    · rw [run] at run'
      cases run'
      exact ⟨rfl,mirrors.sound⟩
    · rw [run] at run'
      cases run'
      exact ⟨rfl,sound_renewUnPaid (sound_touches mirrors.sound (touches_getTraffic a _)) ..⟩
  refine ⟨p,w₁,run,held,rest.1,rest.2,fun {q r b} first second => ?_,fun b => ?_,fun {q b} knownB => ?_⟩
  · rw [rest.1] at first second
    exact mirrors.single first second
  · simp only [unpaid,values]
    exact mirrors.owing b
  · rw [rest.1] at knownB
    simp only [unpaid,values,same]
    exact mirrors.equal knownB

theorem credit_unknown (mirrors : Mirrors w) (unknown : w.service.peerBeneficiary.lookup peer = none)
    {threshold : Int} {traffic : UInt64} {fails : Option F} :
    Mirrors (credit threshold peer traffic fails w : Except (Err R F) Unit × World).2 := by
  unfold credit getAccountingPeer
  cases held : w.accountingPeers.lookup peer with
  | none =>
    simp only [RetrieveTraffic,unknown]
    exact mirrors
  | some p =>
    simp only [creditPeer,putRetrieveTraffic,putTraffic,World.renewUnPaid,World.withMemory,unknown]
    have sound := sound_renewUnPaid mirrors.sound peer p.paymentThreshold
      (Cells.read w.service.memory.heap p.unPaidTraffic + traffic.toNat)
    refine ⟨sound,mirrors.single,fun a => ?_,fun {q a} known => ?_⟩
    · have same := mirrors.owing a
      unfold unpaid
      rwa [value_append mirrors.sound.placed.traffic,value_append mirrors.sound.placed.traffic]
    have other : q ≠ peer := fun is => by
      rw [is] at known
      exact absurd (unknown.symm.trans known) nofun
    have same := unPaid_renewUnPaid mirrors.sound.placed peer p.paymentThreshold
      (Cells.read w.service.memory.heap p.unPaidTraffic + traffic.toNat) q
    rw [if_neg other] at same
    refine same.trans ((mirrors.equal known).trans ?_)
    unfold unpaid
    rw [value_append mirrors.sound.placed.traffic,value_append mirrors.sound.placed.traffic]

theorem unpaid_addTraffic (parted : Parted m) (a : ChainAddress) (amount : Int) :
    unpaid (addTraffic .retrieve a amount m) a = unpaid m a + amount := by
  unfold unpaid
  simp only [value_addTraffic parted,Side.traffic,if_true,reduceCtorEq,if_false]
  omega

theorem credit_mirrors (mirrors : Mirrors w) {threshold : Int} {peer : Address} {traffic : UInt64} {fails : Option F} :
    Mirrors (credit threshold peer traffic fails w : Except (Err R F) Unit × World).2 := by
  cases known : w.service.peerBeneficiary.lookup peer with
  | none => exact credit_unknown mirrors known
  | some a =>
    obtain ⟨p,w₁,run,held,book,mirrors₁⟩ := mirrors_getAccountingPeer (R := R) (F := F) mirrors known threshold
    rw [← book] at known
    -- The accounting adds the traffic first, then the settlement does.
    set w₂ := w₁.renewUnPaid peer p.paymentThreshold (Cells.read w₁.service.memory.heap p.unPaidTraffic + traffic.toNat)
      with w₂Is
    have sound₂ : Sound w₂ := sound_renewUnPaid mirrors₁.sound ..
    have touches := touches_addTraffic .retrieve a traffic.toNat w₂.service.memory
    have unPay : Cells.read w₁.service.memory.heap p.unPaidTraffic = unPaid w₁ peer := by simp only [unPaid,held]
    have values : ∀ f b, value f w₂.service.memory b = value f w₁.service.memory b := fun f b =>
      value_renewUnPaid mirrors₁.sound.placed ..
    have accounts : ∀ q, unPaid w₂ q = if q = peer then unPaid w₁ peer + traffic.toNat else unPaid w₁ q := fun q => by
      rw [unPaid_renewUnPaid mirrors₁.sound.placed,unPay]
    have grown : unpaid (addTraffic .retrieve a traffic.toNat w₂.service.memory) a =
        unpaid w₁.service.memory a + traffic.toNat := by
      rw [unpaid_addTraffic sound₂.parted]
      simp only [unpaid,values]
    have added : Mirrors (w₂.withMemory (addTraffic .retrieve a traffic.toNat w₂.service.memory)) := by
      refine mirrors_step mirrors₁ known (sound_touches sound₂ touches) rfl (fun b other => ?_)
        (fun q other foreign => ?_) ?_ ?_
      · show unpaid (addTraffic .retrieve a traffic.toNat w₂.service.memory) b = _
        simp only [unpaid,touches_value sound₂.parted touches _ other,values]
      · rcases unPaid_touches sound₂ touches with same | ⟨_,knownQ,_⟩
        · rw [same,accounts,if_neg other]
        · exact absurd rfl (foreign a knownQ)
      · show 0 ≤ unpaid (addTraffic .retrieve a traffic.toNat w₂.service.memory) a
        have := mirrors₁.owing a
        omega
      show _ = unpaid (addTraffic .retrieve a traffic.toNat w₂.service.memory) a
      rcases unPaid_touches sound₂ touches with same | ⟨absent,_⟩
      · rw [same,accounts,if_pos rfl,grown,mirrors₁.equal known]
      · simp [w₂Is,World.renewUnPaid] at absent
    have knownW : w₂.service.peerBeneficiary.lookup peer = some a := known
    unfold credit
    simp only [run,creditPeer,putRetrieveTraffic,putTraffic,← w₂Is,knownW,storeTraffic]
    cases fails with
    | some e => exact added
    | none => exact mirrors_congr added rfl rfl rfl

theorem notifyPayment_sound (sound : Sound w) (known : w.service.peerBeneficiary.lookup peer = some a)
    (threshold traffic : Int) :
    Sound (notifyPayment threshold peer traffic w : Except (Err R F) Unit × World).2 ∧
      (notifyPayment threshold peer traffic w : Except (Err R F) Unit × World).2.service.peerBeneficiary =
        w.service.peerBeneficiary := by
  unfold notifyPayment
  rcases getAccountingPeer_known (R := R) (F := F) known threshold with ⟨p,_,run⟩ | ⟨_,run⟩
  · simp only [run]
    split
    · exact ⟨sound,rfl⟩
    · exact ⟨sound_renewUnPaid sound ..,rfl⟩
  have created := sound_renewUnPaid (sound_touches sound (touches_getTraffic a _)) peer threshold
    (unpaid w.service.memory a)
  simp only [run]
  split
  · exact ⟨created,rfl⟩
  · exact ⟨sound_renewUnPaid created ..,rfl⟩

theorem notify_mirrors (mirrors : Mirrors w) (known : w.service.peerBeneficiary.lookup peer = some a)
    (touches : Touches a w.service.memory m) (paid : unpaid m a = 0) (sent : Map ChainAddress Cheque)
    (threshold : Int) :
    Mirrors (notifyPayment threshold peer (unpaid w.service.memory a)
      {w with service := {w.service with memory := m, sendCheques := sent}} : Except (Err R F) Unit × World).2 := by
  set w' : World := {w with service := {w.service with memory := m, sendCheques := sent}}
  have moved := sound_touches mirrors.sound touches
  have sound : Sound w' := ⟨moved.parted,moved.accounts⟩
  have known' : w'.service.peerBeneficiary.lookup peer = some a := known
  have unPaid' : ∀ q, unPaid w' q = unPaid (w.withMemory m) q := fun _ => rfl
  obtain ⟨values,_,accounts⟩ := notifyPayment_known sound.placed known' threshold
    (unpaid w.service.memory a)
  obtain ⟨soundAfter,book⟩ := notifyPayment_sound sound known' threshold (unpaid w.service.memory a)
  have unpaidAfter : ∀ b, unpaid _ b = unpaid m b := fun b => by
    unfold unpaid
    rw [values,values]
  have owed := mirrors.owing a
  -- The peer had the whole amount as unpaid, or starts from what is left of it.
  have lowered : lessPaid (unPaid w' peer) (unpaid w.service.memory a) = 0 := by
    rw [unPaid']
    unfold lessPaid
    rcases unPaid_touches mirrors.sound touches with same | ⟨_,_,start⟩
    · rw [same,mirrors.equal known]
      split
      · omega
      · split <;> omega
    · rw [start,paid]
      rfl
  refine mirrors_step mirrors known soundAfter book (fun b other => ?_) (fun q other foreign => ?_) ?_ ?_
  · rw [unpaidAfter]
    simp only [unpaid,touches_value mirrors.sound.parted touches _ other]
  · rw [accounts,if_neg other]
    rcases unPaid_touches mirrors.sound touches with same | ⟨_,knownQ,_⟩
    · exact same
    · exact absurd rfl (foreign a knownQ)
  · rw [unpaidAfter,paid]
  · rw [accounts,if_pos rfl,lowered,unpaidAfter,paid]

theorem unpaid_paid (allocated : Allocated m) (a : ChainAddress) : unpaid (increase a (unpaid m a) m) a = 0 := by
  obtain ⟨total,paid⟩ := unpaid_increase allocated a
  show value .retrieveTraffic _ a - value .retrieveChequeTraffic _ a = 0
  rw [total]
  omega

theorem unpaid_kept (allocated : Allocated m) (a : ChainAddress) :
    unpaid (keepPayout a (payoutCell a m) (increase a (unpaid m a) m)) a = 0 := by
  obtain ⟨total,paid⟩ := unpaid_increase allocated a
  show value .retrieveTraffic _ a - value .retrieveChequeTraffic _ a = 0
  rw [value_keepPayout,value_keepPayout]
  omega

/-- A payment keeps the mirror unless something is due that the funds do not
    cover. -/
theorem pay_mirrors (mirrors : Mirrors w) {start : Int} (own : ChainAddress) {peer : Address} {threshold : Int}
    (out : Outside F)
    (funded : ∀ a, w.service.peerBeneficiary.lookup peer = some a → threshold ≤ unpaid w.service.memory a →
      0 < unpaid w.service.memory a → unpaid w.service.memory a ≤ availableBalance w.service) :
    Mirrors (payAndNotify start own peer threshold out w : Except (Err R F) Unit × World).2 := by
  cases known : w.service.peerBeneficiary.lookup peer with
  | none =>
    unfold payAndNotify pay
    simp only [known]
    cases out.disconnect with
    | some e => exact mirrors
    | none => exact mirrors
  | some a =>
    have parted := mirrors.sound.parted
    have owed := mirrors.owing a
    have looked : unpaid (getTraffic a w.service.memory).2 a = unpaid w.service.memory a := by
      unfold unpaid
      rw [value_getTraffic,value_getTraffic]
    rcases payAndNotify_cases known own threshold out start with
      ⟨_,run⟩ | ⟨due,poor,run⟩ | ⟨_,e,_,run⟩ | ⟨_,result,sent,_,run⟩
    · rw [run]
      have touches := touches_getTraffic a w.service.memory
      refine mirrors_step mirrors known (sound_touches mirrors.sound touches) rfl (fun b _ => ?_)
        (fun q _ _ => unPaid_getTraffic w a q) (looked ▸ owed) ?_
      · show unpaid (getTraffic a w.service.memory).2 b = _
        unfold unpaid
        rw [value_getTraffic,value_getTraffic]
      · rw [unPaid_getTraffic,mirrors.equal known]
        exact looked.symm
    · rw [run]
      have nothing : unpaid w.service.memory a = 0 := by
        by_contra some
        have := funded a known due (by omega)
        omega
      exact notify_mirrors mirrors known (touches_getTraffic a _) (looked.trans nothing) w.service.sendCheques start
    · rw [run]
      exact notify_mirrors mirrors known (touches_increase a _ _) (unpaid_paid parted.placed a)
        w.service.sendCheques start
    · rw [run]
      exact notify_mirrors mirrors known (touches_keepPayout a) (unpaid_kept parted.placed a) sent start

/-! A run of the two services. -/

inductive Step (F : Type)
  | credit (peer : Address) (traffic : UInt64) (fails : Option F)
  | settle (out : Outside F)

def step (paymentThreshold : Int) (own : ChainAddress) (w : World) : Step F → World
  | .credit peer traffic fails => (credit paymentThreshold peer traffic fails w : Except (Err Empty F) Unit × World).2
  | .settle out => settle paymentThreshold own out w

def Funded (w : World) : Step F → Prop
  | .credit _ _ _ => True
  | .settle _ => ∀ peer threshold rest a, w.payChan = (peer,threshold) :: rest →
    w.service.peerBeneficiary.lookup peer = some a → threshold ≤ unpaid w.service.memory a →
    0 < unpaid w.service.memory a → unpaid w.service.memory a ≤ availableBalance w.service

def FundedRun (paymentThreshold : Int) (own : ChainAddress) : World → List (Step F) → Prop
  | _, [] => True
  | w, st :: steps => Funded w st ∧ FundedRun paymentThreshold own (step paymentThreshold own w st) steps

theorem step_mirrors (mirrors : Mirrors w) {start : Int} (own : ChainAddress) {st : Step F} (funded : Funded w st) :
    Mirrors (step start own w st) := by
  cases st with
  | credit peer traffic fails => exact credit_mirrors mirrors
  | settle out =>
    unfold step settle
    cases queue : w.payChan with
    | nil => exact mirrors
    | cons head rest =>
      obtain ⟨peer,threshold⟩ := head
      have popped : Mirrors {w with payChan := rest} := mirrors_congr mirrors rfl rfl rfl
      exact pay_mirrors popped own out (fun a => funded peer threshold rest a queue)

theorem run_mirrors (mirrors : Mirrors w) {start : Int} {own : ChainAddress} {steps : List (Step F)}
    (funded : FundedRun start own w steps) : Mirrors (steps.foldl (step start own) w) := by
  induction steps generalizing w with
  | nil => exact mirrors
  | cons st steps ih => exact ih (step_mirrors mirrors own funded.1) funded.2

/-- If every payment that is due finds the funds it needs, then in a run from a new
    accounting what it has as unpaid to a peer is what `RetrieveTraffic` returns,
    that is what is owed less what was paid by cheque. -/
theorem accounting_mirrors {s : Service} (parted : Parted s.memory)
    (single : ∀ p q a, s.peerBeneficiary.lookup p = some a → s.peerBeneficiary.lookup q = some a → p = q)
    (owing : ∀ a, value .retrieveChequeTraffic s.memory a ≤ value .retrieveTraffic s.memory a)
    (start : Int) (own : ChainAddress) (steps : List (Step F)) (funded : FundedRun start own ⟨s,∅,[]⟩ steps) :
    let w := steps.foldl (step start own) ⟨s,∅,[]⟩
    ∀ peer p a, w.accountingPeers.lookup peer = some p → w.service.peerBeneficiary.lookup peer = some a →
      (RetrieveTraffic peer w.service : Except (Err R F) Int × Service).1 =
          .ok (Cells.read w.service.memory.heap p.unPaidTraffic) ∧
        Cells.read w.service.memory.heap p.unPaidTraffic =
          value .retrieveTraffic w.service.memory a - value .retrieveChequeTraffic w.service.memory a := by
  intro w peer p a held known
  have first : Mirrors ⟨s,∅,[]⟩ := by
    refine ⟨⟨parted,fun held => ?_⟩,fun {p q a} => single p q a,fun a => ?_,fun {q a} known => ?_⟩
    · simp at held
    · have := owing a
      simp only [unpaid]
      omega
    · simp only [unPaid,Finmap.lookup_empty,known]
  have mirrors : Mirrors w := run_mirrors first funded
  have equal := mirrors.equal known
  simp only [unPaid,held] at equal
  refine ⟨?_,equal⟩
  unfold RetrieveTraffic
  simp only [known,retrieveTraffic_eq]
  rw [equal]

end

def sampleSteps : List (Step Unit) := [.credit [1] 5 none,.settle {}]

theorem accounting_mirrors_paid :
    let w := sampleSteps.foldl (step 5 1) ⟨fundedService,∅,[]⟩
    w.accountingPeers.lookup [1] ≠ none ∧
    ∀ p, w.accountingPeers.lookup [1] = some p →
      (RetrieveTraffic [1] w.service : Except (Err Empty Unit) Int × Service).1 =
          .ok (Cells.read w.service.memory.heap p.unPaidTraffic) ∧
        Cells.read w.service.memory.heap p.unPaidTraffic =
          value .retrieveTraffic w.service.memory 10 - value .retrieveChequeTraffic w.service.memory 10 := by
  have funded : FundedRun 5 1 ⟨fundedService,∅,[]⟩ sampleSteps := by
    refine ⟨trivial,fun peer threshold rest a queue known _ _ => ?_,trivial⟩
    cases queue
    cases known
    decide +kernel
  exact ⟨by decide +kernel,fun p held => accounting_mirrors (s := fundedService) sampleService_parted sampleService_single
    (fun _ => le_of_eq rfl) 5 1 sampleSteps funded [1] p 10 held rfl⟩

/-- The same without a balance: the payment fails for want of funds, but the
    accounting takes it for made. -/
theorem accounting_drifts :
    let w := sampleSteps.foldl (step 5 1) ⟨sampleService,∅,[]⟩
    ¬ ∀ p, w.accountingPeers.lookup [1] = some p → Cells.read w.service.memory.heap p.unPaidTraffic =
      value .retrieveTraffic w.service.memory 10 - value .retrieveChequeTraffic w.service.memory 10 := by
  intro w mirrors
  have equal := mirrors ⟨5,10⟩ rfl
  revert equal
  decide +kernel

end FavorX.Accounting

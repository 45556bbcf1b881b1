import FavorX.PeerCheques
import FavorX.Answers

/-!
The handlers of messages about cheques, and what they and the handler of answers about files panic
on. A cheque arrives as JSON text, which may be `null` and may leave fields out. A cheque without a
payout is refused before the payout is read; `null` is looked at only when the peer is known, and
then panics (`handlers_safe_iff`).
-/
namespace FavorX.Handlers
open FiniteMaps Settlement Answers
open Cheques hiding receiveCheque Err
open Shed (Address Bytes)

/-- A cheque as JSON text gives it. Fields that are left out are zero, a payout
    or a signature that is left out is nil. -/
structure Decoded extends Cheque where
  signature : Option Bytes

def Decoded.signed (d : Decoded) : SignedCheque := ⟨d.toCheque,d.signature.getD []⟩

inductive Failure (R F J : Type)
  | json (e : J)
  | service (e : Err R F)
  | noCheque
  | write (e : F)

section
variable {R F J : Type} (cs : ChequeStore R)
  -- what the text decodes to, none being `null`
  (unmarshal : Bytes → Except J (Option Decoded))

def fromService (run : Except (Err R F) Unit × Service) : Except (Failure R F J) Unit × Service :=
  (run.1.mapError .service,run.2)

/-- The pointer to the cheque is nil for `null`. -/
def handler (peer : Address) (signedCheque : Bytes) (getFails putFails : Option F) (s : Service) :
    Except (Failure R F J) Unit × Service :=
  match unmarshal signedCheque with
  | .error e => (.error (.json e),s)
  | .ok (some d) => fromService (receiveCheque cs peer ⟨d.signed,getFails,putFails⟩ s)
  | .ok none =>
    match s.peerBeneficiary.lookup peer with
    | none => fromService (.error .accountUnknown,s)
    | some _ => fromService (.error .panicked,s)

/-- What the world does while an init message is handled. -/
structure Outside (F : Type) where
  book : Option F := none
  balanceOf : Except F Int := .ok 0
  get : Option F := none
  put : Option F := none
  lastGet : Option F := none
  write : Option F := none

/-- Answer an init message with the last cheque of the peer. -/
def answerInit (out : Outside F) (peer : Address) (s : Service) : Except (Failure R F J) Unit :=
  match out.lastGet, (s.peerBeneficiary.lookup peer).isSome with
  | some e, true => .error (.service (.storage e))
  | _, _ =>
    match out.write with
    | some e => .error (.write e)
    | none => .ok ()

/-- The cheque is a value, which `null` leaves as it is. What the handshake fails
    with is logged, unless it panics. -/
def initHandler (peer : Address) (recipient : ChainAddress) (signedCheque : Bytes) (out : Outside F) (s : Service) :
    Except (Failure R F J) Unit × Service :=
  match unmarshal signedCheque with
  | .error e => (.error (.json e),s)
  | .ok d =>
    match handshake cs ⟨peer,recipient,d.bind (fun d => d.signature.map (⟨d.toCheque,·⟩)),out.book,out.balanceOf,
      out.get,out.put⟩ s with
    | (.error .panicked,s) => (.error (.service .panicked),s)
    | (_,s) => (answerInit out peer s,s)

/-- A handler does not panic. -/
def Safe (r : Except (Failure R F J) Unit) : Prop :=
  r ≠ .error (.service .panicked) ∧ r ≠ .error (.service (.store .panicked))

/-- The stored cheques have payouts. -/
structure Payable (s : Service) : Prop where
  sent : ∀ a cheque, s.sendCheques.lookup a = some cheque → cheque.cumulativePayout.isSome
  received : ∀ a cheque, s.receivedCheques.lookup a = some cheque → cheque.cumulativePayout.isSome

inductive Event (F : Type)
  | receive (peer : Address) (call : Call F)
  | greet (g : Greeting F)
  | pay (peer : Address) (paymentThreshold : Int) (out : Settlement.Outside F)

def after (s : Service) : Event F → Service
  | .receive peer call => (receiveCheque cs peer call s).2
  | .greet g => (handshake cs g s).2
  | .pay peer paymentThreshold out => (pay cs.recipient peer paymentThreshold out s : Paid R F × Option Int).1.service

def run (events : List (Event F)) (s : Service) : Service := events.foldl (after cs) s

variable {cs} {s : Service}

section
variable (payable : Payable s)
include payable

theorem payable_same {s' : Service} (sent : s'.sendCheques = s.sendCheques)
    (received : s'.receivedCheques = s.receivedCheques) : Payable s' :=
  ⟨fun a cheque found => payable.sent a cheque (sent ▸ found),
    fun a cheque found => payable.received a cheque (received ▸ found)⟩

theorem payable_putSendCheque {c : Cheque} (paid : c.cumulativePayout.isSome) (m : Memory) (payout : Cells.Ref)
    (recipient : ChainAddress) (fails : Option F) :
    Payable (putSendCheque c payout recipient fails { s with memory := m } : Except (Err R F) Unit × Service).2 := by
  unfold putSendCheque
  cases fails with
  | some e => exact payable_same payable rfl rfl
  | none =>
    refine ⟨fun a cheque found => ?_,payable.received⟩
    rw [lookup_insert_eq] at found
    split at found
    · cases found
      exact paid
    · exact payable.sent a cheque found

theorem payable_receive {peer : Address} {call : Call F} : Payable (receiveCheque cs peer call s).2 := by
  rcases PeerCheques.receiveCheque_cases cs s ⟨peer,call⟩ with ⟨e,m,_,run⟩ | ⟨a,p,_,paid,_,run⟩
  · rw [run]
    exact payable_same payable rfl rfl
  rw [run]
  refine ⟨payable.sent,fun b c found => ?_⟩
  rw [lookup_insert_eq] at found
  split at found
  · cases found
    exact Option.isSome_of_mem paid
  · exact payable.received b c found

theorem payable_introduce (g : Greeting F) : Payable (introduce g s : Except (Err R F) Unit × Service).2 := by
  unfold introduce putBeneficiary
  split
  · split
    · exact payable
    · split <;> exact payable_same payable rfl rfl
  · split
    · exact payable
    · split <;> exact payable

theorem payable_updatePeerBalance (peer : Address) (balanceOf : Except F Int) :
    Payable (updatePeerBalance peer balanceOf s : Except (Err R F) Unit × Service).2 := by
  unfold updatePeerBalance
  split
  · exact payable
  · split
    · exact payable
    · exact payable_same payable rfl rfl

/-- A cheque without a payout has no signer. -/
def Signs (cs : ChequeStore R) : Prop :=
  ∀ cheque issuer, cs.recoverChequeFunc cheque cs.chainID = .ok issuer → cheque.cumulativePayout.isSome

theorem present_payable (signs : Signs cs) (g : Greeting F) {cheque : SignedCheque} :
    (present cs g cheque s).1 ≠ .error .panicked ∧ Payable (present cs g cheque s).2 := by
  unfold present
  cases recovered : cs.recoverChequeFunc cheque cs.chainID with
  | error e => exact ⟨nofun,payable⟩
  | ok isUser =>
    dsimp only
    split
    · exact ⟨nofun,payable⟩
    cases g.get with
    | some e => exact ⟨nofun,payable⟩
    | none =>
      have paid := signs cheque isUser recovered
      obtain ⟨p,has⟩ := Option.isSome_iff_exists.mp paid
      obtain ⟨last,sent⟩ : ∃ last, lastSent s g.recipient = some last := by
        unfold lastSent
        split
        · exact ⟨0,rfl⟩
        · next c found => exact Option.isSome_iff_exists.mp (payable.sent _ c found)
      simp only [restore,has,sent]
      split
      · refine ⟨?_,payable_putSendCheque payable paid ..⟩
        cases g.put <;> nofun
      · exact ⟨nofun,payable⟩

theorem handshake_payable (signs : Signs cs) (g : Greeting F) :
    (handshake cs g s).1 ≠ .error .panicked ∧ Payable (handshake cs g s).2 := by
  have first := payable_introduce (R := R) payable g
  have returns : (introduce g s : Except (Err R F) Unit × Service).1 ≠ .error .panicked := by
    unfold introduce putBeneficiary
    split
    · split
      · nofun
      · split <;> nofun
    · split
      · nofun
      · split <;> nofun
  unfold handshake
  split
  · next run => exact ⟨by simpa [run] using returns,run ▸ first⟩
  next s₁ run =>
  rw [run] at first
  have second := payable_updatePeerBalance (R := R) first g.peer g.balanceOf
  split
  · next e s₂ run₂ =>
    refine ⟨fun panics => ?_,run₂ ▸ second⟩
    unfold updatePeerBalance at run₂
    split at run₂
    · cases run₂; cases panics
    · split at run₂ <;> cases run₂
      cases panics
  next s₂ run₂ =>
  rw [run₂] at second
  split
  · exact ⟨nofun,second⟩
  · exact present_payable second signs g

theorem payable_pay (own : ChainAddress) (peer : Address) (paymentThreshold : Int) (out : Settlement.Outside F) :
    Payable (pay own peer paymentThreshold out s : Paid R F × Option Int).1.service := by
  unfold pay
  split
  · split <;> exact payable
  dsimp only
  split
  · unfold issue send
    split
    · exact payable_same payable rfl rfl
    split
    · exact payable_same payable rfl rfl
    · split
      · exact payable_same payable rfl rfl
      · exact payable_putSendCheque payable rfl ..
  · exact payable_same payable rfl rfl

end

theorem payable_run (signs : Signs cs) {events : List (Event F)} (payable : Payable s) : Payable (run cs events s) := by
  induction events generalizing s with
  | nil => exact payable
  | cons e events ih =>
    refine ih ?_
    cases e with
    | receive peer call => exact payable_receive payable
    | greet g => exact (handshake_payable payable signs g).2
    | pay peer paymentThreshold out => exact payable_pay payable ..

theorem receiveCheque_returns (payable : Payable s) (signs : Signs cs) {peer : Address} {call : Call F} :
    Safe (fromService (J := J) (receiveCheque cs peer call s)).1 := by
  unfold receiveCheque
  split
  · exact ⟨nofun,nofun⟩
  dsimp only
  split
  · exact ⟨nofun,nofun⟩
  have returns : (Cheques.receiveCheque cs call s.receivedCheques).1 ≠ .error .panicked := by
    unfold Cheques.receiveCheque
    dsimp only
    split
    · nofun
    cases recovered : cs.recoverChequeFunc call.cheque cs.chainID with
    | error e => nofun
    | ok issuer =>
      dsimp only
      split
      · nofun
      cases call.getFails with
      | some e => nofun
      | none =>
        obtain ⟨p,has⟩ := Option.isSome_iff_exists.mp (signs _ _ recovered)
        obtain ⟨last,stored⟩ : ∃ last, lastPayout s.receivedCheques call.cheque.beneficiary = some last := by
          unfold lastPayout
          split
          · exact ⟨0,rfl⟩
          · next c found => exact Option.isSome_iff_exists.mp (payable.received _ c found)
        simp only [has,stored]
        split
        · nofun
        · cases call.putFails <;> nofun
  split
  · next e _ run =>
    rw [run] at returns
    exact ⟨nofun,fun panics => returns (by cases panics; rfl)⟩
  · exact ⟨nofun,nofun⟩

/-- After any calls, the handlers of cheques and of answers about files do not
    panic, if and only if no known peer sends `null` for a cheque, and no answer
    for this node about a file that is searched for has a key that is no address.
    Init messages never make them panic. -/
theorem handlers_safe_iff (cs : ChequeStore R) (signs : Signs cs) (unmarshal : Bytes → Except J (Option Decoded))
    (events : List (Event F)) (node : Node) : let s := run cs events Service.new
    (∀ peer text (getFails putFails : Option F), Safe (handler cs unmarshal peer text getFails putFails s).1 ↔
      (unmarshal text = .ok none → s.peerBeneficiary.lookup peer = none)) ∧
    (∀ peer recipient text (out : Outside F), Safe (initHandler cs unmarshal peer recipient text out s).1) ∧
    ∀ now (resp : ChunkInfoResp), (∀ order, order.Perm resp.presence →
        (node.handlerChunkInfoResp now { resp with presence := order }).isSome) ↔
      (resp.req = node.addr → (node.searches resp.rootCid).queue.isSome →
        ∀ entry ∈ resp.presence, (Texts.decodeString entry.1).isSome) := by
  intro s
  have payable : Payable s := payable_run signs ⟨nofun,nofun⟩
  refine ⟨fun peer text getFails putFails => ?_,fun peer recipient text out => ?_,
    fun now resp => handlerChunkInfoResp_iff node now resp⟩
  · unfold handler
    cases decoded : unmarshal text with
    | error e => exact iff_of_true ⟨nofun,nofun⟩ nofun
    | ok d =>
      cases d with
      | some d => exact iff_of_true (receiveCheque_returns payable signs) nofun
      | none =>
        cases known : s.peerBeneficiary.lookup peer with
        | none => exact iff_of_true ⟨nofun,nofun⟩ (fun _ => rfl)
        | some a => exact iff_of_false (fun safe => safe.1 rfl) (fun absent => nomatch absent rfl)
  unfold initHandler
  cases unmarshal text with
  | error e => exact ⟨nofun,nofun⟩
  | ok d =>
    dsimp only
    split
    · next run => exact absurd (by rw [run]) (handshake_payable payable signs _).1
    unfold answerInit
    split
    · exact ⟨nofun,nofun⟩
    · split <;> exact ⟨nofun,nofun⟩

end

/-- A cheque store that refuses cheques without a payout. -/
def strictStore : ChequeStore Unit where
  recipient := 1
  chainID := 0
  recoverChequeFunc cheque _ := if cheque.cumulativePayout.isSome then .ok cheque.beneficiary else .error ()
  SignedBy _ _ := True
  recovers _ _ _ := trivial

def nullText (_ : Bytes) : Except Empty (Option Decoded) := .ok none

def introduced : List (Event Unit) := [.greet ⟨[1],10,none,none,.ok 0,none,none⟩]

theorem strictStore_signs : Signs strictStore := by
  intro cheque issuer recovered
  unfold strictStore at recovered
  dsimp only at recovered
  split at recovered
  · next paid => exact paid
  · cases recovered

theorem handlers_safe_unknown :
    Safe (handler strictStore nullText [2] [] (none : Option Unit) none (run strictStore introduced Service.new)).1 :=
  ((handlers_safe_iff strictStore strictStore_signs nullText introduced ⟨[9],fun _ => { self := [9] },{}⟩).1 [2] []
    none none).mpr (fun _ => by decide)

/-- A known peer sends `null` for a cheque; an answer about a file that is
    searched for has a key that is no address. -/
theorem handlers_panic :
    (handler strictStore nullText [1] [] (none : Option Unit) none (run strictStore introduced Service.new)).1 =
        .error (.service .panicked) ∧
      sampleState.node.handlerChunkInfoResp 1 ⟨[1],[2],[9],[(['z'],[])]⟩ = none :=
  ⟨by rfl,by rfl⟩

end FavorX.Handlers

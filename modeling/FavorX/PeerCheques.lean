import FavorX.Settlement

/-!
Whose cheques the service takes. The amount of a received cheque is written down
for the peer that sent it, which is right as long as every peer presents its own
cheques (`received_belongs`). A presented cheque of this node is filed under the
chain address that the handshake names (`restored_own`).
-/
namespace FavorX.PeerCheques
open FiniteMaps Cells Settlement
open Cheques hiding receiveCheque Err
open Shed (Address)

variable {s : Service}

section
variable {R F : Type}

structure Receipt (F : Type) where
  peer : Address
  call : Call F

def receiveAll (cs : ChequeStore R) (receipts : List (Receipt F)) (s : Service) : Service :=
  receipts.foldl (fun s r => (receiveCheque cs r.peer r.call s).2) s

/-- Receiving a cheque leaves the amount of the peer that was paid by cheque
    what the cheque store has for its chain address, if it is accepted, and lowers
    the amount of no peer. -/
def Belongs (cs : ChequeStore R) (s : Service) (r : Receipt F) : Prop :=
  (∀ u, (receiveCheque cs r.peer r.call s).1 = .ok u → ∀ a, s.peerBeneficiary.lookup r.peer = some a →
    value .transferChequeTraffic (receiveCheque cs r.peer r.call s).2.memory a =
      payout (receiveCheque cs r.peer r.call s).2.receivedCheques a) ∧
  ∀ a, value .transferChequeTraffic s.memory a ≤
    value .transferChequeTraffic (receiveCheque cs r.peer r.call s).2.memory a

/-- A call is refused and changes no amount, or it writes the payout of the
    cheque down for the peer that sent it and files the cheque under the chain
    address that it draws on. -/
theorem receiveCheque_cases (cs : ChequeStore R) (s : Service) (r : Receipt F) :
    (∃ e m, (m = s.memory ∨ ∃ a, m = (getTraffic a s.memory).2) ∧
      receiveCheque cs r.peer r.call s = (.error e,{s with memory := m})) ∨
    ∃ a p, s.peerBeneficiary.lookup r.peer = some a ∧ r.call.cheque.cumulativePayout = some p ∧
      payout s.receivedCheques r.call.cheque.beneficiary < p ∧
      receiveCheque cs r.peer r.call s = (.ok (),
        {s with
          memory := renew a .transferChequeTraffic p (getTraffic a s.memory).2
          receivedCheques := s.receivedCheques.insert r.call.cheque.beneficiary r.call.cheque}) := by
  unfold receiveCheque
  cases known : s.peerBeneficiary.lookup r.peer with
  | none => exact .inl ⟨_,_,.inl rfl,rfl⟩
  | some a =>
    dsimp only
    split
    · exact .inl ⟨_,_,.inl rfl,rfl⟩
    rcases Cheques.receiveCheque_cases cs s.receivedCheques r.call with ⟨e,run⟩ | ⟨p,paid,more,_,_,run⟩
    · simp only [run]
      exact .inl ⟨_,_,.inr ⟨a,rfl⟩,rfl⟩
    · simp only [run,paid]
      exact .inr ⟨a,p,rfl,rfl,more,rfl⟩

/-- No peer has more written down than the cheque store has for it. -/
def Backed (s : Service) : Prop := ∀ a, value .transferChequeTraffic s.memory a ≤ payout s.receivedCheques a

/-- What a sequence of received cheques keeps: peers share no cells, amounts are
    backed, and the address book stays. -/
structure Kept (book : Map Address ChainAddress) (s : Service) : Prop where
  parted : Parted s.memory
  backed : Backed s
  known : s.peerBeneficiary = book

variable {cs : ChequeStore R}

theorem receiveCheque_kept {book : Map Address ChainAddress} (kept : Kept book s) {r : Receipt F}
    (own : ∀ a, book.lookup r.peer = some a → r.call.cheque.beneficiary = a) :
    Belongs cs s r ∧ Kept book (receiveCheque cs r.peer r.call s).2 := by
  unfold Belongs
  rcases receiveCheque_cases cs s r with ⟨e,m,is,run⟩ | ⟨a,p,known,paid,more,run⟩
  · have same : ∀ f b, value f m b = value f s.memory b := by
      rcases is with rfl | ⟨a,rfl⟩
      · exact fun _ _ => rfl
      · exact fun f b => value_getTraffic f a s.memory b
    have parted : Parted m := by
      rcases is with rfl | ⟨a,rfl⟩
      · exact kept.parted
      · exact touches_parted kept.parted (touches_getTraffic a _)
    simp only [run,same]
    exact ⟨⟨nofun,fun a => le_refl _⟩,parted,fun a => (same _ a).symm ▸ kept.backed a,kept.known⟩
  have filed : r.call.cheque.beneficiary = a := own a (kept.known ▸ known)
  have parted := touches_parted kept.parted (touches_getTraffic a s.memory)
  have mine : value .transferChequeTraffic (renew a .transferChequeTraffic p (getTraffic a s.memory).2) a = p := by
    rw [value_renew parted,if_pos rfl]
  have others : ∀ b, b ≠ a → value .transferChequeTraffic (renew a .transferChequeTraffic p (getTraffic a s.memory).2) b =
      value .transferChequeTraffic s.memory b := fun b other => by
    rw [touches_value parted (touches_renew ..) _ other,value_getTraffic]
  have before := kept.backed a
  rw [filed] at more run
  simp only [run]
  refine ⟨⟨fun u _ b knownB => ?_,fun b => ?_⟩,touches_parted parted (touches_renew ..),fun b => ?_,kept.known⟩
  · rw [known] at knownB
    cases knownB
    rw [mine,payout_insert _ paid,if_pos rfl]
  · by_cases same : b = a
    · subst same
      omega
    · rw [others b same]
  rw [payout_insert _ paid]
  by_cases same : b = a
  · subst same
    rw [mine,if_pos rfl]
  · rw [others b same,if_neg same]
    exact kept.backed b

theorem receiveAll_kept {book : Map Address ChainAddress} {receipts : List (Receipt F)} (kept : Kept book s)
    (own : ∀ r ∈ receipts, ∀ a, book.lookup r.peer = some a → r.call.cheque.beneficiary = a) :
    Kept book (receiveAll cs receipts s) := by
  induction receipts generalizing s with
  | nil => exact kept
  | cons r receipts ih =>
    exact ih (receiveCheque_kept kept (own r (by simp))).2 (fun q member => own q (by simp [member]))

/-- If every peer presents cheques that draw on its own chain address, then in a
    run from a service whose amounts are backed every received cheque belongs to
    the peer that it is written down for. -/
theorem received_belongs (cs : ChequeStore R) {s : Service} (parted : Parted s.memory) (backed : Backed s)
    (before : List (Receipt F)) (r : Receipt F)
    (own : ∀ q ∈ before ++ [r], ∀ a, s.peerBeneficiary.lookup q.peer = some a → q.call.cheque.beneficiary = a) :
    Belongs cs (receiveAll cs before s) r :=
  (receiveCheque_kept (receiveAll_kept ⟨parted,backed,rfl⟩ (fun q member => own q (by simp [member])))
    (fun a known => own r (by simp) a known)).1

def sampleCheque (beneficiary : ChainAddress) : SignedCheque := ⟨⟨1,beneficiary,some 5⟩,[7]⟩

theorem received_belongs_own : Belongs sampleStore
    (receiveAll sampleStore [(⟨[1],{cheque := sampleCheque 10}⟩ : Receipt Unit)] sampleService)
    (⟨[2],{cheque := sampleCheque 11}⟩ : Receipt Unit) :=
  received_belongs sampleStore sampleService_parted (fun _ => le_of_eq rfl) _ _ (by
    intro q member a known
    rcases List.mem_cons.mp member with rfl | last
    · exact Option.some.inj known
    · cases List.mem_singleton.mp last
      exact Option.some.inj known)

/-- A peer sends the cheque of another peer. It is accepted and written down for
    the sender, for whom the cheque store has nothing. -/
theorem foreign_cheque_credited :
    sampleStore.recoverChequeFunc (sampleCheque 11) sampleStore.chainID = .ok (sampleCheque 11).beneficiary ∧
      ¬ Belongs sampleStore (receiveAll sampleStore ([] : List (Receipt Unit)) sampleService)
        (⟨[1],{cheque := sampleCheque 11}⟩ : Receipt Unit) := by
  refine ⟨rfl,fun belongs => ?_⟩
  have credited := belongs.1 () rfl 10 (by decide +kernel)
  revert credited
  decide +kernel

def greetAll (cs : ChequeStore R) (greetings : List (Greeting F)) (s : Service) : Service :=
  greetings.foldl (fun s g => (handshake cs g s).2) s

/-- The last cheque filed as sent to a chain address is made out to it, and no
    more is written down as paid to a chain address by cheque than this node has
    signed for it; nothing signed counts as 0. -/
structure OwnCheques (cs : ChequeStore R) (s : Service) : Prop where
  filed : ∀ r cheque, s.sendCheques.lookup r = some cheque → cheque.recipient = r
  covered : ∀ r, value .retrieveChequeTraffic s.memory r ≤ 0 ∨
    ∃ cheque p, cs.SignedBy cheque cs.recipient ∧ cheque.recipient = r ∧ cheque.cumulativePayout = some p ∧
      value .retrieveChequeTraffic s.memory r ≤ p

/-- From `s` to `s'` neither the filed cheques nor what was paid by cheque changes. -/
structure Unpaid (s s' : Service) : Prop where
  parted : Parted s'.memory
  sent : s'.sendCheques = s.sendCheques
  paid : ∀ r, value .retrieveChequeTraffic s'.memory r = value .retrieveChequeTraffic s.memory r

theorem introduce_unpaid (g : Greeting F) (parted : Parted s.memory) :
    Unpaid s (introduce g s : Except (Err R F) Unit × Service).2 := by
  unfold introduce putBeneficiary
  split
  · split
    · exact ⟨parted,rfl,fun _ => rfl⟩
    · split <;> exact ⟨parted,rfl,fun _ => rfl⟩
  · split
    · exact ⟨parted,rfl,fun _ => rfl⟩
    · split <;> exact ⟨parted,rfl,fun _ => rfl⟩

theorem updatePeerBalance_unpaid (peer : Address) (balanceOf : Except F Int) (parted : Parted s.memory) :
    Unpaid s (updatePeerBalance peer balanceOf s : Except (Err R F) Unit × Service).2 := by
  unfold updatePeerBalance
  split
  · exact ⟨parted,rfl,fun _ => rfl⟩
  next a known =>
  split
  · exact ⟨parted,rfl,fun _ => rfl⟩
  refine ⟨touches_parted parted (touches_renew ..),rfl,fun r => ?_⟩
  by_cases same : r = a
  · subst same
    exact value_renew parted ..
  · exact touches_value parted (touches_renew ..) _ same

/-- Presenting a cheque leaves the filed cheques and what was paid, or the cheque
    is signed by this node and its payout is what was paid to the chain address
    that the handshake names, where alone it may be filed. -/
theorem present_cases (cs : ChequeStore R) (g : Greeting F) {cheque : SignedCheque} (parted : Parted s.memory) :
    Unpaid s (present cs g cheque s).2 ∨
    ∃ p, cs.SignedBy cheque cs.recipient ∧ cheque.cumulativePayout = some p ∧
      (present cs g cheque s).2.memory = restored g.recipient p s.memory ∧
      ((present cs g cheque s).2.sendCheques = s.sendCheques ∨
        (present cs g cheque s).2.sendCheques = s.sendCheques.insert g.recipient cheque.toCheque) := by
  have same : Unpaid s s := ⟨parted,rfl,fun _ => rfl⟩
  unfold present
  cases recovered : cs.recoverChequeFunc cheque cs.chainID with
  | error e => exact .inl same
  | ok isUser =>
    dsimp only
    split
    · exact .inl same
    next own =>
    have signed := cs.recovers _ _ recovered
    rw [not_not.mp own] at signed
    cases g.get with
    | some e => exact .inl same
    | none =>
      dsimp only
      unfold restore
      split
      · next p last paid _ =>
        split
        · obtain ⟨sent,how,run⟩ := fileCheque_cases g.recipient cheque.toCheque p g.put s
          rw [run]
          exact .inr ⟨p,signed,paid,rfl,how⟩
        · exact .inl same
      · exact .inl same

theorem handshake_cases (cs : ChequeStore R) (g : Greeting F) (parted : Parted s.memory) :
    Unpaid s (handshake cs g s).2 ∨
    ∃ cheque p s₁, g.signedCheque = some cheque ∧ Unpaid s s₁ ∧ cs.SignedBy cheque cs.recipient ∧
      cheque.cumulativePayout = some p ∧ (handshake cs g s).2.memory = restored g.recipient p s₁.memory ∧
      ((handshake cs g s).2.sendCheques = s.sendCheques ∨
        (handshake cs g s).2.sendCheques = s.sendCheques.insert g.recipient cheque.toCheque) := by
  have first : Unpaid s _ := introduce_unpaid (R := R) g parted
  unfold handshake
  split
  · next run => exact .inl (run ▸ first)
  next s₁ run =>
  rw [run] at first
  have second : Unpaid s₁ _ := updatePeerBalance_unpaid (R := R) g.peer g.balanceOf first.parted
  split
  · next run₂ =>
    rw [run₂] at second
    exact .inl ⟨second.parted,second.sent.trans first.sent,fun r => (second.paid r).trans (first.paid r)⟩
  next s₂ run₂ =>
  rw [run₂] at second
  have both : Unpaid s s₂ := ⟨second.parted,second.sent.trans first.sent,fun r => (second.paid r).trans (first.paid r)⟩
  split
  · exact .inl both
  next cheque presented =>
  rcases present_cases cs g both.parted with calm | ⟨p,signed,paid,memory,sent⟩
  · exact .inl ⟨calm.parted,calm.sent.trans both.sent,fun r => (calm.paid r).trans (both.paid r)⟩
  · rw [both.sent] at sent
    exact .inr ⟨cheque,p,s₂,presented,both,signed,paid,memory,sent⟩

theorem handshake_own (parted : Parted s.memory) (own : OwnCheques cs s) {g : Greeting F}
    (named : ∀ cheque, g.signedCheque = some cheque → cheque.recipient = g.recipient) :
    Parted (handshake cs g s).2.memory ∧ OwnCheques cs (handshake cs g s).2 := by
  rcases handshake_cases cs g parted with calm | ⟨cheque,p,s₁,presented,calm,signed,paid,memory,sent⟩
  · exact ⟨calm.parted,by rw [calm.sent]; exact own.filed,fun r => by rw [calm.paid]; exact own.covered r⟩
  have recipient := named cheque presented
  refine ⟨memory ▸ touches_parted calm.parted (touches_restored ..),fun r c held => ?_,fun r => ?_⟩
  · rcases sent with same | filed
    · exact own.filed r c (same ▸ held)
    rw [filed,lookup_insert_eq] at held
    split at held
    · next is =>
      cases held
      exact recipient.trans is.symm
    · exact own.filed r c held
  rw [memory]
  by_cases is : r = g.recipient
  · subst is
    rw [value_restored_cheque]
    exact .inr ⟨cheque,p,signed,recipient,paid,le_refl p⟩
  · rw [touches_value calm.parted (touches_restored ..) _ is,calm.paid]
    exact own.covered r

/-- If every handshake names the recipient of the cheque that it presents, then
    in a run from a service whose filed cheques are the recipients' own they stay
    so, and no more is written down as paid than this node has signed. -/
theorem restored_own (cs : ChequeStore R) {s : Service} (parted : Parted s.memory) (own : OwnCheques cs s)
    (greetings : List (Greeting F))
    (named : ∀ g ∈ greetings, ∀ cheque, g.signedCheque = some cheque → cheque.recipient = g.recipient) :
    OwnCheques cs (greetAll cs greetings s) := by
  induction greetings generalizing s with
  | nil => exact own
  | cons g greetings ih =>
    obtain ⟨parted₁,own₁⟩ := handshake_own parted own (named g (by simp))
    exact ih parted₁ own₁ (fun h member => named h (by simp [member]))

/-- The cheque over 5 that this node has signed for the chain address 10. -/
def sentCheque : SignedCheque := ⟨⟨10,1,some 5⟩,[7]⟩

theorem sampleService_own : OwnCheques sampleStore sampleService :=
  ⟨fun r cheque held => by simp [sampleService,Service.new] at held,fun r => .inl (le_of_eq rfl)⟩

theorem restored_own_named : OwnCheques sampleStore (greetAll sampleStore
    [({peer := [1], recipient := 10, signedCheque := some sentCheque} : Greeting Unit)] sampleService) :=
  restored_own sampleStore sampleService_parted sampleService_own _ (by
    intro g member cheque presented
    cases List.mem_singleton.mp member
    cases presented
    rfl)

/-- A new peer names the chain address 12 and presents the cheque that this node
    signed for the chain address 10. It is filed as sent to 12. -/
theorem foreign_cheque_restored : sampleStore.SignedBy sentCheque sampleStore.recipient ∧
    ¬ OwnCheques sampleStore (greetAll sampleStore
      [({peer := [3], recipient := 12, signedCheque := some sentCheque} : Greeting Unit)] sampleService) := by
  refine ⟨rfl,fun own => ?_⟩
  have filed := own.filed 12 sentCheque.toCheque rfl
  revert filed
  decide +kernel

end
end FavorX.PeerCheques

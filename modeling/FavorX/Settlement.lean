import FavorX.Cells
import FavorX.Cheques
import FavorX.Shed

/-!
The settlement service. For every chain address it keeps how much was paid on the chain, how much by
cheque and how much is owed, in both directions. Amounts are pointers and can share a cell, so the
model keeps the cells. Cells of different peers stay different (`Parted`).
-/
namespace FavorX.Settlement
open FiniteMaps Cells Cheques
open Shed (Address)

structure Traffic where
  trafficPeerBalance : Ref
  retrieveChainTraffic : Ref
  transferChainTraffic : Ref
  retrieveChequeTraffic : Ref
  transferChequeTraffic : Ref
  retrieveTraffic : Ref
  transferTraffic : Ref

inductive Field
  | trafficPeerBalance
  | retrieveChainTraffic
  | transferChainTraffic
  | retrieveChequeTraffic
  | transferChequeTraffic
  | retrieveTraffic
  | transferTraffic
deriving DecidableEq

def Traffic.cell (t : Traffic) : Field → Ref
  | .trafficPeerBalance => t.trafficPeerBalance
  | .retrieveChainTraffic => t.retrieveChainTraffic
  | .transferChainTraffic => t.transferChainTraffic
  | .retrieveChequeTraffic => t.retrieveChequeTraffic
  | .transferChequeTraffic => t.transferChequeTraffic
  | .retrieveTraffic => t.retrieveTraffic
  | .transferTraffic => t.transferTraffic

def Traffic.point (t : Traffic) (f : Field) (r : Ref) : Traffic :=
  match f with
  | .trafficPeerBalance => {t with trafficPeerBalance := r}
  | .retrieveChainTraffic => {t with retrieveChainTraffic := r}
  | .transferChainTraffic => {t with transferChainTraffic := r}
  | .retrieveChequeTraffic => {t with retrieveChequeTraffic := r}
  | .transferChequeTraffic => {t with transferChequeTraffic := r}
  | .retrieveTraffic => {t with retrieveTraffic := r}
  | .transferTraffic => {t with transferTraffic := r}

theorem cell_point (t : Traffic) (f g : Field) (r : Ref) : (t.point f r).cell g = if g = f then r else t.cell g := by
  cases f <;> cases g <;> rfl

inductive Side
  | retrieve
  | transfer
deriving DecidableEq

def Side.chain : Side → Field
  | .retrieve => .retrieveChainTraffic
  | .transfer => .transferChainTraffic

def Side.cheque : Side → Field
  | .retrieve => .retrieveChequeTraffic
  | .transfer => .transferChequeTraffic

def Side.traffic : Side → Field
  | .retrieve => .retrieveTraffic
  | .transfer => .transferTraffic

/-- The ways a call fails. `R` is what recovering a signer fails with and `F`
    what the chain, the signer, the network and the state store fail with. -/
inductive Err (R F : Type)
  | unknownBeneficiary
  | insufficientFunds
  | noCheque
  | chequeInvalid
  | overlayExists
  | checkReceiver
  | accountUnknown
  | accountMismatch
  | store (e : Cheques.Err R F)
  | recover (e : R)
  | disconnect (e : F)
  | sign (e : F)
  | emit (e : F)
  | storage (e : F)
  | chain (e : F)
  | panicked

/-- The cells, and the amounts of the peers in them. -/
structure Memory where
  heap : Heap Int
  trafficPeers : Map ChainAddress Traffic

/-- What the service holds: the amounts of the peers in memory, the own balance,
    and what the cheque store and the address book hold. -/
structure Service where
  memory : Memory
  balance : Int
  sendCheques : Map ChainAddress Cheque
  receivedCheques : Received
  stored : Side → Map ChainAddress Int
  chainStored : Side → Map ChainAddress Int
  peerBeneficiary : Map Address ChainAddress
  beneficiaryPeer : Map ChainAddress Address

def Service.new : Service := ⟨⟨[],∅⟩,0,∅,∅,fun _ => ∅,fun _ => ∅,∅,∅⟩

/-- What an amount of a peer is, 0 for a peer that has none yet. -/
def value (f : Field) (m : Memory) (a : ChainAddress) : Int :=
  match m.trafficPeers.lookup a with
  | none => 0
  | some t => read m.heap (t.cell f)

def newTraffic (next : Ref) : Traffic :=
  ⟨next,next + 1,next + 2,next + 3,next + 4,next + 5,next + 6⟩

def getTraffic (a : ChainAddress) (m : Memory) : Traffic × Memory :=
  match m.trafficPeers.lookup a with
  | some t => (t,m)
  | none =>
    (newTraffic m.heap.length,
      ⟨m.heap ++ List.replicate 7 0,m.trafficPeers.insert a (newTraffic m.heap.length)⟩)

/-- Allocate cells and let the peer have these amounts. -/
def assign (a : ChainAddress) (t : Traffic) (new : List Int) (m : Memory) : Memory :=
  ⟨m.heap ++ new,m.trafficPeers.insert a t⟩

def renew (a : ChainAddress) (f : Field) (v : Int) (m : Memory) : Memory :=
  let (t,m) := getTraffic a m
  assign a (t.point f m.heap.length) [v] m

/-- The greater of two cells, the first if they hold the same. -/
def maxBigint (h : Heap Int) (a b : Ref) : Ref := if read h a < read h b then b else a

/-! ### Traffic -/

section
variable {R F : Type}

/-- The part of a put that holds the lock of the peer. -/
def addTraffic (side : Side) (a : ChainAddress) (amount : Int) (m : Memory) : Memory :=
  let (t,m) := getTraffic a m
  renew a side.traffic (read m.heap (t.cell side.traffic) + amount) m

/-- The part of a put after the lock was released. -/
def storeTraffic (side : Side) (a : ChainAddress) (fails : Option F) (s : Service) :
    Except (Err R F) Unit × Service :=
  match fails with
  | some e => (.error (.storage e),s)
  | none => (.ok (),
    {s with stored := Function.update s.stored side ((s.stored side).insert a (value side.traffic s.memory a))})

def putTraffic (side : Side) (peer : Address) (amount : Int) (fails : Option F) (s : Service) :
    Except (Err R F) Unit × Service :=
  match s.peerBeneficiary.lookup peer with
  | none => (.error .noCheque,s)
  | some a => storeTraffic side a fails {s with memory := addTraffic side a amount s.memory}

def putRetrieveTraffic (peer : Address) (amount : Int) (fails : Option F) (s : Service) :
    Except (Err R F) Unit × Service := putTraffic .retrieve peer amount fails s

def putTransferTraffic (peer : Address) (amount : Int) (fails : Option F) (s : Service) :
    Except (Err R F) Unit × Service := putTraffic .transfer peer amount fails s

def retrieveTraffic (a : ChainAddress) (m : Memory) : Int × Memory :=
  let (t,m) := getTraffic a m
  (read m.heap t.retrieveTraffic - read m.heap t.retrieveChequeTraffic,m)

def RetrieveTraffic (peer : Address) (s : Service) : Except (Err R F) Int × Service :=
  match s.peerBeneficiary.lookup peer with
  | none => (.error .noCheque,s)
  | some a => (.ok (retrieveTraffic a s.memory).1,{s with memory := (retrieveTraffic a s.memory).2})

def transferTraffic (a : ChainAddress) (m : Memory) : Int × Memory :=
  let (t,m) := getTraffic a m
  (read m.heap t.transferTraffic - read m.heap t.transferChequeTraffic,m)

def TransferTraffic (peer : Address) (s : Service) : Except (Err R F) Int × Service :=
  match s.peerBeneficiary.lookup peer with
  | none => (.error .noCheque,s)
  | some a => (.ok (transferTraffic a s.memory).1,{s with memory := (transferTraffic a s.memory).2})

def availableBalance (s : Service) : Int :=
  s.balance + ((∑ a ∈ s.memory.trafficPeers.keys, value .retrieveChainTraffic s.memory a) -
    ∑ a ∈ s.memory.trafficPeers.keys, value .retrieveTraffic s.memory a)

/-! ### Paying -/

/-- What happens outside of the service during a payment. -/
structure Outside (F : Type) where
  disconnect : Option F := none
  sign : Except F (List UInt8) := .ok []
  emit : Option F := none
  put : Option F := none

/-- Let a cell be what was paid to a recipient by cheque. -/
def keepPayout (recipient : ChainAddress) (payout : Ref) (m : Memory) : Memory :=
  let (t,m) := getTraffic recipient m
  assign recipient {t with
    retrieveChequeTraffic := payout
    retrieveTraffic := maxBigint m.heap t.retrieveTraffic payout} [] m

def putSendCheque (cheque : Cheque) (payout : Ref) (recipient : ChainAddress) (fails : Option F) (s : Service) :
    Except (Err R F) Unit × Service :=
  let s := {s with memory := keepPayout recipient payout s.memory}
  match fails with
  | some e => (.error (.storage e),s)
  | none => (.ok (),{s with sendCheques := s.sendCheques.insert recipient cheque})

/-- The cell of what was paid to a recipient by cheque. -/
def payoutCell (recipient : ChainAddress) (m : Memory) : Ref := (getTraffic recipient m).1.retrieveChequeTraffic

def increase (recipient : ChainAddress) (amount : Int) (m : Memory) : Memory :=
  let (t,m) := getTraffic recipient m
  {m with heap := m.heap.set t.retrieveChequeTraffic (read m.heap t.retrieveChequeTraffic + amount)}

/-- The cheque for a recipient over what a cell holds. -/
def chequeOver (own recipient : ChainAddress) (payout : Ref) (m : Memory) : Cheque :=
  ⟨recipient,own,some (read m.heap payout)⟩

/-- What a payment returns, the cheque it handed to the network and the service
    after it. -/
structure Paid (R F : Type) where
  result : Except (Err R F) Unit
  emitted : Option SignedCheque
  service : Service

/-- Sign and send the cheque over a payout and keep it. -/
def send (own recipient : ChainAddress) (out : Outside F) (payout : Ref) (s : Service) : Paid R F :=
  let c := chequeOver own recipient payout s.memory
  match out.sign with
  | .error e => ⟨.error (.sign e),none,s⟩
  | .ok signature =>
    match out.emit with
    | some e => ⟨.error (.emit e),some ⟨c,signature⟩,s⟩
    | none =>
      let (result,s) := putSendCheque c payout recipient out.put s
      ⟨result,some ⟨c,signature⟩,s⟩

def issue (own recipient : ChainAddress) (balance : Int) (out : Outside F) (s : Service) : Paid R F :=
  if availableBalance s < balance then ⟨.error .insufficientFunds,none,s⟩
  else send own recipient out (payoutCell recipient s.memory) {s with memory := increase recipient balance s.memory}

/-- Pay a peer what it is owed if that reaches the threshold. The second result
    is the amount that `issue` has the accounting notified of, whatever came of
    it. -/
def pay (own : ChainAddress) (peer : Address) (paymentThreshold : Int) (out : Outside F) (s : Service) :
    Paid R F × Option Int :=
  match s.peerBeneficiary.lookup peer with
  | none =>
    match out.disconnect with
    | some e => (⟨.error (.disconnect e),none,s⟩,none)
    | none => (⟨.error .unknownBeneficiary,none,s⟩,none)
  | some recipient =>
    let balance := (retrieveTraffic recipient s.memory).1
    let s := {s with memory := (retrieveTraffic recipient s.memory).2}
    if balance ≥ paymentThreshold then (issue own recipient balance out s,some balance)
    else (⟨.ok (),none,s⟩,none)

/-! ### Cheques from peers -/

/-- The address book in memory; its copy in the state store is written last. -/
def putBeneficiary (peer : Address) (a : ChainAddress) (fails : Option F) (s : Service) :
    Except (Err R F) Unit × Service :=
  let s := {s with
    peerBeneficiary := s.peerBeneficiary.insert peer a
    beneficiaryPeer := s.beneficiaryPeer.insert a peer}
  match fails with
  | some e => (.error (.storage e),s)
  | none => (.ok (),s)

def updatePeerBalance (peer : Address) (balanceOf : Except F Int) (s : Service) : Except (Err R F) Unit × Service :=
  match s.peerBeneficiary.lookup peer with
  | none => (.error .noCheque,s)
  | some a =>
    match balanceOf with
    | .error e => (.error (.chain e),s)
    | .ok balance => (.ok (),{s with memory := renew a .trafficPeerBalance balance s.memory})

/-- A handshake: who it is from, the chain address it names and the cheque it
    presents, none if the signature is nil; and what the chain and the state
    store do. -/
structure Greeting (F : Type) where
  peer : Address
  recipient : ChainAddress
  signedCheque : Option SignedCheque
  book : Option F := none
  balanceOf : Except F Int := .ok 0
  get : Option F := none
  put : Option F := none

/-- Find out whether the peer may present the cheque, and write a new peer in
    the address book. -/
def introduce (g : Greeting F) (s : Service) : Except (Err R F) Unit × Service :=
  match s.peerBeneficiary.lookup g.peer with
  | none =>
    if (s.beneficiaryPeer.lookup g.recipient).isSome then (.error .overlayExists,s)
    else putBeneficiary g.peer g.recipient g.book s
  | some recipientLocal =>
    match g.signedCheque with
    | none => (.ok (),s)
    | some cheque => if cheque.recipient ≠ recipientLocal then (.error .checkReceiver,s) else (.ok (),s)

/-- The cumulative payout of the last cheque sent to a chain address; a nil
    pointer stays one. -/
def lastSent (s : Service) (a : ChainAddress) : Option Int :=
  match s.sendCheques.lookup a with
  | none => some 0
  | some cheque => cheque.cumulativePayout

/-- Keep a presented cheque. Its payout is in a cell of its own. -/
def fileCheque (recipient : ChainAddress) (cheque : Cheque) (payout : Int) (fails : Option F) (s : Service) :
    Except (Err R F) Unit × Service :=
  let (t,m) := getTraffic recipient s.memory
  putSendCheque cheque m.heap.length recipient fails {s with memory := assign recipient t [payout] m}

/-- Keep a presented cheque if it pays more than the last one. -/
def restore (g : Greeting F) (cheque : SignedCheque) (s : Service) : Except (Err R F) Unit × Service :=
  match cheque.cumulativePayout, lastSent s g.recipient with
  | some payout, some last =>
    if payout > last then fileCheque g.recipient cheque.toCheque payout g.put s
    else (.ok (),s)
  | _, _ => (.error .panicked,s)

/-- Check the signature of a presented cheque and keep it. -/
def present (cs : ChequeStore R) (g : Greeting F) (cheque : SignedCheque) (s : Service) :
    Except (Err R F) Unit × Service :=
  match cs.recoverChequeFunc cheque cs.chainID with
  | .error e => (.error (.recover e),s)
  | .ok isUser =>
    if isUser ≠ cs.recipient then (.error .chequeInvalid,s)
    else match g.get with
      | some e => (.error (.storage e),s)
      | none => restore g cheque s

def handshake (cs : ChequeStore R) (g : Greeting F) (s : Service) : Except (Err R F) Unit × Service :=
  match introduce g s with
  | (.error e,s) => (.error e,s)
  | (.ok (),s) =>
    match updatePeerBalance g.peer g.balanceOf s with
    | (.error e,s) => (.error e,s)
    | (.ok (),s) =>
      match g.signedCheque with
      | none => (.ok (),s)
      | some cheque => present cs g cheque s

def receiveCheque (cs : ChequeStore R) (peer : Address) (call : Call F) (s : Service) :
    Except (Err R F) Unit × Service :=
  match s.peerBeneficiary.lookup peer with
  | none => (.error .accountUnknown,s)
  | some a =>
    if call.cheque.beneficiary ≠ a ∧ call.cheque.recipient ≠ cs.recipient then (.error .accountMismatch,s)
    else
      let s := {s with memory := (getTraffic a s.memory).2}
      match Cheques.receiveCheque cs call s.receivedCheques with
      | (.error e,received) => (.error (.store e),{s with receivedCheques := received})
      | (.ok _,received) => (.ok (),
        {s with
          memory := renew a .transferChequeTraffic (call.cheque.cumulativePayout.getD 0) s.memory
          receivedCheques := received})

/-! ### Refreshing from the chain -/

/-- How the chain and the state store answer when one amount is refreshed. -/
structure Amount (F : Type) where
  transAmount : Except F Int
  get : Option F := none
  put : Option F := none

/-- The amount that the chain reports, or the last one it reported. -/
def chainAmount (side : Side) (a : ChainAddress) (answer : Amount F) (s : Service) :
    Except (Err R F) Int × Service :=
  match answer.transAmount with
  | .error _ =>
    match answer.get with
    | some e => (.error (.storage e),s)
    | none => (.ok (((s.chainStored side).lookup a).getD 0),s)
  | .ok total =>
    match answer.put with
    | some e => (.error (.storage e),s)
    | none => (.ok total,
      {s with chainStored := Function.update s.chainStored side ((s.chainStored side).insert a total)})

def trafficPeerChainUpdate (a : ChainAddress) (answer : Side → Amount F) (s : Service) :
    Except (Err R F) Unit × Service :=
  let s := {s with memory := (getTraffic a s.memory).2}
  match chainAmount .transfer a (answer .transfer) s with
  | (.error e,s) => (.error e,s)
  | (.ok transferTotal,s) =>
    match chainAmount .retrieve a (answer .retrieve) s with
    | (.error e,s) => (.error e,s)
    | (.ok retrievedTotal,s) =>
      (.ok (),{s with
        memory := renew a .transferChainTraffic transferTotal (renew a .retrieveChainTraffic retrievedTotal s.memory)})

def resetTraffic (t : Traffic) : Traffic :=
  {t with
    retrieveChequeTraffic := t.retrieveChainTraffic
    retrieveTraffic := t.retrieveChainTraffic
    transferChequeTraffic := t.transferChainTraffic
    transferTraffic := t.transferChainTraffic}

/-- Let both what was paid by cheque and what is owed be at least the payout of
    the last cheque, if there is one. -/
def atLeastCheque (side : Side) (a : ChainAddress) (payout : Option (Option Int)) (m : Memory) :
    Except (Err R F) Unit × Memory :=
  match payout with
  | none => (.ok (),m)
  | some none => (.error .panicked,m)
  | some (some v) =>
    let (t,m) := getTraffic a m
    let h := m.heap ++ [v]
    let cq := m.heap.length
    (.ok (),assign a ((t.point side.traffic (maxBigint h (t.cell side.traffic) cq)).point side.cheque
      (maxBigint h (t.cell side.cheque) cq)) [v] m)

/-- Let what is owed be at least the stored amount. -/
def atLeastStored (side : Side) (a : ChainAddress) (stored : Int) (m : Memory) : Memory :=
  let (t,m) := getTraffic a m
  let h := m.heap ++ [stored]
  assign a (t.point side.traffic (maxBigint h (t.cell side.traffic) m.heap.length)) [stored] m

/-- The last cheques as the refresh found them. -/
structure Refresh where
  lastCheques : Map ChainAddress Cheque
  lastTransCheques : Received

/-- The payout of the last cheque of a peer; a nil pointer stays one. -/
def Refresh.payout (refresh : Refresh) (a : ChainAddress) : Side → Option (Option Int)
  | .retrieve => (refresh.lastCheques.lookup a).map (·.cumulativePayout)
  | .transfer => (refresh.lastTransCheques.lookup a).map (·.cumulativePayout)

/-- The stored amount of a peer, 0 if there is none. -/
def storedOf (side : Side) (s : Service) (a : ChainAddress) : Int := ((s.stored side).lookup a).getD 0

/-- The end of the update of a peer: the stored amounts. -/
def storedUpdate (a : ChainAddress) (fails : Side → Option F) (s : Service) : Except (Err R F) Unit × Service :=
  match fails .retrieve with
  | some e => (.error (.storage e),s)
  | none =>
    let s := {s with memory := atLeastStored .retrieve a (storedOf .retrieve s a) s.memory}
    match fails .transfer with
    | some e => (.error (.storage e),s)
    | none => (.ok (),{s with memory := atLeastStored .transfer a (storedOf .transfer s a) s.memory})

def trafficPeerChequeUpdate (refresh : Refresh) (a : ChainAddress) (fails : Side → Option F) (s : Service) :
    Except (Err R F) Unit × Service :=
  let (t,m) := getTraffic a s.memory
  match atLeastCheque .retrieve a (refresh.payout a .retrieve) (assign a (resetTraffic t) [] m) with
  | (.error e,m) => (.error e,{s with memory := m})
  | (.ok (),m) =>
    match atLeastCheque .transfer a (refresh.payout a .transfer) m with
    | (.error e,m) => (.error e,{s with memory := m})
    | (.ok (),m) => storedUpdate a fails {s with memory := m}

/-- The addresses that a refresh goes through: those with stored amounts and those
    that the chain lists. -/
def getAllAddress (s : Service) (retrieved transferred : List ChainAddress) : Finset ChainAddress :=
  (s.stored .retrieve).keys ∪ (s.stored .transfer).keys ∪ retrieved.toFinset ∪ transferred.toFinset

/-- What happens during a refresh: it fails before anything has changed; the order
    in which the addresses are gone through, and for each of them how the chain and
    the state store answer; the own balance. -/
structure Init (F : Type) where
  early : Option F := none
  order : List ChainAddress
  answers : ChainAddress → Side → Amount F
  fails : ChainAddress → Side → Option F := fun _ _ => none
  balanceOf : Except F Int

def refreshPeer (refresh : Refresh) (init : Init F) (s : Service) (a : ChainAddress) : Service :=
  let s := (trafficPeerChainUpdate a (init.answers a) s : Except (Err R F) Unit × Service).2
  (trafficPeerChequeUpdate refresh a (init.fails a) s : Except (Err R F) Unit × Service).2

def trafficInit (init : Init F) (s : Service) : Except (Err R F) Unit × Service :=
  match init.early with
  | some e => (.error (.storage e),s)
  | none =>
    let s := init.order.foldl (refreshPeer (R := R) ⟨s.sendCheques,s.receivedCheques⟩ init) s
    match init.balanceOf with
    | .error e => (.error (.chain e),s)
    | .ok balance => (.ok (),{s with balance := balance})

end

/-! ### What a call may change -/

/-- Every amount is a cell that was allocated, and different peers share none. -/
structure Parted (m : Memory) : Prop where
  allocated : ∀ {a t}, m.trafficPeers.lookup a = some t → ∀ f, t.cell f < m.heap.length
  apart : ∀ {a b t u}, a ≠ b → m.trafficPeers.lookup a = some t → m.trafficPeers.lookup b = some u →
    ∀ f g, t.cell f ≠ u.cell g

/-- From `m` to `n` only one peer changes: the others keep their cells, only
    cells of the one change what they hold, and the cells it gets are new. -/
structure Touches (a : ChainAddress) (m n : Memory) : Prop where
  grows : m.heap.length ≤ n.heap.length
  others : ∀ b, b ≠ a → n.trafficPeers.lookup b = m.trafficPeers.lookup b
  cells : ∀ r, r < m.heap.length → (∀ t, m.trafficPeers.lookup a = some t → ∀ f, t.cell f ≠ r) →
    read n.heap r = read m.heap r
  own : ∀ u, n.trafficPeers.lookup a = some u → ∀ f,
    (m.heap.length ≤ u.cell f ∧ u.cell f < n.heap.length) ∨
      ∃ t g, m.trafficPeers.lookup a = some t ∧ u.cell f = t.cell g

theorem touches_refl (a : ChainAddress) (m : Memory) : Touches a m m :=
  ⟨le_refl _,fun _ _ => rfl,fun _ _ _ => rfl,fun u held f => .inr ⟨u,f,held,rfl⟩⟩

variable {m : Memory} {a : ChainAddress}

theorem touches_trans {n k : Memory} (first : Touches a m n) (second : Touches a n k) : Touches a m k := by
  refine ⟨le_trans first.grows second.grows,fun b other => ?_,fun r old foreign => ?_,fun u held f => ?_⟩
  · rw [second.others b other,first.others b other]
  · rw [second.cells r (lt_of_lt_of_le old first.grows) ?_,first.cells r old foreign]
    intro t held f same
    rcases first.own t held f with new | ⟨t₀,g,held₀,is⟩
    · rw [same] at new
      omega
    · exact foreign t₀ held₀ g (is ▸ same)
  have bound := second.grows
  rcases second.own u held f with new | ⟨t,g,heldN,is⟩
  · have := first.grows
    exact .inl ⟨le_trans this new.1,new.2⟩
  · rcases first.own t heldN g with new | ⟨t₀,g₀,held₀,is₀⟩
    · exact .inl (is ▸ ⟨new.1,lt_of_lt_of_le new.2 bound⟩)
    · exact .inr ⟨t₀,g₀,held₀,is.trans is₀⟩

/-- Every amount is a cell that was allocated; peers may share cells. -/
def Allocated (m : Memory) : Prop := ∀ a t, m.trafficPeers.lookup a = some t → ∀ f, t.cell f < m.heap.length

theorem Parted.placed (parted : Parted m) : Allocated m := fun _ _ held => parted.allocated held

theorem touches_allocated {n : Memory} (allocated : Allocated m) (touches : Touches a m n) : Allocated n := by
  intro b t held f
  by_cases same : b = a
  · subst same
    rcases touches.own t held f with new | ⟨t₀,g,held₀,is⟩
    · exact new.2
    · exact is ▸ lt_of_lt_of_le (allocated _ t₀ held₀ g) touches.grows
  · exact lt_of_lt_of_le (allocated b t (touches.others b same ▸ held) f) touches.grows

theorem touches_parted {n : Memory} (parted : Parted m) (touches : Touches a m n) : Parted n := by
  -- A cell of the touched peer is no cell of another one: it is new, or it was its own before.
  have foreign : ∀ {b t u}, b ≠ a → n.trafficPeers.lookup a = some t → n.trafficPeers.lookup b = some u →
      ∀ f g, t.cell f ≠ u.cell g := by
    intro b t u other held heldB f g same
    rw [touches.others b other] at heldB
    have old := parted.allocated heldB g
    rcases touches.own t held f with new | ⟨t₀,g₀,held₀,is⟩
    · rw [same] at new
      exact absurd old (not_lt.mpr new.1)
    · exact parted.apart (Ne.symm other) held₀ heldB g₀ g (is ▸ same)
  refine ⟨touches_allocated parted.placed touches _ _,fun {b c t u} differ held heldC f g => ?_⟩
  by_cases first : b = a
  · subst first
    exact foreign (Ne.symm differ) held heldC f g
  by_cases second : c = a
  · subst second
    exact fun same => foreign first heldC held g f same.symm
  · rw [touches.others b first] at held
    rw [touches.others c second] at heldC
    exact parted.apart differ held heldC f g

theorem touches_value {n : Memory} (parted : Parted m) (touches : Touches a m n) (f : Field) {b : ChainAddress}
    (other : b ≠ a) : value f n b = value f m b := by
  unfold value
  rw [touches.others b other]
  cases held : m.trafficPeers.lookup b with
  | none => rfl
  | some t =>
    exact touches.cells _ (parted.allocated held f) (fun u heldA g => parted.apart (Ne.symm other) heldA held g f)

theorem value_held {t : Traffic} (held : m.trafficPeers.lookup a = some t) (f : Field) :
    value f m a = read m.heap (t.cell f) := by
  simp only [value,held]

@[simp] theorem getTraffic_held (a : ChainAddress) (m : Memory) :
    (getTraffic a m).2.trafficPeers.lookup a = some (getTraffic a m).1 := by
  unfold getTraffic
  split
  · next held => exact held
  · exact Finmap.lookup_insert _

theorem newTraffic_cell (next : Ref) (f : Field) : next ≤ (newTraffic next).cell f ∧ (newTraffic next).cell f < next + 7 := by
  cases f <;> simp [newTraffic,Traffic.cell]

theorem touches_getTraffic (a : ChainAddress) (m : Memory) : Touches a m (getTraffic a m).2 := by
  unfold getTraffic
  split
  · exact touches_refl a m
  refine ⟨by simp,fun b other => Finmap.lookup_insert_of_ne _ other,fun r old _ => read_old old _,
    fun u held f => .inl ?_⟩
  rw [Finmap.lookup_insert] at held
  cases held
  have := newTraffic_cell m.heap.length f
  simp only [List.length_append,List.length_replicate]
  omega

theorem getTraffic_read {a : ChainAddress} {m : Memory} {r : Ref} : Cells.read (getTraffic a m).2.heap r = Cells.read m.heap r := by
  unfold getTraffic
  split
  · rfl
  · exact read_defaults

@[simp] theorem value_getTraffic (f : Field) (a : ChainAddress) (m : Memory) (b : ChainAddress) :
    value f (getTraffic a m).2 b = value f m b := by
  unfold getTraffic
  split
  · rfl
  next absent =>
  unfold value
  rw [lookup_insert_eq]
  by_cases same : b = a
  · subst same
    rw [if_pos rfl,absent]
    exact read_defaults.trans (List.getD_eq_default _ _ (newTraffic_cell m.heap.length f).1)
  rw [if_neg same]
  cases m.trafficPeers.lookup b with
  | none => rfl
  | some t => exact read_defaults

theorem read_getTraffic (f : Field) {a : ChainAddress} (m : Memory) :
    read (getTraffic a m).2.heap ((getTraffic a m).1.cell f) = value f m a := by
  rw [← value_getTraffic f a m a,value_held (getTraffic_held a m)]

theorem touches_assign {t u : Traffic} (held : m.trafficPeers.lookup a = some t) {new : List Int}
    (cells : ∀ f, (m.heap.length ≤ u.cell f ∧ u.cell f < m.heap.length + new.length) ∨ ∃ g, u.cell f = t.cell g) :
    Touches a m (assign a u new m) := by
  refine ⟨by simp [assign],fun b other => Finmap.lookup_insert_of_ne _ other,fun r old _ => read_old old _,
    fun v heldV f => ?_⟩
  simp only [assign,Finmap.lookup_insert,Option.some.injEq] at heldV
  subst heldV
  rcases cells f with fresh | ⟨g,is⟩
  · exact .inl (by simpa [assign] using fresh)
  · exact .inr ⟨t,g,held,is⟩

@[simp] theorem value_assign (f : Field) (a : ChainAddress) (u : Traffic) (new : List Int) (m : Memory) :
    value f (assign a u new m) a = read (m.heap ++ new) (u.cell f) := by
  simp [value,assign]

theorem renew_eq (a : ChainAddress) (f : Field) (v : Int) (m : Memory) :
    renew a f v m = assign a ((getTraffic a m).1.point f (getTraffic a m).2.heap.length) [v] (getTraffic a m).2 := rfl

theorem touches_renew (a : ChainAddress) (f : Field) (v : Int) (m : Memory) : Touches a m (renew a f v m) := by
  rw [renew_eq]
  refine touches_trans (touches_getTraffic a m) (touches_assign (getTraffic_held a m) (fun g => ?_))
  rw [cell_point]
  split
  · exact .inl (by simp)
  · exact .inr ⟨g,rfl⟩

theorem value_renew (parted : Parted m) (a : ChainAddress) (f g : Field) (v : Int) :
    value g (renew a f v m) a = if g = f then v else value g m a := by
  rw [renew_eq,value_assign,cell_point]
  split
  · exact read_new
  · rw [read_old ((touches_parted parted (touches_getTraffic a m)).allocated (getTraffic_held a m) g),read_getTraffic]

theorem addTraffic_eq (side : Side) (a : ChainAddress) (amount : Int) (m : Memory) :
    addTraffic side a amount m = renew a side.traffic (value side.traffic m a + amount) (getTraffic a m).2 := by
  rw [← read_getTraffic side.traffic m]
  rfl

theorem touches_addTraffic (side : Side) (a : ChainAddress) (amount : Int) (m : Memory) :
    Touches a m (addTraffic side a amount m) := by
  exact touches_trans (touches_getTraffic a m) (touches_renew ..)

theorem value_addTraffic (parted : Parted m) (side : Side) (a : ChainAddress) (amount : Int) (f : Field) :
    value f (addTraffic side a amount m) a =
      if f = side.traffic then value side.traffic m a + amount else value f m a := by
  rw [addTraffic_eq,value_renew (touches_parted parted (touches_getTraffic a m)),value_getTraffic]

theorem read_maxBigint {h : Heap Int} (a b : Ref) : read h (maxBigint h a b) = max (read h a) (read h b) := by
  unfold maxBigint
  split
  · next less => exact (max_eq_right (le_of_lt less)).symm
  · next more => exact (max_eq_left (not_lt.mp more)).symm

theorem maxBigint_cases {h : Heap Int} (a b : Ref) : maxBigint h a b = a ∨ maxBigint h a b = b := by
  unfold maxBigint
  split
  · exact .inr rfl
  · exact .inl rfl

@[simp] theorem getTraffic_assign (a : ChainAddress) (t : Traffic) (new : List Int) (m : Memory) :
    getTraffic a (assign a t new m) = (t,assign a t new m) := by
  simp [getTraffic,assign]

theorem keepPayout_new (a : ChainAddress) (t : Traffic) (p : Int) (m : Memory) :
    keepPayout a m.heap.length (assign a t [p] m) =
      assign a {t with
        retrieveChequeTraffic := m.heap.length
        retrieveTraffic := maxBigint (m.heap ++ [p]) t.retrieveTraffic m.heap.length} [p] m := by
  unfold keepPayout
  rw [getTraffic_assign]
  simp [assign,Finmap.insert_insert]

/-- What a presented cheque that pays more than the last one makes of the memory. -/
def restored (a : ChainAddress) (p : Int) (m : Memory) : Memory :=
  keepPayout a (getTraffic a m).2.heap.length (assign a (getTraffic a m).1 [p] (getTraffic a m).2)

theorem fileCheque_cases {R F : Type} (a : ChainAddress) (cheque : Cheque) (p : Int) (fails : Option F) (s : Service) :
    ∃ sent, (sent = s.sendCheques ∨ sent = s.sendCheques.insert a cheque) ∧
      (fileCheque a cheque p fails s : Except (Err R F) Unit × Service).2 =
        {s with memory := restored a p s.memory, sendCheques := sent} := by
  cases fails with
  | some e => exact ⟨_,.inl rfl,rfl⟩
  | none => exact ⟨_,.inr rfl,rfl⟩

/-- A payout in a new cell or in one that the peer has. -/
theorem touches_payout {t : Traffic} (held : m.trafficPeers.lookup a = some t) {p : Ref} {new : List Int}
    (cell : (m.heap.length ≤ p ∧ p < m.heap.length + new.length) ∨ ∃ g, p = t.cell g) (h : Heap Int) :
    Touches a m (assign a {t with
      retrieveChequeTraffic := p
      retrieveTraffic := maxBigint h t.retrieveTraffic p} new m) := by
  refine touches_assign held (fun f => ?_)
  cases f with
  | retrieveChequeTraffic => exact cell
  | retrieveTraffic =>
    rcases maxBigint_cases t.retrieveTraffic p with kept | moved
    · exact .inr ⟨.retrieveTraffic,kept⟩
    · rwa [moved]
  | trafficPeerBalance => exact .inr ⟨.trafficPeerBalance,rfl⟩
  | retrieveChainTraffic => exact .inr ⟨.retrieveChainTraffic,rfl⟩
  | transferChainTraffic => exact .inr ⟨.transferChainTraffic,rfl⟩
  | transferChequeTraffic => exact .inr ⟨.transferChequeTraffic,rfl⟩
  | transferTraffic => exact .inr ⟨.transferTraffic,rfl⟩

theorem touches_restored (a : ChainAddress) (p : Int) (m : Memory) : Touches a m (restored a p m) := by
  unfold restored
  rw [keepPayout_new]
  exact touches_trans (touches_getTraffic a m) (touches_payout (getTraffic_held a m) (.inl (by simp)) _)

theorem value_restored_cheque (a : ChainAddress) (p : Int) (m : Memory) :
    value .retrieveChequeTraffic (restored a p m) a = p := by
  unfold restored
  rw [keepPayout_new,value_assign]
  exact read_new

/-! ### What a payment does to the memory -/

theorem allocated_getTraffic (allocated : Allocated m) (a : ChainAddress) : Allocated (getTraffic a m).2 :=
  touches_allocated allocated (touches_getTraffic a m)

theorem value_append (allocated : Allocated m) (f : Field) (new : List Int) (a : ChainAddress) :
    value f {m with heap := m.heap ++ new} a = value f m a := by
  unfold value
  cases held : m.trafficPeers.lookup a with
  | none => rfl
  | some t => exact read_old (allocated a t held f) new

/-- What is owed to a peer and not paid by cheque. -/
def unpaid (m : Memory) (a : ChainAddress) : Int := value .retrieveTraffic m a - value .retrieveChequeTraffic m a

theorem retrieveTraffic_eq (a : ChainAddress) (m : Memory) :
    retrieveTraffic a m = (unpaid m a,(getTraffic a m).2) := by
  unfold unpaid
  rw [← read_getTraffic .retrieveTraffic m,← read_getTraffic .retrieveChequeTraffic m]
  rfl

def owed (m : Memory) (a : ChainAddress) : Int := value .transferTraffic m a - value .transferChequeTraffic m a

theorem transferTraffic_eq (a : ChainAddress) (m : Memory) :
    transferTraffic a m = (owed m a,(getTraffic a m).2) := by
  unfold owed
  rw [← read_getTraffic .transferTraffic m,← read_getTraffic .transferChequeTraffic m]
  rfl

theorem availableBalance_getTraffic (a : ChainAddress) {s : Service} :
    availableBalance {s with memory := (getTraffic a s.memory).2} = availableBalance s := by
  have sums : ∀ f, (∑ b ∈ (getTraffic a s.memory).2.trafficPeers.keys, value f (getTraffic a s.memory).2 b) =
      ∑ b ∈ s.memory.trafficPeers.keys, value f s.memory b := by
    intro f
    simp only [value_getTraffic]
    cases held : s.memory.trafficPeers.lookup a with
    | some t => simp only [getTraffic,held]
    | none =>
      simp only [getTraffic,held]
      refine (Finset.sum_subset (fun b member => ?_) (fun b _ absent => ?_)).symm
      · rw [Finmap.mem_keys] at member
        exact Finmap.mem_insert.mpr (.inr member)
      · simp only [value,Finmap.lookup_eq_none.mpr absent]
  unfold availableBalance
  rw [sums,sums]

theorem increase_eq (a : ChainAddress) (amount : Int) (m : Memory) :
    increase a amount m =
      ⟨(getTraffic a m).2.heap.set (payoutCell a m) (value .retrieveChequeTraffic m a + amount),
        (getTraffic a m).2.trafficPeers⟩ := by
  rw [← read_getTraffic .retrieveChequeTraffic m]
  rfl

theorem getTraffic_increase (a : ChainAddress) (amount : Int) (m : Memory) :
    getTraffic a (increase a amount m) = ((getTraffic a m).1,increase a amount m) := by
  have held := getTraffic_held a m
  rw [increase_eq]
  unfold getTraffic at held ⊢
  simp only [held]

theorem increase_held {a : ChainAddress} (amount : Int) {m : Memory} :
    (increase a amount m).trafficPeers.lookup a = some (getTraffic a m).1 := by
  exact getTraffic_held a m

theorem touches_increase (a : ChainAddress) (amount : Int) (m : Memory) : Touches a m (increase a amount m) := by
  rw [increase_eq]
  refine touches_trans (touches_getTraffic a m)
    ⟨by simp,fun _ _ => rfl,fun r old foreign => ?_,fun u held f => .inr ⟨u,f,held,rfl⟩⟩
  exact read_set_other _ (Ne.symm (foreign _ (getTraffic_held a m) .retrieveChequeTraffic)) _

section
variable (allocated : Allocated m)
include allocated

variable (a : ChainAddress)

theorem read_increase (amount : Int) (r : Ref) : Cells.read (increase a amount m).heap r =
    if r = payoutCell a m then value .retrieveChequeTraffic m a + amount else Cells.read m.heap r := by
  have bound : payoutCell a m < (getTraffic a m).2.heap.length :=
    allocated_getTraffic allocated a a _ (getTraffic_held a m) .retrieveChequeTraffic
  rw [increase_eq,read_set bound,getTraffic_read]

/-- The payout grows in its cell, and with it every amount that shares the cell. -/
theorem value_increase (amount : Int) (f : Field) :
    value f (increase a amount m) a =
      if (getTraffic a m).1.cell f = payoutCell a m then value .retrieveChequeTraffic m a + amount
      else value f m a := by
  rw [value_held (increase_held amount),read_increase allocated,← getTraffic_read,read_getTraffic]

theorem value_increase_cheque (amount : Int) :
    value .retrieveChequeTraffic (increase a amount m) a = value .retrieveChequeTraffic m a + amount := by
  rw [value_increase allocated]
  exact if_pos rfl

theorem increase_zero {r : Ref} : Cells.read (increase a 0 m).heap r = Cells.read m.heap r := by
  rw [read_increase allocated,add_zero]
  split
  · next is =>
    rw [is,← getTraffic_read]
    exact (read_getTraffic .retrieveChequeTraffic m).symm
  · rfl

theorem value_increase_zero (f : Field) : value f (increase a 0 m) a = value f m a := by
  rw [value_held (increase_held ..),increase_zero allocated,← read_getTraffic f,getTraffic_read]

theorem unpaid_increase :
    value .retrieveTraffic (increase a (unpaid m a) m) a = value .retrieveTraffic m a ∧
      value .retrieveChequeTraffic (increase a (unpaid m a) m) a = value .retrieveTraffic m a := by
  have total : value .retrieveChequeTraffic m a + unpaid m a = value .retrieveTraffic m a := by
    unfold unpaid
    omega
  rw [value_increase_cheque allocated,total,value_increase allocated]
  split
  · exact ⟨total,rfl⟩
  · exact ⟨rfl,rfl⟩

end

theorem keepPayout_increase (a : ChainAddress) (amount : Int) (m : Memory) :
    keepPayout a (payoutCell a m) (increase a amount m) =
      assign a {(getTraffic a m).1 with
        retrieveTraffic := maxBigint (increase a amount m).heap (getTraffic a m).1.retrieveTraffic (payoutCell a m)} []
        (increase a amount m) := by
  unfold keepPayout
  rw [getTraffic_increase]
  rfl

theorem touches_keepPayout_own {t : Traffic} (held : m.trafficPeers.lookup a = some t) (g : Field) :
    Touches a m (keepPayout a (t.cell g) m) := by
  unfold keepPayout getTraffic
  simp only [held]
  exact touches_payout held (.inr ⟨g,rfl⟩) _

theorem touches_keepPayout (a : ChainAddress) {amount : Int} {m : Memory} :
    Touches a m (keepPayout a (payoutCell a m) (increase a amount m)) :=
  touches_trans (touches_increase a amount m) (touches_keepPayout_own (increase_held amount) .retrieveChequeTraffic)

theorem value_keepPayout (f : Field) (a : ChainAddress) (amount : Int) (m : Memory) :
    value f (keepPayout a (payoutCell a m) (increase a amount m)) a =
      if f = .retrieveTraffic then
        max (value .retrieveTraffic (increase a amount m) a) (value .retrieveChequeTraffic (increase a amount m) a)
      else value f (increase a amount m) a := by
  simp only [value_held (increase_held amount)]
  rw [keepPayout_increase,value_assign,List.append_nil]
  cases f with
  | retrieveTraffic => exact read_maxBigint _ _
  | _ => rfl

theorem getTraffic_twice (a : ChainAddress) (m : Memory) : getTraffic a (getTraffic a m).2 = getTraffic a m := by
  have held := getTraffic_held a m
  unfold getTraffic at held ⊢
  simp only [held]

section
variable {R F : Type}

theorem issue_eq (own a : ChainAddress) (balance : Int) (out : Outside F) (s : Service) :
    (issue own a balance out {s with memory := (getTraffic a s.memory).2} : Paid R F) =
      if availableBalance s < balance then
        ⟨.error .insufficientFunds,none,{s with memory := (getTraffic a s.memory).2}⟩
      else send own a out (payoutCell a s.memory) {s with memory := increase a balance s.memory} := by
  unfold issue
  rw [availableBalance_getTraffic]
  simp only [increase,payoutCell,getTraffic_twice]

theorem pay_known {peer : Address} {s : Service} (known : s.peerBeneficiary.lookup peer = some a) (own : ChainAddress)
    {paymentThreshold : Int} (out : Outside F) :
    (pay own peer paymentThreshold out s : Paid R F × Option Int) =
      if unpaid s.memory a ≥ paymentThreshold then
        (issue own a (unpaid s.memory a) out {s with memory := (getTraffic a s.memory).2},some (unpaid s.memory a))
      else (⟨.ok (),none,{s with memory := (getTraffic a s.memory).2}⟩,none) := by
  unfold pay
  simp only [known,retrieveTraffic_eq]

/-- Sending a cheque fails at the signature or in the network and changes
    nothing, or the payout is kept. -/
theorem send_cases (own a : ChainAddress) (out : Outside F) (payout : Ref) (s : Service) :
    (∃ e, (send own a out payout s : Paid R F) = ⟨.error (.sign e),none,s⟩) ∨
    (∃ e signature, (send own a out payout s : Paid R F) =
      ⟨.error (.emit e),some ⟨chequeOver own a payout s.memory,signature⟩,s⟩) ∨
    ∃ result signature sent, (result = .ok () ∨ ∃ e, result = .error (.storage e)) ∧
      (send own a out payout s : Paid R F) = ⟨result,some ⟨chequeOver own a payout s.memory,signature⟩,
        {s with memory := keepPayout a payout s.memory, sendCheques := sent}⟩ := by
  unfold send
  cases out.sign with
  | error e => exact .inl ⟨e,rfl⟩
  | ok signature =>
    cases out.emit with
    | some e => exact .inr (.inl ⟨e,signature,rfl⟩)
    | none =>
      refine .inr (.inr ?_)
      cases out.put with
      | some e => exact ⟨.error (.storage e),signature,s.sendCheques,.inr ⟨e,rfl⟩,rfl⟩
      | none => exact ⟨.ok (),signature,_,.inl rfl,rfl⟩

/-- What paying a known peer does: it is not due, the funds are missing, the cheque
    could not be signed or sent after the payout had grown, or it was sent and kept. -/
theorem pay_cases {peer : Address} {s : Service} (known : s.peerBeneficiary.lookup peer = some a) (own : ChainAddress)
    (paymentThreshold : Int) (out : Outside F) : let balance := unpaid s.memory a
    let cheque := chequeOver own a (payoutCell a s.memory) (increase a balance s.memory)
    let run := (pay own peer paymentThreshold out s : Paid R F × Option Int)
    (balance < paymentThreshold ∧ run = (⟨.ok (),none,{s with memory := (getTraffic a s.memory).2}⟩,none)) ∨
    (paymentThreshold ≤ balance ∧ availableBalance s < balance ∧
      run = (⟨.error .insufficientFunds,none,{s with memory := (getTraffic a s.memory).2}⟩,some balance)) ∨
    (paymentThreshold ≤ balance ∧ balance ≤ availableBalance s ∧ ∃ e emitted,
      ((∃ x, e = .sign x) ∧ emitted = none ∨ (∃ x, e = .emit x) ∧ ∃ signature, emitted = some ⟨cheque,signature⟩) ∧
      run = (⟨.error e,emitted,{s with memory := increase a balance s.memory}⟩,some balance)) ∨
    (paymentThreshold ≤ balance ∧ balance ≤ availableBalance s ∧ ∃ result signature sent,
      (result = .ok () ∨ ∃ e, result = .error (.storage e)) ∧
      run = (⟨result,some ⟨cheque,signature⟩,{s with
        memory := keepPayout a (payoutCell a s.memory) (increase a balance s.memory)
        sendCheques := sent}⟩,some balance)) := by
  intro balance cheque run
  have runIs : run = _ := pay_known known own out
  by_cases due : balance ≥ paymentThreshold
  · rw [if_pos due,issue_eq] at runIs
    by_cases poor : availableBalance s < balance
    · rw [if_pos poor] at runIs
      exact .inr (.inl ⟨due,poor,runIs⟩)
    rw [if_neg poor] at runIs
    rcases send_cases own a out (payoutCell a s.memory) {s with memory := increase a balance s.memory} with
      ⟨x,sent⟩ | ⟨x,signature,sent⟩ | ⟨result,signature,kept,ended,sent⟩
    · rw [sent] at runIs
      exact .inr (.inr (.inl ⟨due,not_lt.mp poor,_,_,.inl ⟨⟨x,rfl⟩,rfl⟩,runIs⟩))
    · rw [sent] at runIs
      exact .inr (.inr (.inl ⟨due,not_lt.mp poor,_,_,.inr ⟨⟨x,rfl⟩,signature,rfl⟩,runIs⟩))
    · rw [sent] at runIs
      exact .inr (.inr (.inr ⟨due,not_lt.mp poor,result,signature,kept,ended,runIs⟩))
  · rw [if_neg due] at runIs
    exact .inl ⟨not_le.mp due,runIs⟩

end
/-- The cheque store of the node with chain address 1, where every cheque is
    signed by the one it draws on. -/
def sampleStore : ChequeStore Empty where
  recipient := 1
  chainID := 0
  recoverChequeFunc cheque _ := .ok cheque.beneficiary
  SignedBy cheque issuer := issuer = cheque.beneficiary
  recovers _ _ recovered := (Except.ok.inj recovered).symm

/-- A new service that knows two peers with the chain addresses 10 and 11. -/
def sampleService : Service :=
  {Service.new with
    peerBeneficiary := ((∅ : Map Address ChainAddress).insert [1] 10).insert [2] 11
    beneficiaryPeer := ((∅ : Map ChainAddress Address).insert 10 ([1] : Address)).insert 11 ([2] : Address)}

theorem sampleService_parted : Parted sampleService.memory :=
  ⟨fun held => by simp [sampleService,Service.new] at held,fun _ held => by simp [sampleService,Service.new] at held⟩

theorem sampleService_single (p q : Address) (a : ChainAddress) (first : sampleService.peerBeneficiary.lookup p = some a)
    (second : sampleService.peerBeneficiary.lookup q = some a) : p = q := by
  simp only [sampleService,lookup_insert_eq,Finmap.lookup_empty] at first second
  grind

end FavorX.Settlement

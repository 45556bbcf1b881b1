import FavorX.Refreshes

/-!
Whether the node can cover the cheques it signs. The payout of a payee is increased
in its cell, which after a refresh can be the one of what was paid on the chain. As
long as a payment never meets such a shared cell, the cheques are covered by the
balance (`solvent`).
-/
namespace FavorX.Solvency
open FiniteMaps Cells Settlement Refreshes
open Cheques (ChainAddress Cheque SignedCheque)
open Shed (Address)

variable {paid : ChainAddress → Int} {balance : Int} {m : Memory}

section
variable {R F : Type}

/-- What the chain and the state store answer in a refresh that goes well: `paid` is
    what the chain reports as paid to a peer, and `balance` the own balance. -/
structure Answers (paid : ChainAddress → Int) (balance : Int) (init : Init F) : Prop where
  early : init.early = none
  amounts : ∀ a side, ∃ total, init.answers a side = {transAmount := .ok total}
  retrieved : ∀ a, init.answers a .retrieve = {transAmount := .ok (paid a)}
  stored : ∀ a, init.fails a = fun _ => none
  balanceOf : init.balanceOf = .ok balance

/-- What was paid to a peer by cheque or on the chain when the refresh was made. -/
def base (paid : ChainAddress → Int) (s : Service) (a : ChainAddress) : Int :=
  floor (paid a) ((cheques s).payout a .retrieve)

variable {init : Init F}

section
variable (answers : Answers paid balance init)
include answers

theorem chainUpdate_ok {s : Service} (parted : Parted s.memory) (a : ChainAddress) :
    ∃ m reports, (trafficPeerChainUpdate a (init.answers a) s : Except (Err R F) Unit × Service).2 =
        {s with memory := m, chainStored := reports} ∧
      Touches a s.memory m ∧ value .retrieveChainTraffic m a = paid a := by
  obtain ⟨transferred,isT⟩ := answers.amounts a .transfer
  obtain ⟨touches,values⟩ := value_chained parted a (fun side => if side = .retrieve then paid a else transferred)
  refine ⟨_,Function.update (Function.update s.chainStored .transfer ((s.chainStored .transfer).insert a transferred))
    .retrieve ((s.chainStored .retrieve).insert a (paid a)),?_,touches,(values .retrieve).1⟩
  unfold trafficPeerChainUpdate chainAmount
  simp only [isT,answers.retrieved a]
  rfl

theorem refreshPeer_ok {s : Service} (parted : Parted s.memory) (refresh : Refresh) (a : ChainAddress)
    (there : ∀ side, refresh.payout a side ≠ some none) :
    ∃ m reports, refreshPeer (R := R) refresh init s a = {s with memory := m, chainStored := reports} ∧
      Touches a s.memory m ∧ value .retrieveChainTraffic m a = paid a ∧
      value .retrieveChequeTraffic m a = floor (paid a) (refresh.payout a .retrieve) ∧
      value .retrieveChequeTraffic m a ≤ value .retrieveTraffic m a := by
  obtain ⟨m₁,reports,asked,touches₁,chain⟩ := chainUpdate_ok (R := R) answers parted a
  obtain ⟨m,updated,touches₂,values⟩ := chequeUpdate_ok (R := R) (F := F)
    (s := {s with memory := m₁, chainStored := reports}) (touches_parted parted touches₁) refresh a there
  obtain ⟨kept,cheque,traffic⟩ := values .retrieve
  simp only [Side.chain,Side.cheque,Side.traffic,chain] at kept cheque traffic
  refine ⟨m,reports,?_,touches_trans touches₁ touches₂,kept,cheque,?_⟩
  · unfold refreshPeer
    simp only [asked,answers.stored a,updated]
  · rw [cheque,traffic]
    exact le_max_left _ _

theorem refreshAll_ok (refresh : Refresh) (there : ∀ side a, refresh.payout a side ≠ some none)
    (order : List ChainAddress) {s : Service} (parted : Parted s.memory) :
    ∃ m reports, order.foldl (refreshPeer (R := R) refresh init) s = {s with memory := m, chainStored := reports} ∧
      Parted m ∧ (∀ a, a ∉ order → ∀ f, value f m a = value f s.memory a) ∧
      ∀ a ∈ order, value .retrieveChainTraffic m a = paid a ∧
        value .retrieveChequeTraffic m a = floor (paid a) (refresh.payout a .retrieve) ∧
        value .retrieveChequeTraffic m a ≤ value .retrieveTraffic m a := by
  induction order generalizing s with
  | nil => exact ⟨s.memory,s.chainStored,rfl,parted,fun _ _ _ => rfl,fun _ member => absurd member List.not_mem_nil⟩
  | cons b order ih =>
    obtain ⟨m₁,reports₁,run₁,touches,values⟩ := refreshPeer_ok answers parted refresh b (fun side => there side b)
    obtain ⟨m,reports,run,partedM,others,inside⟩ := ih (s := {s with memory := m₁, chainStored := reports₁})
      (touches_parted parted touches)
    refine ⟨m,reports,?_,partedM,fun a foreign f => ?_,fun a member => ?_⟩
    · rw [List.foldl_cons,run₁,run]
    · obtain ⟨other,later⟩ : a ≠ b ∧ a ∉ order := by simpa using foreign
      rw [others a later f]
      exact touches_value parted touches f other
    by_cases later : a ∈ order
    · exact inside a later
    · obtain rfl : a = b := (List.mem_cons.mp member).resolve_right later
      simp only [others a later]
      exact values

/-- The amounts agree with the chain: what was paid on the chain is what it reports,
    and no more was paid by cheque than is owed. -/
structure Refreshed (paid : ChainAddress → Int) (base : ChainAddress → Int) (m : Memory) : Prop where
  parted : Parted m
  chain : ∀ a, value .retrieveChainTraffic m a = paid a
  cheque : ∀ a, value .retrieveChequeTraffic m a = base a
  owing : ∀ a, value .retrieveChequeTraffic m a ≤ value .retrieveTraffic m a

/-- What a refresh goes through: a peer that it does not list has no amounts in
    memory, no cheque was sent to it and nothing was paid to it on the chain. -/
def Lists (paid : ChainAddress → Int) (order : List ChainAddress) (s : Service) : Prop :=
  ∀ a, a ∉ order → s.memory.trafficPeers.lookup a = none ∧ s.sendCheques.lookup a = none ∧ paid a = 0

theorem trafficInit_refreshed {s : Service} (parted : Parted s.memory)
    (there : ∀ side a, (cheques s).payout a side ≠ some none) (lists : Lists paid init.order s) :
    ∃ m reports, (trafficInit init s : Except (Err R F) Unit × Service) =
        (.ok (),{s with memory := m, chainStored := reports, balance := balance}) ∧ Refreshed paid (base paid s) m := by
  obtain ⟨m,reports,run,partedM,others,inside⟩ := refreshAll_ok answers (cheques s) there init.order parted
  have outside : ∀ a, a ∉ init.order → ∀ f, value f m a = 0 := fun a foreign f => by
    rw [others a foreign f]
    simp only [value,(lists a foreign).1]
  refine ⟨m,reports,?_,partedM,fun a => ?_,fun a => ?_,fun a => ?_⟩
  · unfold trafficInit
    simp only [answers.early,answers.balanceOf]
    exact congrArg (fun s : Service => (Except.ok (),{s with balance := balance})) run
  · by_cases listed : a ∈ init.order
    · exact (inside a listed).1
    · rw [outside a listed,(lists a listed).2.2]
  · by_cases listed : a ∈ init.order
    · exact (inside a listed).2.1
    · rw [outside a listed]
      simp [base,cheques,Refresh.payout,(lists a listed).2.1,(lists a listed).2.2,floor]
  · by_cases listed : a ∈ init.order
    · exact (inside a listed).2.2
    · rw [outside a listed,outside a listed]


end

/-- The service, and the payout of the last cheque that was sent to each peer since
    the refresh. -/
structure State where
  service : Service
  emitted : Map ChainAddress Int

inductive Step (F : Type)
  | put (peer : Address) (amount : Nat) (fails : Option F)
  | pay (peer : Address) (paymentThreshold : Int) (out : Outside F)

def sends (own : ChainAddress) (st : State) : Step F → Option SignedCheque
  | .put _ _ _ => none
  | .pay peer threshold out => (pay own peer threshold out st.service : Paid Empty F × Option Int).1.emitted

def note (emitted : Map ChainAddress Int) : Option SignedCheque → Map ChainAddress Int
  | none => emitted
  | some cheque => emitted.insert cheque.recipient (cheque.cumulativePayout.getD 0)

def step (own : ChainAddress) (st : State) (e : Step F) : State :=
  match e with
  | .put peer amount fails =>
    {st with service := (putRetrieveTraffic peer amount fails st.service : Except (Err Empty F) Unit × Service).2}
  | .pay peer threshold out =>
    ⟨(pay own peer threshold out st.service : Paid Empty F × Option Int).1.service,note st.emitted (sends own st e)⟩

/-- What the last cheques promise beyond what was paid on the chain, over all known
    peers. -/
def exposure (paid base : ChainAddress → Int) (st : State) : Int :=
  ∑ a ∈ st.service.memory.trafficPeers.keys, ((st.emitted.lookup a).getD (base a) - paid a)

/-- A payment that is due does not find what was paid by cheque and what was paid on
    the chain to be one cell. -/
def Unshared (st : State) : Step F → Prop
  | .put _ _ _ => True
  | .pay peer threshold _ => ∀ a t, st.service.peerBeneficiary.lookup peer = some a →
    st.service.memory.trafficPeers.lookup a = some t → threshold ≤ unpaid st.service.memory a →
    0 < unpaid st.service.memory a → t.retrieveChequeTraffic ≠ t.retrieveChainTraffic

/-- Every step of a run finds the cells of the payee unshared. -/
def UnsharedRun (own : ChainAddress) : State → List (Step F) → Prop
  | _, [] => True
  | st, e :: steps => Unshared st e ∧ UnsharedRun own (step own st e) steps

/-- What was promised to a peer is what was paid to it by cheque, at most, and that
    is owed; what was paid on the chain is what the chain reports. -/
structure Backed (paid base : ChainAddress → Int) (balance : Int) (st : State) : Prop where
  parted : Parted st.service.memory
  balance : st.service.balance = balance
  chain : ∀ a, value .retrieveChainTraffic st.service.memory a = paid a
  cheque : ∀ a, (st.emitted.lookup a).getD (base a) ≤ value .retrieveChequeTraffic st.service.memory a
  owing : ∀ a, value .retrieveChequeTraffic st.service.memory a ≤ value .retrieveTraffic st.service.memory a

variable {st : State}

/-- The promises are within the balance as far as the available balance is not
    negative. -/
theorem exposure_le {base : ChainAddress → Int} (backed : Backed paid base balance st) :
    exposure paid base st ≤ balance - availableBalance st.service := by
  unfold exposure availableBalance
  rw [backed.balance,Finset.sum_sub_distrib]
  have promised : ∑ a ∈ st.service.memory.trafficPeers.keys, (st.emitted.lookup a).getD (base a) ≤
      ∑ a ∈ st.service.memory.trafficPeers.keys, value .retrieveTraffic st.service.memory a :=
    Finset.sum_le_sum (fun a _ => le_trans (backed.cheque a) (backed.owing a))
  simp only [backed.chain]
  omega

theorem sum_known {more : Finset ChainAddress} (known : m.trafficPeers.keys ⊆ more) (f : Field) :
    ∑ a ∈ more, value f m a = ∑ a ∈ m.trafficPeers.keys, value f m a := by
  refine (Finset.sum_subset known (fun a _ absent => ?_)).symm
  simp only [value,Finmap.lookup_eq_none.mpr absent]

theorem availableBalance_same {s : Service} {sent : Map ChainAddress Cheque}
    (known : s.memory.trafficPeers.keys ⊆ m.trafficPeers.keys)
    (chain : ∀ a, value .retrieveChainTraffic m a = value .retrieveChainTraffic s.memory a)
    (traffic : ∀ a, value .retrieveTraffic m a = value .retrieveTraffic s.memory a) :
    availableBalance {s with memory := m, sendCheques := sent} = availableBalance s := by
  unfold availableBalance
  simp only [chain,traffic,sum_known known]

variable {a : ChainAddress}

/-- Increasing the payout by what is owed leaves what was paid on the chain, unless
    the two are one cell. -/
theorem value_increase_chain (parted : Parted m) (owing : 0 ≤ unpaid m a)
    (unshared : ∀ t, m.trafficPeers.lookup a = some t → 0 < unpaid m a → t.retrieveChequeTraffic ≠ t.retrieveChainTraffic) :
    value .retrieveChainTraffic (increase a (unpaid m a) m) a = value .retrieveChainTraffic m a := by
  rcases eq_or_lt_of_le owing with zero | positive
  · rw [← zero]
    exact value_increase_zero parted.placed a _
  rw [value_increase parted.placed]
  refine if_neg (fun shared => ?_)
  cases held : m.trafficPeers.lookup a with
  | some t =>
    have looked : (getTraffic a m).1 = t := by simp only [getTraffic,held]
    rw [payoutCell,looked] at shared
    exact unshared t held positive shared.symm
  | none => simp [unpaid,value,held] at positive

/-- What a step that pays a peer everything it is owed may do. -/
structure Pays (a : ChainAddress) (m m' : Memory) : Prop where
  touches : Touches a m m'
  known : m.trafficPeers.keys ⊆ m'.trafficPeers.keys
  chain : value .retrieveChainTraffic m' a = value .retrieveChainTraffic m a
  traffic : value .retrieveTraffic m' a = value .retrieveTraffic m a
  cheque : value .retrieveChequeTraffic m' a = value .retrieveChequeTraffic m a ∨
    value .retrieveChequeTraffic m' a = value .retrieveTraffic m a

theorem keys_getTraffic (a : ChainAddress) (m : Memory) :
    m.trafficPeers.keys ⊆ (getTraffic a m).2.trafficPeers.keys := by
  intro b member
  rw [Finmap.mem_keys] at member
  unfold getTraffic
  split
  · exact member
  · exact Finmap.mem_insert.mpr (.inr member)

theorem pays_getTraffic (a : ChainAddress) (m : Memory) : Pays a m (getTraffic a m).2 :=
  ⟨touches_getTraffic a m,keys_getTraffic a m,value_getTraffic ..,value_getTraffic ..,.inl (value_getTraffic ..)⟩

theorem keys_increase (a : ChainAddress) (amount : Int) (m : Memory) :
    m.trafficPeers.keys ⊆ (increase a amount m).trafficPeers.keys := by
  exact keys_getTraffic a m

theorem pays_keepPayout (parted : Parted m)
    (chain : value .retrieveChainTraffic (increase a (unpaid m a) m) a = value .retrieveChainTraffic m a) :
    Pays a m (keepPayout a (payoutCell a m) (increase a (unpaid m a) m)) := by
  obtain ⟨total,paid⟩ := unpaid_increase parted.placed a
  refine ⟨touches_keepPayout ..,fun b member => ?_,?_,?_,.inr ?_⟩
  · have inside := keys_increase a (unpaid m a) m member
    rw [Finmap.mem_keys] at inside
    rw [keepPayout_increase]
    exact Finmap.mem_insert.mpr (.inr inside)
  · rw [value_keepPayout,if_neg nofun,chain]
  · rw [value_keepPayout,if_pos rfl,total,paid,max_self]
  · rw [value_keepPayout,if_neg nofun,paid]

theorem chequeOver_payout (parted : Parted m) (own a : ChainAddress) :
    chequeOver own a (payoutCell a m) (increase a (unpaid m a) m) = ⟨a,own,some (value .retrieveTraffic m a)⟩ := by
  rw [← (unpaid_increase parted.placed a).2,value_held (increase_held ..)]
  rfl

/-- A payment keeps the promises backed: it sends no cheque, or one over everything
    that is owed and was then paid. -/
theorem pays_backed {base : ChainAddress → Int} (backed : Backed paid base balance st)
    (pays : Pays a st.service.memory m) (cheque : Option SignedCheque)
    (owed : ∀ c, cheque = some c → c.recipient = a ∧ c.cumulativePayout = some (value .retrieveTraffic st.service.memory a) ∧ value .retrieveChequeTraffic m a = value .retrieveTraffic st.service.memory a)
    (sent : Map ChainAddress Cheque) :
    Backed paid base balance ⟨{st.service with memory := m, sendCheques := sent},note st.emitted cheque⟩ ∧
      availableBalance {st.service with memory := m, sendCheques := sent} = availableBalance st.service := by
  have others : ∀ f b, b ≠ a → value f m b = value f st.service.memory b := fun f b other =>
    touches_value backed.parted pays.touches f other
  have chain : ∀ b, value .retrieveChainTraffic m b = value .retrieveChainTraffic st.service.memory b := fun b => by
    by_cases is : b = a
    · rw [is,pays.chain]
    · exact others _ b is
  have traffic : ∀ b, value .retrieveTraffic m b = value .retrieveTraffic st.service.memory b := fun b => by
    by_cases is : b = a
    · rw [is,pays.traffic]
    · exact others _ b is
  have owed := backed.owing a
  have grown : value .retrieveChequeTraffic st.service.memory a ≤ value .retrieveChequeTraffic m a := by
    rcases pays.cheque with same | all
    · omega
    · omega
  refine ⟨⟨touches_parted backed.parted pays.touches,backed.balance,fun b => (chain b).trans (backed.chain b),
    fun b => ?_,fun b => ?_⟩,availableBalance_same pays.known chain traffic⟩
  · by_cases is : b = a
    · subst is
      cases cheque with
      | none => exact le_trans (backed.cheque b) grown
      | some c =>
        obtain ⟨recipient,payout,all⟩ := owed c rfl
        simp only [note,recipient,payout,Finmap.lookup_insert,Option.getD_some,all]
        exact le_refl _
    rw [others _ b is]
    cases cheque with
    | none => exact backed.cheque b
    | some c =>
      simp only [note,(owed c rfl).1,lookup_insert_eq,if_neg is]
      exact backed.cheque b
  rw [traffic]
  by_cases is : b = a
  · subst is
    rcases pays.cheque with same | all
    · rw [same]
      exact owed
    · exact le_of_eq all
  · rw [others _ b is]
    exact backed.owing b

theorem put_backed {base : ChainAddress → Int} (backed : Backed paid base balance st) (own : ChainAddress)
    {peer : Address} {amount : Nat} {fails : Option F} :
    Backed paid base balance (step own st (.put peer amount fails)) := by
  simp only [step,putRetrieveTraffic,putTraffic]
  cases st.service.peerBeneficiary.lookup peer with
  | none => exact backed
  | some a =>
    have touches := touches_addTraffic .retrieve a amount st.service.memory
    have added : Backed paid base balance
        {st with service := {st.service with memory := addTraffic .retrieve a amount st.service.memory}} := by
      refine ⟨touches_parted backed.parted touches,backed.balance,fun b => ?_,fun b => ?_,fun b => ?_⟩
      all_goals
        by_cases is : b = a
        · subst is
          simp only [value_addTraffic backed.parted,Side.traffic,reduceCtorEq,if_true,if_false]
          have chain := backed.chain b
          have cheque := backed.cheque b
          have owing := backed.owing b
          omega
        simp only [touches_value backed.parted touches _ is]
        first
        | exact backed.chain b
        | exact backed.cheque b
        | exact backed.owing b
    cases fails with
    | some e => exact added
    | none => exact ⟨added.parted,added.balance,added.chain,added.cheque,added.owing⟩

theorem pay_backed {base : ChainAddress → Int} (backed : Backed paid base balance st) {own : ChainAddress}
    {peer : Address} {threshold : Int} {out : Outside F} (unshared : Unshared st (.pay peer threshold out)) :
    Backed paid base balance (step own st (.pay peer threshold out)) ∧
      (sends own st (.pay peer threshold out) ≠ none →
        exposure paid base (step own st (.pay peer threshold out)) ≤ balance) := by
  simp only [step,sends]
  cases known : st.service.peerBeneficiary.lookup peer with
  | none =>
    simp only [pay,known]
    cases out.disconnect with
    | some e | none => exact ⟨backed,fun none => absurd rfl none⟩
  | some a =>
    have owed : 0 ≤ unpaid st.service.memory a := by
      have := backed.owing a
      unfold unpaid
      omega
    obtain ⟨less,paidAll⟩ := unpaid_increase backed.parted.placed a
    rcases pay_cases known own threshold out with
      ⟨_,run⟩ | ⟨_,_,run⟩ | ⟨due,rich,e,emitted,kind,run⟩ | ⟨due,rich,result,signature,sent,_,run⟩
    · rw [run]
      exact ⟨(pays_backed backed (pays_getTraffic a _) none nofun st.service.sendCheques).1,fun none => absurd rfl none⟩
    · rw [run]
      exact ⟨(pays_backed backed (pays_getTraffic a _) none nofun st.service.sendCheques).1,fun none => absurd rfl none⟩
    · have chain := value_increase_chain backed.parted owed (fun t held => unshared a t known held due)
      rw [run]
      have pays := Pays.mk (touches_increase ..) (keys_increase ..) chain less (.inr paidAll)
      obtain ⟨after,available⟩ := pays_backed backed pays emitted (fun c is => by
        rcases kind with ⟨_,none⟩ | ⟨_,signature,some⟩
        · rw [none] at is
          cases is
        · rw [some,chequeOver_payout backed.parted] at is
          cases is
          exact ⟨rfl,rfl,paidAll⟩) st.service.sendCheques
      have bound := exposure_le after
      refine ⟨after,fun _ => le_trans bound ?_⟩
      show balance - availableBalance {st.service with memory := _, sendCheques := _} ≤ balance
      omega
    have chain := value_increase_chain backed.parted owed (fun t held => unshared a t known held due)
    rw [run,chequeOver_payout backed.parted]
    obtain ⟨after,available⟩ := pays_backed backed (pays_keepPayout backed.parted chain)
      (some ⟨⟨a,own,some (value .retrieveTraffic st.service.memory a)⟩,signature⟩) (fun c is => by
        cases is
        refine ⟨rfl,rfl,?_⟩
        rw [value_keepPayout,if_neg nofun,paidAll]) sent
    have bound := exposure_le after
    refine ⟨after,fun _ => le_trans bound ?_⟩
    show balance - availableBalance {st.service with memory := _, sendCheques := _} ≤ balance
    omega

theorem run_backed {base : ChainAddress → Int} {own : ChainAddress} {steps : List (Step F)}
    (backed : Backed paid base balance st) (unshared : UnsharedRun own st steps) :
    Backed paid base balance (steps.foldl (step own) st) := by
  induction steps generalizing st with
  | nil => exact backed
  | cons e steps ih =>
    refine ih ?_ unshared.2
    cases e with
    | put peer amount fails => exact put_backed backed own
    | pay peer threshold out => exact (pay_backed backed unshared.1).1

/-- In a run from a refresh that went well and lists every peer that anything is
    known of, as long as no payment that is due finds what was paid by cheque and what
    was paid on the chain to be one cell: whenever a payment sends a cheque, what the
    last cheques promise beyond what was paid on the chain is within the balance. -/
theorem solvent {paid : ChainAddress → Int} {balance : Int} {init : Init F} (answers : Answers paid balance init)
    {s : Service} (parted : Parted s.memory) (there : ∀ side a, (cheques s).payout a side ≠ some none)
    (lists : Lists paid init.order s) (own : ChainAddress) (steps : List (Step F)) (e : Step F)
    (unshared : UnsharedRun own ⟨(trafficInit init s : Except (Err R F) Unit × Service).2,∅⟩ (steps ++ [e]))
    (emits : sends own (steps.foldl (step own) ⟨(trafficInit init s : Except (Err R F) Unit × Service).2,∅⟩) e ≠ none) :
    exposure paid (base paid s)
      ((steps ++ [e]).foldl (step own) ⟨(trafficInit init s : Except (Err R F) Unit × Service).2,∅⟩) ≤ balance := by
  obtain ⟨m,reports,run,refreshed⟩ := trafficInit_refreshed answers parted there lists
  rw [run] at unshared emits ⊢
  have first : Backed paid (base paid s) balance
      ⟨{s with memory := m, chainStored := reports, balance := balance},∅⟩ :=
    ⟨refreshed.parted,rfl,refreshed.chain,fun a => le_of_eq (refreshed.cheque a).symm,refreshed.owing⟩
  have split : ∀ (steps : List (Step F)) (st : State), UnsharedRun own st (steps ++ [e]) →
      UnsharedRun own st steps ∧ Unshared (steps.foldl (step own) st) e := by
    intro steps
    induction steps with
    | nil => exact fun st unshared => ⟨trivial,unshared.1⟩
    | cons d steps ih => exact fun st unshared => ⟨⟨unshared.1,(ih _ unshared.2).1⟩,(ih _ unshared.2).2⟩
  obtain ⟨before,last⟩ := split steps _ unshared
  rw [List.foldl_append]
  cases e with
  | put peer amount fails => exact absurd rfl emits
  | pay peer threshold out => exact (pay_backed (run_backed first before) last).2 emits

end

def unpaidInit (order : List ChainAddress) : Init Unit :=
  {order := order, answers := fun _ _ => {transAmount := .ok 0}, balanceOf := .ok 20}

def refreshedState (order : List ChainAddress) : State :=
  ⟨(trafficInit (unpaidInit order) sampleService : Except (Err Empty Unit) Unit × Service).2,∅⟩

def putTen : Step Unit := .put [1] 10 none

def payAll : Step Unit := .pay [1] 1 {}

theorem solvent_new_peer :
    sends 1 ([putTen].foldl (step 1) (refreshedState [])) payAll ≠ none ∧
      exposure (fun _ => 0) (base (fun _ => 0) sampleService)
        (([putTen] ++ [payAll]).foldl (step 1) (refreshedState [])) ≤ 20 := by
  have emits : sends 1 ([putTen].foldl (step 1) (refreshedState [])) payAll ≠ none := by decide +kernel
  have unshared : UnsharedRun 1 (refreshedState []) ([putTen] ++ [payAll]) := by
    refine ⟨trivial,fun a t known held _ _ => ?_,trivial⟩
    cases known
    cases held
    decide
  exact ⟨emits,solvent ⟨rfl,fun _ _ => ⟨0,rfl⟩,fun _ => rfl,fun _ => rfl,rfl⟩ sampleService_parted
    (fun side a => by cases side <;> nofun) (fun a _ => ⟨rfl,rfl,rfl⟩) 1 [putTen] payAll unshared emits⟩

/-- After a refresh the three amounts of a peer are one cell. Every payment then lets
    what was paid on the chain seem to grow too, and the third cheque promises 30
    where the balance is 20. -/
theorem insolvent_shared_cell :
    sends 1 ([putTen,payAll,putTen,payAll,putTen].foldl (step 1) (refreshedState [10])) payAll ≠ none ∧
      ¬ exposure (fun _ => 0) (base (fun _ => 0) sampleService)
        (([putTen,payAll,putTen,payAll,putTen] ++ [payAll]).foldl (step 1) (refreshedState [10])) ≤ 20 := by
  refine ⟨?_,?_⟩
  · decide +kernel
  · decide +kernel

end FavorX.Solvency

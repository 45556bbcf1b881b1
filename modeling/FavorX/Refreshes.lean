import FavorX.Settlement

/-!
The refresh of the amounts from the chain next to traffic that is being added.
What was added and not yet stored is lost if a refresh of the peer comes between;
if none does, no amount ever shrinks (`no_lost_traffic`).
-/
namespace FavorX.Refreshes
open FiniteMaps Cells Settlement
open Cheques (ChainAddress)
open Shed (Address)

variable {s₀ : Service}

section
variable {R F : Type}

def resetField : Field → Field
  | .retrieveChequeTraffic => .retrieveChainTraffic
  | .retrieveTraffic => .retrieveChainTraffic
  | .transferChequeTraffic => .transferChainTraffic
  | .transferTraffic => .transferChainTraffic
  | f => f

theorem cell_resetTraffic {t : Traffic} (f : Field) : (resetTraffic t).cell f = t.cell (resetField f) := by
  cases f <;> rfl

/-- The memory where a peer starts again from the amounts on the chain. -/
def resetMemory (a : ChainAddress) (m : Memory) : Memory :=
  assign a (resetTraffic (getTraffic a m).1) [] (getTraffic a m).2

variable (side : Side) (a : ChainAddress) (answer : Amount F)

theorem touches_reset (m : Memory) : Touches a m (resetMemory a m) :=
  touches_trans (touches_getTraffic a m)
    (touches_assign (getTraffic_held a m) (fun f => .inr ⟨resetField f,cell_resetTraffic f⟩))

theorem value_reset (m : Memory) (f : Field) : value f (resetMemory a m) a = value (resetField f) m a := by
  unfold resetMemory
  rw [value_assign,List.append_nil,cell_resetTraffic,read_getTraffic]

theorem maxBigint_new {h : Heap Int} {r : Ref} {v : Int} :
    (h.length ≤ maxBigint (h ++ [v]) r h.length ∧ maxBigint (h ++ [v]) r h.length < h.length + 1) ∨
      maxBigint (h ++ [v]) r h.length = r := by
  rcases maxBigint_cases r h.length with same | new
  · exact .inr same
  · exact .inl (by rw [new]; exact ⟨le_refl _,Nat.lt_succ_self _⟩)

theorem read_maxBigint_new {h : Heap Int} {r : Ref} (old : r < h.length) (v : Int) :
    Cells.read (h ++ [v]) (maxBigint (h ++ [v]) r h.length) = max (Cells.read h r) v := by
  rw [read_maxBigint,read_old old,read_new]

theorem touches_atLeastStored (v : Int) (m : Memory) : Touches a m (atLeastStored side a v m) := by
  refine touches_trans (touches_getTraffic a m) (touches_assign (getTraffic_held a m) (fun f => ?_))
  rw [cell_point]
  split
  · rcases maxBigint_new with new | same
    · exact .inl new
    · exact .inr ⟨side.traffic,same⟩
  · exact .inr ⟨f,rfl⟩

theorem value_atLeastStored {m : Memory} (parted : Parted m) (side : Side) (a : ChainAddress) (v : Int) (f : Field) :
    value f (atLeastStored side a v m) a =
      if f = side.traffic then max (value side.traffic m a) v else value f m a := by
  have held := (touches_parted parted (touches_getTraffic a m)).allocated (getTraffic_held a m)
  unfold atLeastStored
  simp only [value_assign,cell_point]
  split
  · rw [read_maxBigint_new (held side.traffic),read_getTraffic]
  · rw [read_old (held f),read_getTraffic]

/-- The memory where a peer was paid at least a payout. -/
def raisedMemory (side : Side) (a : ChainAddress) (v : Int) (m : Memory) : Memory :=
  (atLeastCheque side a (some (some v)) m : Except (Err Empty Empty) Unit × Memory).2

theorem touches_raised (v : Int) (m : Memory) : Touches a m (raisedMemory side a v m) := by
  refine touches_trans (touches_getTraffic a m) (touches_assign (getTraffic_held a m) (fun f => ?_))
  rw [cell_point,cell_point]
  split
  · rcases maxBigint_new with new | same
    · exact .inl new
    · exact .inr ⟨side.cheque,same⟩
  split
  · rcases maxBigint_new with new | same
    · exact .inl new
    · exact .inr ⟨side.traffic,same⟩
  · exact .inr ⟨f,rfl⟩

theorem value_raised {m : Memory} (parted : Parted m) {side : Side} (a : ChainAddress) (v : Int) (f : Field) :
    value f (raisedMemory side a v m) a =
      if f = side.cheque ∨ f = side.traffic then max (value f m a) v else value f m a := by
  have held := (touches_parted parted (touches_getTraffic a m)).allocated (getTraffic_held a m)
  unfold raisedMemory atLeastCheque
  simp only [value_assign,cell_point]
  by_cases cheque : f = side.cheque
  · simp only [cheque,if_true,true_or]
    rw [read_maxBigint_new (held side.cheque),read_getTraffic]
  by_cases traffic : f = side.traffic
  · have other : ¬ side.traffic = side.cheque := by cases side <;> nofun
    simp only [traffic,other,if_true,if_false,or_true]
    rw [read_maxBigint_new (held side.traffic),read_getTraffic]
  · simp only [cheque,traffic,if_false,or_self]
    rw [read_old (held f),read_getTraffic]

/-- At least the payout of the last cheque, if there is one. -/
def floor (amount : Int) : Option (Option Int) → Int
  | some (some v) => max amount v
  | _ => amount

theorem atLeastCheque_ok {m : Memory} (parted : Parted m) (side : Side) (a : ChainAddress) {payout : Option (Option Int)}
    (there : payout ≠ some none) :
    ∃ m', (atLeastCheque side a payout m : Except (Err R F) Unit × Memory) = (.ok (),m') ∧ Touches a m m' ∧
      ∀ f, value f m' a = if f = side.cheque ∨ f = side.traffic then floor (value f m a) payout else value f m a := by
  match payout with
  | none => exact ⟨m,rfl,touches_refl a m,fun f => by simp only [floor,ite_self]⟩
  | some none => exact absurd rfl there
  | some (some v) =>
    exact ⟨raisedMemory side a v m,rfl,touches_raised side a v m,fun f => value_raised parted a v f⟩

/-- The refresh of a peer: what was paid by cheque is what was paid on the chain or
    the payout of the last cheque, and what is owed is that or what is stored. -/
theorem chequeUpdate_ok {s : Service} (parted : Parted s.memory) (refresh : Refresh) (a : ChainAddress)
    (there : ∀ side, refresh.payout a side ≠ some none) :
    ∃ m, (trafficPeerChequeUpdate refresh a (fun _ => none) s : Except (Err R F) Unit × Service) =
        (.ok (),{s with memory := m}) ∧ Touches a s.memory m ∧
      ∀ side, value side.chain m a = value side.chain s.memory a ∧
        value side.cheque m a = floor (value side.chain s.memory a) (refresh.payout a side) ∧
        value side.traffic m a =
          max (floor (value side.chain s.memory a) (refresh.payout a side)) (storedOf side s a) := by
  have touches₁ := touches_reset a s.memory
  have parted₁ := touches_parted parted touches₁
  obtain ⟨m₂,run₂,touches₂,values₂⟩ := atLeastCheque_ok (R := R) (F := F) parted₁ .retrieve a (there .retrieve)
  have parted₂ := touches_parted parted₁ touches₂
  obtain ⟨m₃,run₃,touches₃,values₃⟩ := atLeastCheque_ok (R := R) (F := F) parted₂ .transfer a (there .transfer)
  have parted₃ := touches_parted parted₂ touches₃
  have touches₄ := touches_atLeastStored .retrieve a (storedOf .retrieve s a) m₃
  have parted₄ := touches_parted parted₃ touches₄
  have touches₅ := touches_atLeastStored .transfer a (storedOf .transfer s a)
    (atLeastStored .retrieve a (storedOf .retrieve s a) m₃)
  refine ⟨_,?_,touches_trans (touches_trans (touches_trans (touches_trans touches₁ touches₂) touches₃) touches₄) touches₅,
    fun side => ?_⟩
  · unfold trafficPeerChequeUpdate
    simp only [resetMemory] at run₂
    simp only [run₂,run₃,storedUpdate]
    rfl
  · simp only [value_atLeastStored parted₄,value_atLeastStored parted₃,values₃,values₂,value_reset]
    cases side <;> simp [Side.chain,Side.cheque,Side.traffic,resetField]

/-- What the chain reports of one direction depends on that direction only, and only
    the stored reports change. -/
theorem chainAmount_same (s : Service) :
    ∃ reports, (∀ other, other ≠ side → reports other = s.chainStored other) ∧
      (chainAmount side a answer s : Except (Err R F) Int × Service).2 = {s with chainStored := reports} := by
  unfold chainAmount
  cases answer.transAmount with
  | error e =>
    cases answer.get with
    | some e | none => exact ⟨_,fun _ _ => rfl,rfl⟩
  | ok total =>
    cases answer.put with
    | some e => exact ⟨_,fun _ _ => rfl,rfl⟩
    | none => exact ⟨_,fun other differ => Function.update_of_ne differ _ _,rfl⟩

theorem chainAmount_congr {s t : Service} (same : t.chainStored side = s.chainStored side) :
    (chainAmount side a answer t : Except (Err R F) Int × Service).1 = (chainAmount side a answer s).1 := by
  unfold chainAmount
  cases answer.transAmount with
  | error e => cases answer.get <;> simp only [same]
  | ok total => cases answer.put <;> rfl

/-- The first part of the refresh of a peer leaves the amounts, or replaces those on
    the chain by what the chain reports. -/
theorem chainUpdate_cases (answer : Side → Amount F) (s : Service) :
    ∃ m reports, (trafficPeerChainUpdate a answer s : Except (Err R F) Unit × Service).2 =
        {s with memory := m, chainStored := reports} ∧
      (m = (getTraffic a s.memory).2 ∨ ∃ total : Side → Int,
        (∀ side, (chainAmount side a (answer side) s : Except (Err R F) Int × Service).1 = .ok (total side)) ∧
        m = renew a .transferChainTraffic (total .transfer)
          (renew a .retrieveChainTraffic (total .retrieve) (getTraffic a s.memory).2)) := by
  unfold trafficPeerChainUpdate
  dsimp only
  set s₁ : Service := {s with memory := (getTraffic a s.memory).2}
  obtain ⟨reports₁,others₁,run₁⟩ := chainAmount_same .transfer a (answer .transfer) s₁
  split
  · next e s₂ first =>
    rw [first] at run₁
    cases run₁
    exact ⟨_,_,rfl,.inl rfl⟩
  next transferTotal s₂ first =>
  rw [first] at run₁
  cases run₁
  obtain ⟨reports₂,others₂,run₂⟩ := chainAmount_same .retrieve a (answer .retrieve)
    {s₁ with chainStored := reports₁}
  have alike := chainAmount_congr (R := R) (s := s) (t := {s₁ with chainStored := reports₁}) .retrieve a
    (answer .retrieve) (others₁ .retrieve nofun)
  split
  · next e s₃ second =>
    rw [second] at run₂
    cases run₂
    exact ⟨_,_,rfl,.inl rfl⟩
  next retrievedTotal s₃ second =>
  rw [second] at run₂ alike
  cases run₂
  refine ⟨_,_,rfl,.inr ⟨fun side => if side = .retrieve then retrievedTotal else transferTotal,fun side => ?_,rfl⟩⟩
  cases side with
  | retrieve => exact alike.symm
  | transfer =>
    have same := chainAmount_congr (R := R) (s := s) (t := s₁) .transfer a (answer .transfer) rfl
    rw [first] at same
    exact same.symm

theorem value_chained {m : Memory} (parted : Parted m) (a : ChainAddress) (total : Side → Int) :
    let n := renew a .transferChainTraffic (total .transfer)
      (renew a .retrieveChainTraffic (total .retrieve) (getTraffic a m).2)
    Touches a m n ∧ ∀ side, value side.chain n a = total side ∧ value side.cheque n a = value side.cheque m a ∧
      value side.traffic n a = value side.traffic m a := by
  have touches₁ := touches_getTraffic a m
  have parted₁ := touches_parted parted touches₁
  have touches₂ := touches_renew a .retrieveChainTraffic (total .retrieve) (getTraffic a m).2
  have parted₂ := touches_parted parted₁ touches₂
  refine ⟨touches_trans (touches_trans touches₁ touches₂) (touches_renew ..),fun side => ?_⟩
  simp only [value_renew parted₂,value_renew parted₁,value_getTraffic]
  cases side <;> simp [Side.chain,Side.cheque,Side.traffic]

/-- A refresh under way: the cheques as it found them, the peers whose amounts on
    the chain it has still to ask for, and those it has asked for. -/
structure Refreshing where
  refresh : Refresh
  waiting : Finset ChainAddress
  asked : Finset ChainAddress

/-- The service, the traffic that was added and is not stored yet, the refresh that
    is under way, and how much was added in total. -/
structure State where
  service : Service
  adding : List (Side × ChainAddress)
  refreshing : Option Refreshing
  added : Side → ChainAddress → Int

/-- The steps of the calls: traffic is added and then stored; a refresh begins with
    the addresses that the chain lists, asks for the amounts of a peer on the chain,
    updates the amounts of the peer, and ends. -/
inductive Step (F : Type)
  | add (side : Side) (peer : Address) (amount : Nat)
  | save (i : Nat) (fails : Option F)
  | begin (retrieved transferred : List ChainAddress)
  | ask (a : ChainAddress) (answer : Side → Amount F)
  | update (a : ChainAddress) (fails : Side → Option F)
  | finish (balanceOf : Except F Int)

def begin (s : Service) (retrieved transferred : List ChainAddress) : Refreshing :=
  ⟨⟨s.sendCheques,s.receivedCheques⟩,getAllAddress s retrieved transferred,∅⟩

/-- A step of the calls; none if there is nothing to do or it has to wait. -/
def step (st : State) : Step F → Option State
  | .add side peer amount =>
    match st.service.peerBeneficiary.lookup peer with
    | none => none
    | some a => some {st with
        service := {st.service with memory := addTraffic side a amount st.service.memory}
        adding := st.adding ++ [(side,a)]
        added := fun other b => if other = side ∧ b = a then st.added other b + amount else st.added other b}
  | .save i fails =>
    match st.adding[i]? with
    | none => none
    | some (side,a) => some {st with
        service := (storeTraffic side a fails st.service : Except (Err Empty F) Unit × Service).2
        adding := st.adding.eraseIdx i}
  | .begin retrieved transferred =>
    match st.refreshing with
    | some _ => none
    | none => some {st with refreshing := some (begin st.service retrieved transferred)}
  | .ask a answer =>
    match st.refreshing with
    | none => none
    | some r =>
      if a ∈ r.waiting then some {st with
        service := (trafficPeerChainUpdate a answer st.service : Except (Err Empty F) Unit × Service).2
        refreshing := some {r with waiting := r.waiting.erase a, asked := insert a r.asked}}
      else none
  | .update a fails =>
    match st.refreshing with
    | none => none
    | some r =>
      if a ∈ r.asked then some {st with
        service := (trafficPeerChequeUpdate r.refresh a fails st.service : Except (Err Empty F) Unit × Service).2
        refreshing := some {r with asked := r.asked.erase a}}
      else none
  | .finish balanceOf =>
    match st.refreshing with
    | none => none
    | some r =>
      if r.waiting = ∅ ∧ r.asked = ∅ then
        match balanceOf with
        | .error _ => some {st with refreshing := none}
        | .ok balance => some {st with service := {st.service with balance := balance}, refreshing := none}
      else none

def run : State → List (Step F) → Option State
  | st, [] => some st
  | st, e :: steps => (step st e).bind (fun st => run st steps)

/-- The state store works, the amounts that the chain reports do not shrink, and a
    peer is updated while none of its traffic is added and not stored yet. -/
def Undisturbed (st : State) : Step F → Prop
  | .save _ fails => fails = none
  | .ask a answer => ∀ side total,
    (chainAmount side a (answer side) st.service : Except (Err Empty F) Int × Service).1 = .ok total →
      value side.chain st.service.memory a ≤ total
  | .update a fails => fails = (fun _ => none) ∧ ∀ side, (side,a) ∉ st.adding
  | _ => True

def UndisturbedRun : State → List (Step F) → Prop
  | _, [] => True
  | st, e :: steps => Undisturbed st e ∧ ∀ st', step st e = some st' → UndisturbedRun st' steps

def cheques (s : Service) : Refresh := ⟨s.sendCheques,s.receivedCheques⟩

def cover (side : Side) (s : Service) (a : ChainAddress) : Int :=
  max (floor (value side.chain s.memory a) ((cheques s).payout a side)) (storedOf side s a)

theorem floor_mono {v w : Int} (le : v ≤ w) {payout : Option (Option Int)} : floor v payout ≤ floor w payout := by
  unfold floor
  split
  · exact max_le_max le (le_refl _)
  · exact le

/-- What an interleaving keeps that began with the service `s₀`: what is not covered
    by a refresh is still being added, and nothing is lost. -/
structure Kept (s₀ : Service) (st : State) : Prop where
  parted : Parted st.service.memory
  same : cheques st.service = cheques s₀
  found : ∀ r, st.refreshing = some r → r.refresh = cheques s₀
  covered : ∀ side a, (side,a) ∉ st.adding → value side.traffic st.service.memory a ≤ cover side st.service a
  whole : ∀ side a, value side.traffic s₀.memory a + st.added side a ≤ value side.traffic st.service.memory a

def Grows (s s' : Service) : Prop :=
  ∀ (side : Side) (a : ChainAddress), value side.traffic s.memory a ≤ value side.traffic s'.memory a

variable {st st' : State}

theorem add_kept (kept : Kept s₀ st) (side : Side) (a : ChainAddress) (amount : Nat) : let st' : State := {st with
      service := {st.service with memory := addTraffic side a amount st.service.memory}
      adding := st.adding ++ [(side,a)]
      added := fun other b => if other = side ∧ b = a then st.added other b + amount else st.added other b}
    Grows st.service st'.service ∧ Kept s₀ st' := by
  intro st'
  have touches := touches_addTraffic side a amount st.service.memory
  have values : ∀ other b, value (Side.traffic other) st'.service.memory b =
      value other.traffic st.service.memory b + if other = side ∧ b = a then (amount : Int) else 0 := by
    intro other b
    by_cases is : b = a
    · subst is
      rw [value_addTraffic kept.parted]
      cases other <;> cases side <;> simp [Side.traffic]
    · simp only [is,and_false,if_false,add_zero]
      exact touches_value kept.parted touches _ is
  have chains : ∀ other b, value (Side.chain other) st'.service.memory b = value other.chain st.service.memory b := by
    intro other b
    by_cases is : b = a
    · subst is
      rw [value_addTraffic kept.parted]
      cases other <;> cases side <;> simp [Side.traffic,Side.chain]
    · exact touches_value kept.parted touches _ is
  refine ⟨fun other b => ?_,touches_parted kept.parted touches,kept.same,kept.found,fun other b idle => ?_,
    fun other b => ?_⟩
  · rw [values]
    split <;> omega
  · have free : ¬ (other = side ∧ b = a) := by
      rintro ⟨rfl,rfl⟩
      exact idle (by simp [st'])
    rw [values,if_neg free,add_zero]
    unfold cover
    rw [chains]
    exact kept.covered other b (fun member => idle (List.mem_append_left _ member))
  rw [values]
  have before := kept.whole other b
  show _ + (if other = side ∧ b = a then st.added other b + amount else st.added other b) ≤ _
  split <;> omega

theorem save_kept (kept : Kept s₀ st) {i : Nat} {side : Side} {a : ChainAddress} (at_i : st.adding[i]? = some (side,a)) :
    let st' : State := {st with
      service := (storeTraffic side a none st.service : Except (Err Empty F) Unit × Service).2
      adding := st.adding.eraseIdx i}
    Grows st.service st'.service ∧ Kept s₀ st' := by
  intro st'
  have stored : ∀ other b, storedOf other st'.service b =
      if other = side ∧ b = a then value side.traffic st.service.memory a else storedOf other st.service b := by
    intro other b
    simp only [st',storedOf,storeTraffic]
    by_cases same : other = side
    · subst same
      simp only [Function.update_self,lookup_insert_eq,true_and]
      split <;> rfl
    · simp [same]
  refine ⟨fun other b => le_refl _,kept.parted,kept.same,kept.found,fun other b idle => ?_,kept.whole⟩
  unfold cover
  rw [stored]
  by_cases is : other = side ∧ b = a
  · obtain ⟨rfl,rfl⟩ := is
    rw [if_pos ⟨rfl,rfl⟩]
    exact le_max_right _ _
  rw [if_neg is]
  refine kept.covered other b (fun member => idle ?_)
  obtain ⟨j,bound,at_j⟩ := List.getElem_of_mem member
  have differ : j ≠ i := by
    rintro rfl
    rw [List.getElem?_eq_getElem bound,at_j] at at_i
    cases at_i
    exact is ⟨rfl,rfl⟩
  exact List.mem_eraseIdx_iff_getElem?.mpr ⟨j,differ,by rw [List.getElem?_eq_getElem bound,at_j]⟩

theorem refresh_kept (kept : Kept s₀ st) (parted : Parted st'.service.memory)
    (same : cheques st'.service = cheques st.service) (found : ∀ r, st'.refreshing = some r → r.refresh = cheques s₀)
    (adding : st'.adding = st.adding) (added : st'.added = st.added) (grows : Grows st.service st'.service)
    (covered : ∀ side a, (side,a) ∉ st.adding → value side.traffic st'.service.memory a ≤ cover side st'.service a) :
    Kept s₀ st' :=
  ⟨parted,same.trans kept.same,found,fun side a idle => covered side a (adding ▸ idle),
    fun side a => le_trans (added ▸ kept.whole side a) (grows side a)⟩

theorem chainUpdate_values {s : Service} (parted : Parted s.memory) {a : ChainAddress} {answer : Side → Amount F}
    (rising : ∀ side total, (chainAmount side a (answer side) s : Except (Err Empty F) Int × Service).1 = .ok total →
      value side.chain s.memory a ≤ total) :
    ∃ m reports, (trafficPeerChainUpdate a answer s : Except (Err Empty F) Unit × Service).2 =
        {s with memory := m, chainStored := reports} ∧ Parted m ∧
      ∀ (side : Side) (b : ChainAddress), value side.traffic m b = value side.traffic s.memory b ∧
        value side.chain s.memory b ≤ value side.chain m b := by
  obtain ⟨m,reports,run,looked | ⟨total,reported,is⟩⟩ := chainUpdate_cases a answer s
  · refine ⟨m,reports,run,?_,fun side b => ?_⟩
    · rw [looked]
      exact touches_parted parted (touches_getTraffic a s.memory)
    · rw [looked,value_getTraffic,value_getTraffic]
      exact ⟨rfl,le_refl _⟩
  obtain ⟨touches,values⟩ := value_chained parted a total
  rw [← is] at touches values
  refine ⟨m,reports,run,touches_parted parted touches,fun side b => ?_⟩
  by_cases same : b = a
  · subst same
    exact ⟨(values side).2.2,(values side).1 ▸ rising side _ (reported side)⟩
  · rw [touches_value parted touches _ same,touches_value parted touches _ same]
    exact ⟨rfl,le_refl _⟩

theorem step_kept (there : ∀ side a, (cheques s₀).payout a side ≠ some none) (kept : Kept s₀ st) {e : Step F}
    (undisturbed : Undisturbed st e) (steps : step st e = some st') : Grows st.service st'.service ∧ Kept s₀ st' := by
  cases e with
  | add side peer amount =>
    simp only [step] at steps
    split at steps
    · cases steps
    · next a known =>
      cases steps
      exact add_kept kept side a amount
  | save i fails =>
    have works : fails = none := undisturbed
    subst works
    simp only [step] at steps
    split at steps
    · cases steps
    · next side a at_i =>
      cases steps
      exact save_kept kept at_i
  | begin retrieved transferred =>
    simp only [step] at steps
    split at steps
    · cases steps
    cases steps
    refine ⟨fun side a => le_refl _,kept.parted,kept.same,fun r is => ?_,kept.covered,kept.whole⟩
    cases is
    exact kept.same
  | ask a answer =>
    simp only [step] at steps
    split at steps
    · cases steps
    next r refreshing =>
    split at steps
    · cases steps
      obtain ⟨m,reports,run,parted,values⟩ := chainUpdate_values kept.parted undisturbed
      rw [run]
      have grows : Grows st.service {st.service with memory := m, chainStored := reports} := fun side b =>
        le_of_eq (values side b).1.symm
      refine ⟨grows,refresh_kept kept parted rfl (fun r' is => ?_) rfl rfl grows (fun side b idle => ?_)⟩
      · cases is
        exact kept.found r refreshing
      · rw [(values side b).1]
        refine le_trans (kept.covered side b idle) (max_le_max (floor_mono (values side b).2) (le_refl _))
    · cases steps
  | update a fails =>
    obtain ⟨works,idle⟩ := undisturbed
    subst works
    simp only [step] at steps
    split at steps
    · cases steps
    next r refreshing =>
    split at steps
    · cases steps
      have found := kept.found r refreshing
      obtain ⟨m,run,touches,values⟩ := chequeUpdate_ok kept.parted r.refresh a
        (fun side => found ▸ there side a)
      rw [run]
      -- The peer comes to what covered it before, the others stay.
      have comes : ∀ side, value (Side.traffic side) m a = cover side st.service a := fun side => by
        rw [(values side).2.2,found,← kept.same]
        rfl
      have grows : Grows st.service {st.service with memory := m} := fun side b => by
        by_cases is : b = a
        · subst is
          exact (comes side).symm ▸ kept.covered side b (idle side)
        · exact le_of_eq (touches_value kept.parted touches _ is).symm
      have covers : ∀ side b, cover side {st.service with memory := m} b = cover side st.service b := fun side b => by
        have chain : value side.chain m b = value side.chain st.service.memory b := by
          by_cases is : b = a
          · subst is
            exact (values side).1
          · exact touches_value kept.parted touches _ is
        unfold cover
        rw [chain]
        rfl
      refine ⟨grows,refresh_kept kept (touches_parted kept.parted touches) rfl (fun r' is => ?_) rfl rfl grows
        (fun side b free => ?_)⟩
      · cases is
        exact found
      rw [covers]
      by_cases is : b = a
      · subst is
        exact le_of_eq (comes side)
      · rw [touches_value kept.parted touches _ is]
        exact kept.covered side b free
    · cases steps
  | finish balanceOf =>
    simp only [step] at steps
    split at steps
    · cases steps
    next r refreshing =>
    split at steps
    · split at steps
      · cases steps
        exact ⟨fun side a => le_refl _,kept.parted,kept.same,nofun,kept.covered,kept.whole⟩
      · cases steps
        exact ⟨fun side a => le_refl _,kept.parted,kept.same,nofun,kept.covered,kept.whole⟩
    · cases steps

theorem run_kept (there : ∀ side a, (cheques s₀).payout a side ≠ some none) {steps : List (Step F)} (kept : Kept s₀ st)
    (undisturbed : UndisturbedRun st steps) (reached : run st steps = some st') : Kept s₀ st' := by
  induction steps generalizing st with
  | nil =>
    cases reached
    exact kept
  | cons e steps ih =>
    obtain ⟨st₁,first,rest⟩ := Option.bind_eq_some_iff.mp reached
    exact ih (step_kept there kept undisturbed.1 first).2 (undisturbed.2 st₁ first) rest

/-- In an interleaving whose steps are undisturbed, from a service whose amounts a
    refresh would not lower, no step lowers what is owed to or by a peer, and it is
    always at least what it was at first and all that was added. -/
theorem no_lost_traffic {s : Service} (parted : Parted s.memory)
    (there : ∀ side a, (cheques s).payout a side ≠ some none)
    (covered : ∀ (side : Side) (a : ChainAddress), value side.traffic s.memory a ≤ cover side s a)
    (steps : List (Step F)) (undisturbed : UndisturbedRun ⟨s,[],none,fun _ _ => 0⟩ steps) {st : State}
    (reached : run ⟨s,[],none,fun _ _ => 0⟩ steps = some st) :
    (∀ (side : Side) (a : ChainAddress),
      value side.traffic s.memory a + st.added side a ≤ value side.traffic st.service.memory a) ∧
    ∀ (e : Step F) (st' : State), Undisturbed st e → step st e = some st' → ∀ (side : Side) (a : ChainAddress),
      value side.traffic st.service.memory a ≤ value side.traffic st'.service.memory a := by
  have kept : Kept s st := run_kept there
    ⟨parted,rfl,fun _ none => absurd none (by simp),fun side a _ => covered side a,fun side a => le_of_eq (add_zero _)⟩ undisturbed reached
  exact ⟨kept.whole,fun e st' quiet next => (step_kept there kept quiet next).1⟩

end

def silent : Side → Amount Unit := fun _ => {transAmount := .ok 0}

def storedFirst : List (Step Unit) :=
  [.add .retrieve [1] 50,.save 0 none,.begin [10] [],.ask 10 silent,.update 10 (fun _ => none),.finish (.ok 0)]

/-- The same calls, where the refresh comes before the traffic is stored. -/
def storedLast : List (Step Unit) :=
  [.add .retrieve [1] 50,.begin [10] [],.ask 10 silent,.update 10 (fun _ => none),.finish (.ok 0),.save 0 none]

def idle : State := ⟨sampleService,[],none,fun _ _ => 0⟩

theorem no_lost_traffic_stored : ∃ st, run idle storedFirst = some st ∧ st.adding = [] ∧
    value .retrieveTraffic sampleService.memory 10 + st.added .retrieve 10 ≤
      value .retrieveTraffic st.service.memory 10 := by
  have undisturbed : UndisturbedRun idle storedFirst := by
    refine ⟨trivial,fun st₁ first => ⟨rfl,fun st₂ second => ⟨trivial,fun st₃ third => ⟨?_,fun st₄ fourth =>
      ⟨⟨rfl,?_⟩,fun st₅ fifth => ⟨trivial,fun _ _ => trivial⟩⟩⟩⟩⟩⟩
    · cases first
      cases second
      cases third
      intro side total reported
      cases reported
      cases side <;> decide +kernel
    cases first
    cases second
    cases third
    cases fourth
    intro side
    cases side <;> decide +kernel
  have lossless := no_lost_traffic (s := sampleService) sampleService_parted (fun side a => by cases side <;> nofun)
    (fun side a => by cases side <;> exact le_of_eq rfl) storedFirst undisturbed rfl
  exact ⟨_,rfl,by decide +kernel,lossless.1 .retrieve 10⟩

/-- The refresh resets the amount to the stored one, and then that is stored again:
    once all calls have ended, what was added is lost. -/
theorem traffic_lost : ∃ st, run idle storedLast = some st ∧ st.adding = [] ∧ st.refreshing.isNone ∧
    ¬ value .retrieveTraffic sampleService.memory 10 + st.added .retrieve 10 ≤
      value .retrieveTraffic st.service.memory 10 :=
  ⟨_,rfl,by decide +kernel,by decide +kernel,by decide +kernel⟩

end FavorX.Refreshes

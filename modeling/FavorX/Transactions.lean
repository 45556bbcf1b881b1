import FavorX.Cheques
import FavorX.Shed
import FavorX.Threads

/-!
Transactions of the node on the chain. The oracle and the traffic contract are called by two
services with a mutex each; a flag that says whether a transaction is under way is tested before and
set after it is sent. One is under way at a time as long as calls of the two services do not
overlap, nobody stops waiting too early and none gets through with an error (`one_at_a_time`).
-/
namespace FavorX.Transactions
open Shed (Bytes Address)
open Cheques (ChainAddress)
open Threads (System Config Event Assertion Stable)

inductive TransactionType where
  | oracle
  | traffic
  deriving DecidableEq

/-- `common.BytesToHash`: the last 32 bytes, filled up with zeros from the left. -/
def bytesToHash (b : Bytes) : Bytes := List.replicate (32 - b.length) 0 ++ b.drop (b.length - 32)

inductive Data where
  | set (rootCid address : Bytes)
  | remove (rootCid address : Bytes)
  | cashChequeBeneficiary (beneficiary recipient : ChainAddress) (cumulativePayout : Int) (signature : Bytes)
  deriving DecidableEq

structure Transaction where
  sender : ChainAddress
  nonce : Nat
  gasPrice : Int
  gasLimit : Nat
  data : Data
  deriving DecidableEq

inductive Operation where
  | registerCidAndNode (rootCid address : Address) (gasPrice minGasPrice : Option Int)
  | removeCidAndNode (rootCid address : Address) (gasPrice minGasPrice : Option Int)
  | cashChequeBeneficiary (peer : Address) (beneficiary recipient : ChainAddress) (cumulativePayout : Int)
    (signature : Bytes)
  deriving DecidableEq

namespace Operation

def type : Operation → TransactionType
  | registerCidAndNode .. => .oracle
  | removeCidAndNode .. => .oracle
  | cashChequeBeneficiary .. => .traffic

/-- The value that is recorded with the transaction. -/
def value : Operation → Address
  | registerCidAndNode rootCid .. => rootCid
  | removeCidAndNode rootCid .. => rootCid
  | cashChequeBeneficiary peer .. => peer

def data : Operation → Data
  | registerCidAndNode rootCid address _ _ => .set (bytesToHash rootCid) (bytesToHash address)
  | removeCidAndNode rootCid address _ _ => .remove (bytesToHash rootCid) (bytesToHash address)
  | cashChequeBeneficiary _ beneficiary recipient cumulativePayout signature =>
    .cashChequeBeneficiary beneficiary recipient cumulativePayout signature

def sender (senderAddress : ChainAddress) : Operation → ChainAddress
  | cashChequeBeneficiary _ beneficiary .. => beneficiary
  | _ => senderAddress

/-- The gas price of the caller, if there is a positive one. Then the chain is not asked. -/
def gasPrice : Operation → Option Int
  | registerCidAndNode _ _ gasPrice _ => gasPrice.filter (0 < ·)
  | removeCidAndNode _ _ gasPrice _ => gasPrice.filter (0 < ·)
  | cashChequeBeneficiary .. => none

/-- A suggested gas price is raised to the least one. -/
def suggested (price : Int) : Operation → Int
  | registerCidAndNode _ _ _ minGasPrice => max price (minGasPrice.getD price)
  | removeCidAndNode _ _ _ minGasPrice => max price (minGasPrice.getD price)
  | cashChequeBeneficiary .. => price

end Operation

inductive Err where
  | existingTransaction
  | backend
  | cancelled
  deriving DecidableEq

/-- How far an operation is. In between it holds the mutex of its service. -/
inductive Progress where
  | called
  | locked
  | free
  | counted (nonce : Nat)
  | prepared (tx : Transaction)
  | sent (tx : Transaction)
  | returning (result : Except Err (Option Transaction))
  | returned (result : Except Err (Option Transaction))
  deriving DecidableEq

/-- How far a wait is. The status is updated when it is over. -/
inductive Waiting where
  | polling
  | ended (result : Except Err Bool)
  | returned (result : Except Err Bool)
  deriving DecidableEq

/-- Calls of the operations and of the two functions that wait for a receipt. -/
inductive Task where
  | operation (op : Operation) (progress : Progress)
  | waitForReceipt (type : TransactionType) (txHash : Bytes) (waiting : Waiting)

structure TxInfo where
  type : TransactionType
  value : Address
  txHash : Bytes
  deriving DecidableEq

structure Sent where
  tx : Transaction
  mined : Bool
  deriving DecidableEq

/-- The common service, the two mutexes and the transactions on the chain. -/
structure Shared where
  txStatus : Bool
  tx : Option TxInfo
  locked : TransactionType → Bool
  sent : List Sent

namespace Shared
variable (s : Shared)

def syncTransaction (info : TxInfo) : Shared := { s with txStatus := true, tx := some info }

def updateStatus (status : Bool) : Shared := { s with txStatus := status, tx := if status then s.tx else none }

def setLock (type : TransactionType) (held : Bool) : Shared := { s with locked := Function.update s.locked type held }

def receive (tx : Transaction) : Shared := { s with sent := s.sent ++ [⟨tx,false⟩] }

end Shared

/-- What the chain answers. A transaction that is lost to the caller was taken, but the call failed. -/
inductive Answer where
  | none
  | failed
  | nonce (n : Nat)
  | gasPrice (price : Int)
  | taken
  | lost
  | receipt (status : Bool)
  | cancelled
  deriving DecidableEq

/-- The account of the node, whether the oracle has a chain, and the hash of transactions. -/
structure Env where
  senderAddress : ChainAddress
  chain : Bool
  hash : Transaction → Bytes

section
variable (env : Env)

/-- The transaction with the options that were asked for. -/
def transaction (op : Operation) (nonce : Nat) (gasPrice : Int) : Transaction where
  sender := op.sender env.senderAddress
  nonce := nonce
  gasPrice := gasPrice
  gasLimit := 1000000
  data := op.data

def operate (s : Shared) (op : Operation) : Progress → Answer → Option (Shared × Progress)
  | .called, .none => if s.locked op.type then none else some (s.setLock op.type true,.locked)
  | .locked, .none =>
    if op.type = .oracle ∧ !env.chain then some (s,.returning (.ok none))
    else if s.txStatus then some (s,.returning (.error .existingTransaction))
    else some (s,.free)
  | .free, .nonce n => some (s,.counted n)
  | .free, .failed => some (s,.returning (.error .backend))
  | .counted n, .none => op.gasPrice.map (fun price => (s,.prepared (transaction env op n price)))
  | .counted n, .gasPrice price =>
    if op.gasPrice.isSome then none else some (s,.prepared (transaction env op n (op.suggested price)))
  | .counted _, .failed => if op.gasPrice.isSome then none else some (s,.returning (.error .backend))
  | .prepared tx, .taken => some (s.receive tx,.sent tx)
  | .prepared tx, .lost => some (s.receive tx,.returning (.error .backend))
  | .prepared _, .failed => some (s,.returning (.error .backend))
  | .sent tx, .none => some (s.syncTransaction ⟨op.type,op.value,env.hash tx⟩,.returning (.ok (some tx)))
  | .returning result, .none => some (s.setLock op.type false,.returned result)
  | _, _ => none

def wait (s : Shared) (type : TransactionType) : Waiting → Answer → Option (Shared × Waiting)
  | .polling, .none => if type = .oracle ∧ !env.chain then some (s,.returned (.ok false)) else some (s,.polling)
  | .polling, .receipt status => some (s,.ended (.ok status))
  | .polling, .cancelled => some (s,.ended (.error .cancelled))
  | .ended result, .none => some (s.updateStatus false,.returned result)
  | _, _ => none

def step (s : Shared) : Task → Answer → Option (Shared × Task)
  | .operation op progress, answer => (operate env s op progress answer).map (Prod.map id (.operation op))
  | .waitForReceipt type txHash waiting, answer =>
    (wait env s type waiting answer).map (Prod.map id (.waitForReceipt type txHash))

def mine (s : Shared) (i : Nat) : Shared := { s with sent := s.sent.modify i (fun t => { t with mined := true }) }

def system : System Shared Task Answer Nat := ⟨step env,mine⟩

end

def start : Config Shared Task := ⟨⟨false,none,fun _ => false,[]⟩,[]⟩

def Progress.inside : Progress → Bool
  | .called => false
  | .returned _ => false
  | _ => true

/-- Between the test of the status and its update. -/
def Progress.critical : Progress → Bool
  | .free => true
  | .counted _ => true
  | .prepared _ => true
  | .sent _ => true
  | _ => false

namespace Task

def holds (type : TransactionType) : Task → Bool
  | operation op progress => op.type = type && progress.inside
  | waitForReceipt .. => false

def critical : Task → Bool
  | operation _ progress => progress.critical
  | waitForReceipt .. => false

/-- The transaction is sent and the status is not yet updated. -/
def unrecorded : Task → Bool
  | operation _ (.sent _) => true
  | _ => false

end Task

/-- A transaction was sent only when all before it were mined, and all nonces are different. -/
def OneAtATime (s : Shared) : Prop :=
  (∀ t ∈ s.sent.dropLast, t.mined) ∧ (s.sent.map (·.tx.nonce)).Nodup

/-- Calls begin at their beginning, and a pending nonce is above the nonces of what is mined. -/
def Possible (c : Config Shared Task) : Event Task Answer Nat → Prop
  | .spawn (.operation _ progress) => progress = .called
  | .spawn (.waitForReceipt _ _ waiting) => waiting = .polling
  | .step _ (.nonce n) => ∀ t ∈ c.shared.sent, t.mined → t.tx.nonce < n
  | _ => True

/-- What a task has to see to when it goes on. An operation finds the status clear only while
    no operation of the other service is between its own test and update; no transaction is
    taken by a call that fails; the status is cleared only when everything sent is mined or
    the status is yet to be updated. -/
def Careful (c : Config Shared Task) (answer : Answer) : Task → Prop
  | .operation op .locked =>
    c.shared.txStatus = false → ∀ other ∈ c.tasks, other.critical → other.holds op.type
  | .operation _ (.prepared _) => answer ≠ .lost
  | .waitForReceipt _ _ (.ended _) => (∀ t ∈ c.shared.sent, t.mined) ∨ ∃ other ∈ c.tasks, other.unrecorded
  | _ => True

def Fits (c : Config Shared Task) : Event Task Answer Nat → Prop
  | .step i answer => (c.tasks[i]?).elim True (Careful c answer)
  | _ => True

instance (c : Config Shared Task) : (e : Event Task Answer Nat) → Decidable (Possible c e)
  | .spawn (.operation _ progress) => inferInstanceAs (Decidable (progress = .called))
  | .spawn (.waitForReceipt _ _ waiting) => inferInstanceAs (Decidable (waiting = .polling))
  | .step _ (.nonce n) => inferInstanceAs (Decidable (∀ t ∈ c.shared.sent, t.mined → t.tx.nonce < n))
  | .step _ .none => .isTrue trivial
  | .step _ .failed => .isTrue trivial
  | .step _ (.gasPrice _) => .isTrue trivial
  | .step _ .taken => .isTrue trivial
  | .step _ .lost => .isTrue trivial
  | .step _ (.receipt _) => .isTrue trivial
  | .step _ .cancelled => .isTrue trivial
  | .outside _ => .isTrue trivial

instance (c : Config Shared Task) (answer : Answer) : (task : Task) → Decidable (Careful c answer task)
  | .operation op .locked => inferInstanceAs (Decidable (c.shared.txStatus = false →
      ∀ other ∈ c.tasks, other.critical → other.holds op.type))
  | .operation _ (.prepared _) => inferInstanceAs (Decidable (answer ≠ .lost))
  | .waitForReceipt _ _ (.ended _) =>
    inferInstanceAs (Decidable ((∀ t ∈ c.shared.sent, t.mined) ∨ ∃ other ∈ c.tasks, other.unrecorded))
  | .operation _ .called => .isTrue trivial
  | .operation _ .free => .isTrue trivial
  | .operation _ (.counted _) => .isTrue trivial
  | .operation _ (.sent _) => .isTrue trivial
  | .operation _ (.returning _) => .isTrue trivial
  | .operation _ (.returned _) => .isTrue trivial
  | .waitForReceipt _ _ .polling => .isTrue trivial
  | .waitForReceipt _ _ (.returned _) => .isTrue trivial

instance (c : Config Shared Task) : (e : Event Task Answer Nat) → Decidable (Fits c e)
  | .step i answer =>
    match here : c.tasks[i]? with
    | none => .isTrue (by rw [Fits,here]; trivial)
    | some task => decidable_of_iff (Careful c answer task) (by rw [Fits,here]; rfl)
  | .spawn _ => .isTrue trivial
  | .outside _ => .isTrue trivial

inductive Moves (s : Shared) (op : Operation) : Progress → Answer → Shared → Progress → Prop
  | lock (answer : Answer) (unlocked : s.locked op.type = false) :
    Moves s op .called answer (s.setLock op.type true) .locked
  | pass (answer : Answer) (clear : s.txStatus = false) : Moves s op .locked answer s .free
  | count (n : Nat) : Moves s op .free (.nonce n) s (.counted n)
  | prepare (n : Nat) (answer : Answer) (tx : Transaction) (same : tx.nonce = n) :
    Moves s op (.counted n) answer s (.prepared tx)
  | send (tx : Transaction) (answer : Answer) : Moves s op (.prepared tx) answer (s.receive tx) (.sent tx)
  | lose (tx : Transaction) (result : Except Err (Option Transaction)) :
    Moves s op (.prepared tx) .lost (s.receive tx) (.returning result)
  | record (tx : Transaction) (answer : Answer) (info : TxInfo) (result : Except Err (Option Transaction)) :
    Moves s op (.sent tx) answer (s.syncTransaction info) (.returning result)
  | giveUp (progress : Progress) (answer : Answer) (result : Except Err (Option Transaction)) (inside : progress.inside)
    (unsent : ∀ tx, progress ≠ .sent tx) : Moves s op progress answer s (.returning result)
  | unlock (answer : Answer) (result result' : Except Err (Option Transaction)) :
    Moves s op (.returning result) answer (s.setLock op.type false) (.returned result')

variable {s s' : Shared}

theorem operate_moves {env : Env} {op : Operation} {progress progress' : Progress} {answer : Answer}
    (made : operate env s op progress answer = some (s',progress')) : Moves s op progress answer s' progress' := by
  -- the other answers do not fit the progress
  cases progress <;> cases answer <;> try cases made
  case called.none =>
    simp only [operate] at made
    split at made
    · cases made
    · next unlocked => cases made; exact .lock _ (by simpa using unlocked)
  case locked.none =>
    simp only [operate] at made
    split at made
    · cases made; exact .giveUp _ _ _ rfl (by simp)
    · split at made
      · cases made; exact .giveUp _ _ _ rfl (by simp)
      · next clear => cases made; exact .pass _ (by simpa using clear)
  case free.failed => exact .giveUp _ _ _ rfl (by simp)
  case free.nonce => exact .count _
  case counted.none =>
    obtain ⟨price,-,same⟩ := Option.map_eq_some_iff.mp made
    cases same
    exact .prepare _ _ _ rfl
  case counted.gasPrice =>
    simp only [operate] at made
    split at made
    · cases made
    · cases made; exact .prepare _ _ _ rfl
  case counted.failed =>
    simp only [operate] at made
    split at made
    · cases made
    · cases made; exact .giveUp _ _ _ rfl (by simp)
  case prepared.failed => exact .giveUp _ _ _ rfl (by simp)
  case prepared.taken => exact .send _ _
  case prepared.lost => exact .lose _ _
  case sent.none => exact .record _ _ _ _
  case returning.none => exact .unlock _ _ _

variable {type : TransactionType}

theorem wait_moves {env : Env} {waiting waiting' : Waiting} {answer : Answer}
    (made : wait env s type waiting answer = some (s',waiting')) :
    s' = s ∨ (∃ result, waiting = .ended result) ∧ s' = s.updateStatus false := by
  cases waiting with
  | polling =>
    cases answer <;> simp only [wait] at made <;> try cases made <;> exact Or.inl rfl
    split at made <;> cases made <;> exact Or.inl rfl
  | ended result =>
    cases answer <;> cases made
    exact Or.inr ⟨⟨result,rfl⟩,rfl⟩
  | returned result => cases answer <;> cases made

def AllMined (s : Shared) : Prop := ∀ t ∈ s.sent, t.mined

def Above (s : Shared) (nonce : Nat) : Prop := ∀ t ∈ s.sent, t.tx.nonce < nonce

/-- Before an operation sends, everything is mined and has a lower nonce. -/
def Ready (s : Shared) : Task → Prop
  | .operation _ .free => AllMined s
  | .operation _ (.counted n) => AllMined s ∧ Above s n
  | .operation _ (.prepared tx) => AllMined s ∧ Above s tx.nonce
  | _ => True

structure Orderly (c : Config Shared Task) : Prop where
  mined : ∀ t ∈ c.shared.sent.dropLast, t.mined
  nonces : (c.shared.sent.map (·.tx.nonce)).Pairwise (· < ·)
  clear : c.shared.txStatus = false → AllMined c.shared ∨ ∃ task ∈ c.tasks, task.unrecorded

def invariant : Assertion Shared Task where
  whole := Orderly
  own s task := (∀ type, task.holds type → s.locked type) ∧ Ready s task
  pair task other :=
    (∀ type, task.holds type → other.holds type → False) ∧ (task.critical → other.critical → False)

variable {task other : Task}

theorem ready_idle (idle : task.critical = false) : Ready s task := by
  cases task with
  | waitForReceipt type txHash waiting => trivial
  | operation op progress => cases progress <;> trivial

theorem ready_congr (same : s'.sent = s.sent) (ready : Ready s task) : Ready s' task := by
  unfold Ready AllMined Above at *
  rwa [same]

theorem critical_of_unrecorded (unrecorded : task.unrecorded) : task.critical := by
  cases task with
  | waitForReceipt type txHash waiting => cases unrecorded
  | operation op progress => cases progress <;> first | rfl | cases unrecorded

theorem exists_set {tasks : List Task} {i : Nat} {task task' : Task} (here : tasks[i]? = some task)
    (recorded : task.unrecorded = false ∨ task'.unrecorded) (some : ∃ t ∈ tasks, t.unrecorded) :
    ∃ t ∈ tasks.set i task', t.unrecorded := by
  obtain ⟨t,member,unrecorded⟩ := some
  obtain ⟨j,there⟩ := List.mem_iff_getElem?.mp member
  have bound : i < tasks.length := (List.getElem?_eq_some_iff.mp here).1
  by_cases same : i = j
  · subst same
    rw [here] at there
    cases there
    have after := recorded.resolve_left (by simp [unrecorded])
    exact ⟨task',List.mem_iff_getElem?.mpr ⟨i,List.getElem?_set_self bound⟩,after⟩
  · exact ⟨t,List.mem_iff_getElem?.mpr ⟨j,(List.getElem?_set_ne same).trans there⟩,unrecorded⟩

section
variable {c : Config Shared Task} {i : Nat} {s : Shared} {task task' : Task}

/-- A step that keeps the chain and the status keeps the order of things. -/
theorem Orderly.keep (orderly : Orderly c) (here : c.tasks[i]? = some task)
    (recorded : task.unrecorded = false ∨ task'.unrecorded) (chain : s.sent = c.shared.sent)
    (status : s.txStatus = c.shared.txStatus) : Orderly ⟨s,c.tasks.set i task'⟩ where
  mined := chain ▸ orderly.mined
  nonces := chain ▸ orderly.nonces
  clear off := by
    rcases orderly.clear (status ▸ off) with mined | some
    · exact Or.inl (fun t member => mined t (chain ▸ member))
    · exact Or.inr (exists_set here recorded some)

/-- A transaction is sent when everything is mined and its nonce is higher. -/
theorem Orderly.receive (orderly : Orderly c) (here : c.tasks[i]? = some task) {tx : Transaction}
    (mined : AllMined c.shared) (above : Above c.shared tx.nonce) (unrecorded : task'.unrecorded) :
    Orderly ⟨c.shared.receive tx,c.tasks.set i task'⟩ where
  mined t member := by
    rw [Shared.receive,List.dropLast_concat] at member
    exact mined t member
  nonces := by
    simp only [Shared.receive,List.map_append,List.map_cons,List.map_nil]
    refine List.pairwise_append.mpr ⟨orderly.nonces,List.pairwise_singleton _ _,?_⟩
    rintro nonce member _ last
    obtain ⟨t,old,rfl⟩ := List.mem_map.mp member
    rw [List.mem_singleton.mp last]
    exact above t old
  clear _ := by
    have bound : i < c.tasks.length := (List.getElem?_eq_some_iff.mp here).1
    exact Or.inr ⟨task',List.mem_iff_getElem?.mpr ⟨i,List.getElem?_set_self bound⟩,unrecorded⟩

end

theorem locked_setLock {type type' : TransactionType} {held : Bool} :
    (s.setLock type held).locked type' = if type' = type then held else s.locked type' :=
  Function.update_apply s.locked type held type'

theorem holds_operation {op : Operation} {progress : Progress} :
    (Task.operation op progress).holds type ↔ op.type = type ∧ progress.inside := by
  simp [Task.holds]

section
variable {c : Config Shared Task} {i : Nat} {op : Operation} {progress progress' : Progress} {answer : Answer}
  {s : Shared}

variable (holds : invariant.Holds c)
include holds

/-- When an operation finds the status clear, no other is between its test and its update. -/
theorem nobody_critical (careful : Careful c answer (.operation op .locked))
    (here : c.tasks[i]? = some (.operation op .locked)) (clear : c.shared.txStatus = false) {j : Nat}
    (there : c.tasks[j]? = some other) : other.critical = false := by
  by_contra busy
  rw [Bool.not_eq_false] at busy
  by_cases same : i = j
  · subst same
    rw [here] at there
    cases there
    cases busy
  · have inside := careful clear other (List.mem_iff_getElem?.mpr ⟨j,there⟩) busy
    exact (holds.pair i j _ other same here there).1 op.type (holds_operation.mpr ⟨rfl,rfl⟩) inside

theorem invariant_operate (possible : Possible c (.step i answer))
    (careful : Careful c answer (.operation op progress)) (here : c.tasks[i]? = some (.operation op progress))
    (moves : Moves c.shared op progress answer s progress') :
    Orderly ⟨s,c.tasks.set i (.operation op progress')⟩ ∧ invariant.own s (.operation op progress') := by
  have orderly : Orderly c := holds.whole
  obtain ⟨locked,ready⟩ := holds.own i _ here
  -- the mutex stays with the operation as long as it is inside
  have inside : progress.inside → ∀ type, (Task.operation op progress').holds type → c.shared.locked type := by
    intro before type held
    exact locked type (holds_operation.mpr ⟨(holds_operation.mp held).1,before⟩)
  cases moves with
  | lock answer unlocked =>
    refine ⟨orderly.keep here (Or.inl rfl) rfl rfl,fun type held => ?_,trivial⟩
    rw [locked_setLock,if_pos (holds_operation.mp held).1.symm]
  | pass answer clear =>
    refine ⟨orderly.keep here (Or.inl rfl) rfl rfl,inside rfl,?_⟩
    refine (orderly.clear clear).resolve_right ?_
    rintro ⟨other,member,unrecorded⟩
    obtain ⟨j,there⟩ := List.mem_iff_getElem?.mp member
    have idle := nobody_critical holds careful here clear there
    rw [critical_of_unrecorded unrecorded] at idle
    cases idle
  | count n =>
    exact ⟨orderly.keep here (Or.inl rfl) rfl rfl,inside rfl,ready,fun t member => possible t member (ready t member)⟩
  | prepare n answer tx same =>
    exact ⟨orderly.keep here (Or.inl rfl) rfl rfl,inside rfl,ready.1,same ▸ ready.2⟩
  | send tx answer => exact ⟨orderly.receive here ready.1 ready.2 rfl,inside rfl,trivial⟩
  | lose tx result => exact absurd rfl careful
  | record tx answer info result =>
    refine ⟨⟨orderly.mined,orderly.nonces,fun off => ?_⟩,inside rfl,trivial⟩
    cases off
  | giveUp progress answer result before unsent =>
    refine ⟨orderly.keep here (Or.inl ?_) rfl rfl,inside before,trivial⟩
    cases progress <;> first | rfl | exact absurd rfl (unsent _)
  | unlock answer result result' =>
    refine ⟨orderly.keep here (Or.inl rfl) rfl rfl,fun type held => ?_,trivial⟩
    cases (holds_operation.mp held).2

theorem invariant_others (careful : Careful c answer (.operation op progress))
    (here : c.tasks[i]? = some (.operation op progress)) (moves : Moves c.shared op progress answer s progress')
    {j : Nat} (moved : j ≠ i) (there : c.tasks[j]? = some other) :
    invariant.own s other ∧ invariant.pair (.operation op progress') other := by
  obtain ⟨locked,ready⟩ := holds.own j other there
  obtain ⟨exclusive,apart⟩ := holds.pair i j _ other moved.symm here there
  have inside : progress.inside → ∀ type, (Task.operation op progress').holds type → other.holds type → False := by
    intro before type held
    exact exclusive type (holds_operation.mpr ⟨(holds_operation.mp held).1,before⟩)
  cases moves with
  | lock answer unlocked =>
    refine ⟨⟨fun type held => ?_,ready_congr rfl ready⟩,fun type held other' => ?_,fun busy => nomatch busy⟩
    · rw [locked_setLock]
      split
      · rfl
      · exact locked type held
    · have taken := locked type other'
      rw [← (holds_operation.mp held).1,unlocked] at taken
      cases taken
  | pass answer clear =>
    refine ⟨⟨locked,ready⟩,inside rfl,fun _ busy => ?_⟩
    rw [nobody_critical holds careful here clear there] at busy
    cases busy
  | count n | prepare n answer tx same => exact ⟨⟨locked,ready⟩,inside rfl,fun _ => apart rfl⟩
  | send tx answer =>
    exact ⟨⟨locked,ready_idle (Bool.eq_false_iff.mpr (apart rfl))⟩,inside rfl,fun _ => apart rfl⟩
  | lose tx result => exact absurd rfl careful
  | record tx answer info result =>
    exact ⟨⟨locked,ready_congr rfl ready⟩,inside rfl,fun busy => nomatch busy⟩
  | giveUp progress answer result before unsent => exact ⟨⟨locked,ready⟩,inside before,fun busy => nomatch busy⟩
  | unlock answer result result' =>
    refine ⟨⟨fun type held => ?_,ready_congr rfl ready⟩,fun type held => ?_,fun busy => nomatch busy⟩
    · rw [locked_setLock,if_neg]
      · exact locked type held
      · rintro rfl
        exact exclusive op.type (holds_operation.mpr ⟨rfl,rfl⟩) held
    · cases (holds_operation.mp held).2

theorem invariant_wait {txHash : Bytes} {waiting waiting' : Waiting}
    (careful : Careful c answer (.waitForReceipt type txHash waiting))
    (here : c.tasks[i]? = some (.waitForReceipt type txHash waiting))
    (moves : s = c.shared ∨ (∃ result, waiting = .ended result) ∧ s = c.shared.updateStatus false) :
    Orderly ⟨s,c.tasks.set i (.waitForReceipt type txHash waiting')⟩ ∧
      invariant.own s (.waitForReceipt type txHash waiting') ∧
      ∀ (j : Nat) other, j ≠ i → c.tasks[j]? = some other →
        invariant.own s other ∧ invariant.pair (.waitForReceipt type txHash waiting') other := by
  have orderly : Orderly c := holds.whole
  have alone : ∀ other, invariant.pair (.waitForReceipt type txHash waiting') other :=
    fun other => ⟨fun _ held => (nomatch held),fun busy => nomatch busy⟩
  obtain rfl | ⟨⟨result,rfl⟩,rfl⟩ := moves
  · exact ⟨orderly.keep here (Or.inl rfl) rfl rfl,⟨fun _ held => (nomatch held),trivial⟩,
      fun j other _ there => ⟨holds.own j other there,alone other⟩⟩
  · refine ⟨⟨orderly.mined,orderly.nonces,fun _ => ?_⟩,⟨fun _ held => (nomatch held),trivial⟩,
      fun j other _ there => ⟨⟨(holds.own j other there).1,ready_congr rfl (holds.own j other there).2⟩,alone other⟩⟩
    exact careful.imp_right (exists_set here (Or.inl rfl))

end

theorem mined_modify {sent : List Sent} (mined : ∀ t ∈ sent, t.mined) {i : Nat} :
    ∀ t ∈ sent.modify i (fun t => { t with mined := true }), t.mined := by
  intro t member
  obtain ⟨j,there⟩ := List.mem_iff_getElem?.mp member
  rw [List.getElem?_modify] at there
  obtain ⟨old,here,rfl⟩ := Option.map_eq_some_iff.mp there
  split
  · rfl
  · exact mined old (List.mem_iff_getElem?.mpr ⟨j,here⟩)

theorem dropLast_modify (sent : List Sent) (i : Nat) (f : Sent → Sent) :
    (sent.modify i f).dropLast = sent.dropLast.modify i f := by
  apply List.ext_getElem?
  intro j
  simp only [List.getElem?_dropLast,List.getElem?_modify,List.length_modify]
  split <;> rfl

theorem nonces_modify {sent : List Sent} (i : Nat) :
    (sent.modify i (fun t => { t with mined := true })).map (·.tx.nonce) = sent.map (·.tx.nonce) := by
  apply List.ext_getElem?
  intro j
  rw [List.getElem?_map,List.getElem?_map,List.getElem?_modify,Option.map_eq_map,Option.map_map]
  split <;> rfl

theorem Ready.mine (ready : Ready s task) (i : Nat) : Ready (mine s i) task := by
  have mined : AllMined s → AllMined (Transactions.mine s i) := fun all => mined_modify all
  have above : ∀ n, Above s n → Above (Transactions.mine s i) n := by
    intro n all t member
    have same : t.tx.nonce ∈ s.sent.map (·.tx.nonce) := nonces_modify i ▸ List.mem_map_of_mem member
    obtain ⟨old,before,equal⟩ := List.mem_map.mp same
    exact equal ▸ all old before
  cases task with
  | waitForReceipt type txHash waiting => trivial
  | operation op progress =>
    cases progress with
    | free => exact mined ready
    | counted n => exact ⟨mined ready.1,above n ready.2⟩
    | prepared tx => exact ⟨mined ready.1,above tx.nonce ready.2⟩
    | called => trivial
    | locked => trivial
    | sent tx => trivial
    | returning result => trivial
    | returned result => trivial

theorem stable (env : Env) : Stable (system env) (fun c e => Possible c e ∧ Fits c e) invariant where
  symm task task' pair := ⟨fun type held held' => pair.1 type held' held,fun busy busy' => pair.2 busy' busy⟩
  spawn c task holds fits := by
    have orderly : Orderly c := holds.whole
    have outside : (∀ type, task.holds type = false) ∧ task.critical = false := by
      cases task with
      | operation op progress =>
        obtain ⟨rfl,-⟩ := fits
        exact ⟨fun type => Bool.and_false _,rfl⟩
      | waitForReceipt type txHash waiting => exact ⟨fun type => rfl,rfl⟩
    refine ⟨⟨orderly.mined,orderly.nonces,fun off => (orderly.clear off).imp_right ?_⟩,
      ⟨fun type held => absurd held (by simp [outside.1]),ready_idle outside.2⟩,
      fun i other _ => ⟨fun type _ held => absurd held (by simp [outside.1]),
        fun _ busy => absurd busy (by simp [outside.2])⟩⟩
    rintro ⟨other,member,unrecorded⟩
    exact ⟨other,List.mem_append_left _ member,unrecorded⟩
  outside c i holds _ := by
    have orderly : Orderly c := holds.whole
    refine ⟨⟨?_,?_,fun off => (orderly.clear off).imp_left (fun all => mined_modify all)⟩,
      fun j task there => ⟨(holds.own j task there).1,(holds.own j task there).2.mine i⟩⟩
    · rw [show (system env).outside c.shared i = mine c.shared i from rfl,mine,dropLast_modify]
      exact mined_modify orderly.mined
    · rw [show (system env).outside c.shared i = mine c.shared i from rfl,mine,nonces_modify]
      exact orderly.nonces
  step c i answer task s task' holds fits here stepped := by
    have careful : Careful c answer task := by
      have fits := fits.2
      rwa [Fits,here] at fits
    cases task with
    | operation op progress =>
      obtain ⟨⟨s₁,progress'⟩,made,same⟩ := Option.map_eq_some_iff.mp stepped
      cases same
      have moves := operate_moves made
      obtain ⟨orderly,own⟩ := invariant_operate holds fits.1 careful here moves
      exact ⟨orderly,own,fun j other moved there => invariant_others holds careful here moves moved there⟩
    | waitForReceipt type txHash waiting =>
      obtain ⟨⟨s₁,waiting'⟩,made,same⟩ := Option.map_eq_some_iff.mp stepped
      cases same
      exact invariant_wait holds careful here (wait_moves made)

theorem start_holds : invariant.Holds start where
  whole := ⟨fun t member => absurd member List.not_mem_nil,List.Pairwise.nil,
    fun _ => Or.inl (fun t member => absurd member List.not_mem_nil)⟩
  own i task here := by simp [start] at here
  pair i j task task' _ here := by simp [start] at here

/-- In every run of calls in any number where operations of the two services do not overlap
    between test and update, no taken transaction looks failed, and the status is cleared
    only when everything sent is mined, one transaction is under way at a time and no
    nonce is used twice. -/
theorem one_at_a_time (env : Env) (events : List (Event Task Answer Nat)) (c : Config Shared Task)
    (careful : (system env).AllFit (fun c e => Possible c e ∧ Fits c e) start events)
    (ran : (system env).run start events = some c) : OneAtATime c.shared := by
  have orderly := ((stable env).run start_holds careful ran).whole
  exact ⟨orderly.mined,orderly.nonces.imp (fun lower => Nat.ne_of_lt lower)⟩

/-- A registration is sent, mined and waited for before a cheque is cashed. -/
theorem one_at_a_time_waited :
    let env : Env := ⟨7,true,fun tx => [UInt8.ofNat tx.nonce]⟩
    let events : List (Event Task Answer Nat) :=
      [.spawn (.operation (.registerCidAndNode [1] [2] none none) .called),.step 0 .none,.step 0 .none,
        .step 0 (.nonce 0),.step 0 (.gasPrice 5),.step 0 .taken,.step 0 .none,.step 0 .none,
        .spawn (.waitForReceipt .oracle [0] .polling),.outside 0,.step 1 (.receipt true),.step 1 .none,
        .spawn (.operation (.cashChequeBeneficiary [3] 7 8 9 []) .called),.step 2 .none,.step 2 .none,
        .step 2 (.nonce 1),.step 2 (.gasPrice 5),.step 2 .taken]
    ∃ c, (system env).run start events = some c ∧ c.shared.sent.length = 2 ∧ OneAtATime c.shared := by
  intro env events
  have careful : (system env).AllFit (fun c e => Possible c e ∧ Fits c e) start events := by decide +zetaReduce
  have sent : ((system env).run start events).map (·.shared.sent.length) = some 2 := rfl
  obtain ⟨c,ran,length⟩ := Option.map_eq_some_iff.mp sent
  exact ⟨c,ran,length,one_at_a_time env events c careful ran⟩

/-- Operations of the two services that overlap send two transactions with one nonce. -/
theorem overlapping_same_nonce :
    let env : Env := ⟨7,true,fun tx => [UInt8.ofNat tx.nonce]⟩
    let events : List (Event Task Answer Nat) :=
      [.spawn (.operation (.registerCidAndNode [1] [2] none none) .called),
        .spawn (.operation (.cashChequeBeneficiary [3] 7 8 9 []) .called),.step 0 .none,.step 1 .none,.step 0 .none,
        .step 1 .none,.step 0 (.nonce 0),.step 1 (.nonce 0),.step 0 (.gasPrice 5),.step 1 (.gasPrice 5),
        .step 0 .taken,.step 1 .taken]
    (system env).AllFit Possible start events ∧
      ∃ c, (system env).run start events = some c ∧ ¬OneAtATime c.shared ∧
        c.shared.sent.map (fun t => (t.tx.nonce,t.mined)) = [(0,false),(0,false)] := by
  intro env events
  have sent : ((system env).run start events).map (fun c => c.shared.sent.map (fun t => (t.tx.nonce,t.mined))) =
    some [(0,false),(0,false)] := rfl
  obtain ⟨c,ran,twice⟩ := Option.map_eq_some_iff.mp sent
  refine ⟨by decide +zetaReduce,c,ran,fun orderly => ?_,twice⟩
  have nonces : c.shared.sent.map (·.tx.nonce) = [0,0] := by
    simpa [Function.comp_def] using congrArg (List.map Prod.fst) twice
  exact absurd (nonces ▸ orderly.2) (by decide)

end FavorX.Transactions

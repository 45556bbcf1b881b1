import Mathlib

/-!
Flooding a message over a directed graph, with a filter at each node for what it has received and
one for what it has forwarded. What is still to be done is a multiset of tasks in any order. When no
task is left everything in reach has accepted (`accepted_of_quiet`), a node accepts and forwards
once (`Counted`), and each task lowers `potential`.
-/
namespace FavorX.Flooding
open Relation

variable {Node : Type}

/-- A finite set of nodes with the peers of each, and the node a message starts at. -/
structure Graph (Node : Type) where
  nodes : Finset Node
  origin : Node
  peers : Node → List Node
  origin_mem : origin ∈ nodes
  closed : ∀ node ∈ nodes, ∀ peer ∈ peers node, peer ∈ nodes

/-- What a node still has to do: take in what arrives, accept what was new, forward
    what it accepted, and send to the targets that are left. -/
inductive Task (Node : Type) where
  | receive (node source : Node)
  | accept (node source : Node)
  | forward (node : Node) (skip : List Node)
  | send (node : Node) (targets : List Node)

/-- The filters and the tasks, and what happened: who accepted, who forwarded, who sent to whom. -/
@[ext] structure State (Node : Type) where
  received : Finset Node
  forwarded : Finset Node
  tasks : Multiset (Task Node)
  accepted : List Node
  forwards : List Node
  sends : List (Node × Node)

def initial : State Node := ⟨∅,∅,0,[],[],[]⟩

def Task.node : Task Node → Node
  | .receive node _ | .accept node _ | .forward node _ | .send node _ => node

def State.add (state : State Node) (task : Task Node) : State Node :=
  { state with tasks := task ::ₘ state.tasks }

variable [DecidableEq Node] (graph : Graph Node)

/-- Do a task that was taken out of the tasks of a state. -/
def perform (state : State Node) : Task Node → State Node
  | .receive node source =>
    if node ∈ state.received then state
    else if node = graph.origin then { state with received := insert node state.received }
    else { state with received := insert node state.received, tasks := .accept node source ::ₘ state.tasks }
  | .accept node source =>
    { state with accepted := node :: state.accepted, tasks := .forward node [source] ::ₘ state.tasks }
  | .forward node skip =>
    if node ∈ state.forwarded then state
    else
      { state with
        forwarded := insert node state.forwarded
        forwards := node :: state.forwards
        tasks := .send node ((graph.peers node).filter (· ∉ skip)) ::ₘ state.tasks }
  | .send _ [] => state
  | .send node (target :: targets) =>
    { state with
      sends := (node,target) :: state.sends
      tasks := .receive target node ::ₘ .send node targets ::ₘ state.tasks }

/-- The origin starts the message, or any task is done. -/
inductive Step : State Node → State Node → Prop where
  | originate (state : State Node) : Step state (perform graph state (.forward graph.origin []))
  | advance (state : State Node) (task : Task Node) : Step (state.add task) (perform graph state task)

def Reachable : State Node → Prop := ReflTransGen (Step graph) initial

/-- Why a task is there. A node forwards what it started or received, and whoever
    it skips has forwarded. -/
def Justified (state : State Node) : Task Node → Prop
  | .receive _ source => source ∈ state.forwarded
  | .accept node source => node ≠ graph.origin ∧ node ∈ state.received ∧ source ∈ state.forwarded
  | .forward node skip => (node = graph.origin ∨ node ∈ state.received) ∧ ∀ source ∈ skip, source ∈ state.forwarded
  | .send node targets => node ∈ state.forwarded ∧ ∀ target ∈ targets, target ∈ graph.peers node

/-- The tasks are justified and at nodes of the graph, and who has forwarded had the message. -/
structure Sound (state : State Node) : Prop where
  justified : ∀ task ∈ state.tasks, Justified graph state task
  inside : ∀ task ∈ state.tasks, task.node ∈ graph.nodes
  reached : ∀ node ∈ state.forwarded, node ∈ graph.nodes ∧ (node = graph.origin ∨ node ∈ state.received)

variable {state state' : State Node}

section
omit [DecidableEq Node]
variable {graph}

theorem Justified.mono {task : Task Node} (just : Justified graph state task)
    (received : state.received ⊆ state'.received) (forwarded : state.forwarded ⊆ state'.forwarded) :
    Justified graph state' task := by
  cases task with
  | receive node source => exact forwarded just
  | accept node source => exact ⟨just.1,received just.2.1,forwarded just.2.2⟩
  | forward node skip => exact ⟨just.1.imp_right (@received _),fun source skipped => forwarded (just.2 source skipped)⟩
  | send node targets => exact ⟨forwarded just.1,just.2⟩

theorem Sound.extend (sound : Sound graph state) (received : state.received ⊆ state'.received)
    (forwarded : state.forwarded ⊆ state'.forwarded)
    (tasks : ∀ task ∈ state'.tasks, task ∈ state.tasks ∨ Justified graph state' task ∧ task.node ∈ graph.nodes)
    (reached : ∀ node ∈ state'.forwarded, node ∈ state.forwarded ∨ node ∈ graph.nodes ∧ (node = graph.origin ∨ node ∈ state'.received)) :
    Sound graph state' where
  justified := fun task pending => (tasks task pending).elim
    (fun old => (sound.justified task old).mono received forwarded) And.left
  inside := fun task pending => (tasks task pending).elim (sound.inside task) And.right
  reached := fun node done => (reached node done).elim
    (fun old => ⟨(sound.reached node old).1,(sound.reached node old).2.imp_right (@received _)⟩) id

theorem Sound.rest {task : Task Node} (sound : Sound graph (state.add task)) :
    Sound graph state where
  justified := fun other pending => sound.justified other (Multiset.mem_cons_of_mem pending)
  inside := fun other pending => sound.inside other (Multiset.mem_cons_of_mem pending)
  reached := sound.reached

theorem Sound.head {task : Task Node} (sound : Sound graph (state.add task)) :
    Justified graph state task ∧ task.node ∈ graph.nodes :=
  ⟨sound.justified task (Multiset.mem_cons_self _ _),sound.inside task (Multiset.mem_cons_self _ _)⟩

end

variable {graph}

variable {state : State Node} {task : Task Node}

theorem Sound.perform (sound : Sound graph (state.add task)) : Sound graph (perform graph state task) := by
  obtain ⟨just,inside⟩ := sound.head
  have rest := sound.rest
  cases task with
  | receive node source =>
    simp only [Flooding.perform]
    split_ifs with seen own
    · exact rest
    · exact rest.extend (Finset.subset_insert _ _) subset_rfl (fun _ => .inl) (fun _ => .inl)
    refine rest.extend (Finset.subset_insert _ _) subset_rfl (fun task pending => ?_) (fun _ => .inl)
    refine (Multiset.mem_cons.mp pending).symm.imp_right ?_
    rintro rfl
    exact ⟨⟨own,Finset.mem_insert_self _ _,just⟩,inside⟩
  | accept node source =>
    refine rest.extend subset_rfl subset_rfl (fun task pending => ?_) (fun _ => .inl)
    refine (Multiset.mem_cons.mp pending).symm.imp_right ?_
    rintro rfl
    exact ⟨⟨.inr just.2.1,fun other skipped => List.mem_singleton.mp skipped ▸ just.2.2⟩,inside⟩
  | forward node skip =>
    simp only [Flooding.perform]
    split_ifs with done
    · exact rest
    refine rest.extend subset_rfl (Finset.subset_insert _ _) (fun task pending => ?_) (fun other forwarded => ?_)
    · refine (Multiset.mem_cons.mp pending).symm.imp_right ?_
      rintro rfl
      exact ⟨⟨Finset.mem_insert_self _ _,fun target sent => (List.mem_filter.mp sent).1⟩,inside⟩
    · refine (Finset.mem_insert.mp forwarded).symm.imp_right ?_
      rintro rfl
      exact ⟨inside,just.1⟩
  | send node targets =>
    cases targets with
    | nil => exact rest
    | cons target targets =>
      refine rest.extend subset_rfl subset_rfl (fun task pending => ?_) (fun _ => .inl)
      simp only [Flooding.perform,Multiset.mem_cons] at pending
      rcases pending with rfl | rfl | old
      · exact .inr ⟨just.1,graph.closed node inside target (just.2 target List.mem_cons_self)⟩
      · exact .inr ⟨⟨just.1,fun other sent => just.2 other (List.mem_cons_of_mem _ sent)⟩,inside⟩
      · exact .inl old

omit [DecidableEq Node] in
theorem Sound.start (sound : Sound graph state) : Sound graph (state.add (.forward graph.origin [])) := by
  refine sound.extend subset_rfl subset_rfl (fun task pending => ?_) (fun _ => .inl)
  refine (Multiset.mem_cons.mp pending).symm.imp_right ?_
  rintro rfl
  exact ⟨⟨.inl rfl,by simp⟩,graph.origin_mem⟩

theorem tasks_le_perform (graph : Graph Node) (state : State Node) (task : Task Node) :
    state.tasks ≤ (perform graph state task).tasks := by
  cases task with
  | receive node source | forward node skip =>
    simp only [perform]; split_ifs <;> first | exact le_rfl | exact Multiset.le_cons_self _ _
  | accept node source => exact Multiset.le_cons_self _ _
  | send node targets =>
    cases targets with
    | nil => exact le_rfl
    | cons target targets => exact (Multiset.le_cons_self _ _).trans (Multiset.le_cons_self _ _)

variable {node peer : Node}

theorem mem_received_perform :
    node ∈ (perform graph state task).received ↔ node ∈ state.received ∨ ∃ source, task = .receive node source := by
  cases task with
  | receive other source =>
    simp only [perform,Task.receive.injEq,exists_and_left,exists_eq',and_true]
    split_ifs <;> grind
  | accept other source => simp [perform]
  | forward other skip => simp only [perform]; split_ifs <;> simp
  | send other targets => cases targets <;> simp [perform]

theorem mem_forwarded_perform :
    node ∈ (perform graph state task).forwarded ↔ node ∈ state.forwarded ∨ ∃ skip, task = .forward node skip := by
  cases task with
  | receive other source => simp only [perform]; split_ifs <;> simp
  | accept other source => simp [perform]
  | forward other skip =>
    simp only [perform,Task.forward.injEq,exists_and_left,exists_eq',and_true]
    split_ifs <;> grind
  | send other targets => cases targets <;> simp [perform]

variable (graph)

/-- A peer has the message, or it is on its way to it, or a node is still to send it. -/
def Covers (state : State Node) (node peer : Node) : Prop :=
  peer = graph.origin ∨ peer ∈ state.received ∨ (∃ source, .receive peer source ∈ state.tasks) ∨
    ∃ targets, .send node targets ∈ state.tasks ∧ peer ∈ targets

/-- A node has forwarded the message, or is still to. -/
def Goes (state : State Node) (node : Node) : Prop :=
  node ∈ state.forwarded ∨ (∃ source, .accept node source ∈ state.tasks) ∨ ∃ skip, .forward node skip ∈ state.tasks

/-- The peers of who has forwarded are covered, and who has received goes on. -/
structure Covering (state : State Node) : Prop where
  covered : ∀ node ∈ state.forwarded, ∀ peer ∈ graph.peers node, Covers graph state node peer
  going : ∀ node ∈ state.received, node ≠ graph.origin → Goes state node

variable {graph}

theorem Covers.perform (covers : Covers graph (state.add task) node peer) :
    Covers graph (perform graph state task) node peer := by
  have kept := Multiset.subset_of_le (tasks_le_perform graph state task)
  rcases covers with start | had | ⟨source,due⟩ | ⟨targets,sending,among⟩
  · exact .inl start
  · exact .inr (.inl (mem_received_perform.mpr (.inl had)))
  · rcases Multiset.mem_cons.mp due with now | later
    · exact .inr (.inl (mem_received_perform.mpr (.inr ⟨source,now.symm⟩)))
    · exact .inr (.inr (.inl ⟨source,kept later⟩))
  rcases Multiset.mem_cons.mp sending with rfl | later
  · -- the peer is the next target or one of those left
    cases targets with
    | nil => exact absurd among List.not_mem_nil
    | cons target targets =>
      rcases List.mem_cons.mp among with rfl | among
      · exact .inr (.inr (.inl ⟨node,by simp [Flooding.perform]⟩))
      · exact .inr (.inr (.inr ⟨targets,by simp [Flooding.perform],among⟩))
  · exact .inr (.inr (.inr ⟨targets,kept later,among⟩))

theorem Goes.perform (goes : Goes (state.add task) node) : Goes (perform graph state task) node := by
  have kept := Multiset.subset_of_le (tasks_le_perform graph state task)
  rcases goes with done | ⟨source,due⟩ | ⟨skip,due⟩
  · exact .inl (mem_forwarded_perform.mpr (.inl done))
  · rcases Multiset.mem_cons.mp due with rfl | later
    · exact .inr (.inr ⟨[source],by simp [Flooding.perform]⟩)
    · exact .inr (.inl ⟨source,kept later⟩)
  · rcases Multiset.mem_cons.mp due with now | later
    · exact .inl (mem_forwarded_perform.mpr (.inr ⟨skip,now.symm⟩))
    · exact .inr (.inr ⟨skip,kept later⟩)

theorem covers_forward {skip : List Node} (sound : Sound graph (state.add (.forward node skip)))
    (new : node ∉ state.forwarded) (edge : peer ∈ graph.peers node) :
    Covers graph (perform graph state (.forward node skip)) node peer := by
  by_cases skipped : peer ∈ skip
  · have forwarded := sound.head.1.2 peer skipped
    refine (sound.reached peer forwarded).2.imp_right (fun had => .inl ?_)
    exact mem_received_perform.mpr (.inl had)
  · refine .inr (.inr (.inr ⟨(graph.peers node).filter (· ∉ skip),?_,?_⟩))
    · simp [perform,new]
    · simp [edge,skipped]

theorem Covering.perform (sound : Sound graph (state.add task)) (covering : Covering graph (state.add task)) :
    Covering graph (perform graph state task) where
  covered := by
    intro node forwarded peer edge
    by_cases old : node ∈ state.forwarded
    · exact (covering.covered node old peer edge).perform
    · obtain ⟨skip,rfl⟩ := (mem_forwarded_perform.mp forwarded).resolve_left old
      exact covers_forward sound old edge
  going := by
    intro node had foreign
    by_cases old : node ∈ state.received
    · exact (covering.going node old foreign).perform
    · obtain ⟨source,rfl⟩ := (mem_received_perform.mp had).resolve_left old
      exact .inr (.inl ⟨source,by simp [Flooding.perform,old,foreign]⟩)

omit [DecidableEq Node] in
theorem Covering.start (covering : Covering graph state) :
    Covering graph (state.add (.forward graph.origin [])) where
  covered := fun node forwarded peer edge => by
    rcases covering.covered node forwarded peer edge with start | had | ⟨source,due⟩ | ⟨targets,sending,among⟩
    · exact .inl start
    · exact .inr (.inl had)
    · exact .inr (.inr (.inl ⟨source,Multiset.mem_cons_of_mem due⟩))
    · exact .inr (.inr (.inr ⟨targets,Multiset.mem_cons_of_mem sending,among⟩))
  going := fun node had foreign => by
    rcases covering.going node had foreign with done | ⟨source,due⟩ | ⟨skip,due⟩
    · exact .inl done
    · exact .inr (.inl ⟨source,Multiset.mem_cons_of_mem due⟩)
    · exact .inr (.inr ⟨skip,Multiset.mem_cons_of_mem due⟩)

def Task.accepter : Task Node → Option Node
  | .accept node _ => some node
  | .receive _ _ | .forward _ _ | .send _ _ => none

section
omit [DecidableEq Node]
variable (node source : Node) (nodes : List Node) (tasks : Multiset (Task Node))

@[simp] theorem accepters_accept :
    (Task.accept node source ::ₘ tasks).filterMap Task.accepter = node ::ₘ tasks.filterMap Task.accepter :=
  Multiset.filterMap_cons_some _ _ _ rfl

@[simp] theorem accepters_receive :
    (Task.receive node source ::ₘ tasks).filterMap Task.accepter = tasks.filterMap Task.accepter :=
  Multiset.filterMap_cons_none _ _ rfl

@[simp] theorem accepters_forward :
    (Task.forward node nodes ::ₘ tasks).filterMap Task.accepter = tasks.filterMap Task.accepter :=
  Multiset.filterMap_cons_none _ _ rfl

@[simp] theorem accepters_send :
    (Task.send node nodes ::ₘ tasks).filterMap Task.accepter = tasks.filterMap Task.accepter :=
  Multiset.filterMap_cons_none _ _ rfl

end

variable (graph)

/-- The histories follow the filters: who has received, the origin apart, accepts
    once, now or later, and who has forwarded did so once. -/
structure Counted (state : State Node) : Prop where
  accepted : (state.accepted : Multiset Node) + state.tasks.filterMap Task.accepter =
    (state.received.erase graph.origin).val
  forwards : (state.forwards : Multiset Node) = state.forwarded.val

variable {graph}

theorem Counted.perform (counted : Counted graph (state.add task)) : Counted graph (perform graph state task) := by
  obtain ⟨accepted,forwards⟩ := counted
  cases task with
  | receive node source =>
    simp only [State.add,accepters_receive] at accepted
    simp only [Flooding.perform]
    split_ifs with seen own
    · exact ⟨accepted,forwards⟩
    · subst own
      refine ⟨?_,forwards⟩
      simpa only [Finset.erase_insert_eq_erase] using accepted
    refine ⟨?_,forwards⟩
    have new : node ∉ state.received.erase graph.origin := fun had => seen (Finset.mem_of_mem_erase had)
    simp only [accepters_accept,Multiset.add_cons,accepted,Finset.erase_insert_of_ne own]
    rw [Finset.insert_val_of_notMem new]
  | accept node source =>
    refine ⟨?_,forwards⟩
    simpa only [Flooding.perform,State.add,accepters_accept,accepters_forward,← Multiset.cons_coe,
      Multiset.add_cons,Multiset.cons_add] using accepted
  | forward node skip =>
    simp only [State.add,accepters_forward] at accepted
    simp only [Flooding.perform]
    split_ifs with done
    · exact ⟨accepted,forwards⟩
    · refine ⟨by simpa only [accepters_send] using accepted,?_⟩
      have before : (state.forwards : Multiset Node) = state.forwarded.val := forwards
      rw [Finset.insert_val_of_notMem done,← Multiset.cons_coe,before]
  | send node targets =>
    simp only [State.add,accepters_send] at accepted
    cases targets with
    | nil => exact ⟨accepted,forwards⟩
    | cons target targets => exact ⟨by simpa only [Flooding.perform,accepters_receive,accepters_send] using accepted,forwards⟩

theorem Counted.start (counted : Counted graph state) : Counted graph (state.add (.forward graph.origin [])) :=
  ⟨by simpa only [State.add,accepters_forward] using counted.accepted,counted.forwards⟩

/-- What is kept back for the nodes that are not in a set yet. -/
def reserve (graph : Graph Node) (cost : Node → Nat) (done : Finset Node) : Nat :=
  ∑ node ∈ graph.nodes \ done, cost node

theorem reserve_insert (cost : Node → Nat) {done : Finset Node} (inside : node ∈ graph.nodes) (new : node ∉ done) :
    reserve graph cost done = cost node + reserve graph cost (insert node done) := by
  have among : node ∈ graph.nodes \ done := Finset.mem_sdiff.mpr ⟨inside,new⟩
  rw [reserve,reserve,Finset.sdiff_insert,Finset.add_sum_erase _ _ among]

def Task.unsent : Task Node → Nat
  | .send _ targets => targets.length
  | .receive _ _ | .accept _ _ | .forward _ _ => 0

/-- How many tasks one may lead to, itself included, apart from what is kept back
    for nodes that receive or forward for the first time. -/
def Task.work : Task Node → Nat
  | .receive _ _ | .forward _ _ => 1
  | .accept _ _ => 2
  | .send _ targets => 2 * targets.length + 1

section
omit [DecidableEq Node]
variable (node source : Node) (nodes : List Node)

@[simp] theorem Task.unsent_receive : (Task.receive node source).unsent = 0 := rfl
@[simp] theorem Task.unsent_accept : (Task.accept node source).unsent = 0 := rfl
@[simp] theorem Task.unsent_forward : (Task.forward node nodes).unsent = 0 := rfl
@[simp] theorem Task.unsent_send : (Task.send node nodes).unsent = nodes.length := rfl

@[simp] theorem Task.work_receive : (Task.receive node source).work = 1 := rfl
@[simp] theorem Task.work_accept : (Task.accept node source).work = 2 := rfl
@[simp] theorem Task.work_forward : (Task.forward node nodes).work = 1 := rfl
@[simp] theorem Task.work_send : (Task.send node nodes).work = 2 * nodes.length + 1 := rfl

end

variable (graph)

def spending (state : State Node) : Nat :=
  state.sends.length + (state.tasks.map Task.unsent).sum +
    reserve graph (fun node => (graph.peers node).length) state.forwarded

/-- A bound on the tasks that are still to be done. -/
def potential (state : State Node) : Nat :=
  (state.tasks.map Task.work).sum + reserve graph (fun _ => 2) state.received +
    reserve graph (fun node => 2 * (graph.peers node).length + 1) state.forwarded

variable {graph}

theorem spending_perform {state : State Node} (inside : task.node ∈ graph.nodes) :
    spending graph (perform graph state task) ≤ spending graph (state.add task) := by
  simp only [spending,State.add,Multiset.map_cons,Multiset.sum_cons]
  cases task with
  | receive node source => simp only [perform]; split_ifs <;> simp
  | accept node source => simp [perform]
  | forward node skip =>
    by_cases done : node ∈ state.forwarded
    · simp [perform,done]
    have kept := reserve_insert (fun node => (graph.peers node).length) inside done
    have short := List.length_filter_le (· ∉ skip) (graph.peers node)
    rw [perform,if_neg done]
    simp only [Multiset.map_cons,Multiset.sum_cons,Task.unsent_send,Task.unsent_forward]
    dsimp only [Task.node] at kept
    omega
  | send node targets =>
    cases targets with
    | nil => simp [perform]
    | cons target targets =>
      simp only [perform,Multiset.map_cons,Multiset.sum_cons,Task.unsent_send,Task.unsent_receive,List.length_cons]
      omega

theorem potential_perform {state : State Node} (inside : task.node ∈ graph.nodes) :
    potential graph (perform graph state task) < potential graph (state.add task) := by
  simp only [potential,State.add,Multiset.map_cons,Multiset.sum_cons]
  cases task with
  | receive node source =>
    by_cases seen : node ∈ state.received
    · simp [perform,seen]
    have kept := reserve_insert (fun _ => 2) inside seen
    dsimp only [Task.node] at kept
    by_cases own : node = graph.origin
    · rw [perform,if_neg seen,if_pos own]
      dsimp only
      omega
    · rw [perform,if_neg seen,if_neg own]
      simp only [Multiset.map_cons,Multiset.sum_cons,Task.work_receive,Task.work_accept]
      omega
  | accept node source =>
    simp only [perform,Multiset.map_cons,Multiset.sum_cons,Task.work_accept,Task.work_forward]
    omega
  | forward node skip =>
    by_cases done : node ∈ state.forwarded
    · simp [perform,done]
    have kept := reserve_insert (fun node => 2 * (graph.peers node).length + 1) inside done
    have short := List.length_filter_le (· ∉ skip) (graph.peers node)
    rw [perform,if_neg done]
    simp only [Multiset.map_cons,Multiset.sum_cons,Task.work_send,Task.work_forward]
    dsimp only [Task.node] at kept
    omega
  | send node targets =>
    cases targets with
    | nil => simp [perform]
    | cons target targets =>
      simp only [perform,Multiset.map_cons,Multiset.sum_cons,Task.work_send,Task.work_receive,List.length_cons]
      omega

theorem potential_originate {state : State Node} :
    potential graph (perform graph state (.forward graph.origin [])) ≤ potential graph state := by
  have less : potential graph (perform graph state (.forward graph.origin [])) <
      potential graph (state.add (.forward graph.origin [])) := potential_perform graph.origin_mem
  simp only [potential,State.add,Multiset.map_cons,Multiset.sum_cons,Task.work_forward] at less ⊢
  omega

variable (graph)

/-- All of it together. -/
structure Invariant (state : State Node) : Prop where
  sound : Sound graph state
  covering : Covering graph state
  counted : Counted graph state
  within : spending graph state ≤ ∑ node ∈ graph.nodes, (graph.peers node).length

theorem invariant_initial : Invariant graph initial where
  sound := ⟨by simp [initial],by simp [initial],by simp [initial]⟩
  covering := ⟨by simp [initial],by simp [initial]⟩
  counted := ⟨by simp [initial],by simp [initial]⟩
  within := by simp [spending,initial,reserve]

variable {graph}

theorem Invariant.start (inv : Invariant graph state) :
    Invariant graph (state.add (.forward graph.origin [])) where
  sound := inv.sound.start
  covering := inv.covering.start
  counted := inv.counted.start
  within := by simpa [spending,State.add] using inv.within

theorem Invariant.perform (inv : Invariant graph (state.add task)) :
    Invariant graph (perform graph state task) where
  sound := inv.sound.perform
  covering := inv.covering.perform inv.sound
  counted := inv.counted.perform
  within := (spending_perform inv.sound.head.2).trans inv.within

theorem Step.invariant (step : Step graph state state') (inv : Invariant graph state) : Invariant graph state' := by
  cases step with
  | originate => exact inv.start.perform
  | advance rest task => exact inv.perform

theorem Reachable.invariant (run : Reachable graph state) : Invariant graph state := by
  induction run with
  | refl => exact invariant_initial graph
  | tail _ step inv => exact step.invariant inv

variable (inv : Invariant graph state)
include inv

theorem Invariant.accepted_nodup : state.accepted.Nodup := by
  have nodup := (state.received.erase graph.origin).nodup
  rw [← inv.counted.accepted] at nodup
  exact (Multiset.nodup_add.mp nodup).1

theorem Invariant.origin_not_accepted : graph.origin ∉ state.accepted := by
  intro accepted
  have among : graph.origin ∈ (state.received.erase graph.origin).val := by
    rw [← inv.counted.accepted]
    exact Multiset.mem_add.mpr (.inl accepted)
  exact Finset.notMem_erase _ _ among

theorem Invariant.forwards_nodup : state.forwards.Nodup := by
  have nodup := state.forwarded.nodup
  rwa [← inv.counted.forwards] at nodup

theorem Invariant.sends_le : state.sends.length ≤ ∑ node ∈ graph.nodes, (graph.peers node).length :=
  (Nat.le_add_right _ _).trans ((Nat.le_add_right _ _).trans inv.within)

/-- Without tasks, whatever the origin reaches has the message and has forwarded it. -/
theorem Invariant.forwarded_of_quiet (quiet : state.tasks = 0) (started : graph.origin ∈ state.forwarded)
    (path : ReflTransGen (fun a b => b ∈ graph.peers a) graph.origin node) :
    node ∈ state.forwarded ∧ (node = graph.origin ∨ node ∈ state.received) := by
  induction path with
  | refl => exact ⟨started,.inl rfl⟩
  | @tail before last _ edge ih =>
    have had : last = graph.origin ∨ last ∈ state.received := by
      have covers := inv.covering.covered before ih.1 last edge
      simpa [Covers,quiet] using covers
    refine ⟨?_,had⟩
    by_cases own : last = graph.origin
    · exact own ▸ started
    · have goes := inv.covering.going last (had.resolve_left own) own
      simpa [Goes,quiet] using goes

theorem Invariant.accepted_of_quiet (quiet : state.tasks = 0) (started : graph.origin ∈ state.forwarded)
    (foreign : node ≠ graph.origin) (path : ReflTransGen (fun a b => b ∈ graph.peers a) graph.origin node) :
    node ∈ state.accepted := by
  have had := (inv.forwarded_of_quiet quiet started path).2.resolve_left foreign
  have all : (state.accepted : Multiset Node) = (state.received.erase graph.origin).val := by
    simpa [quiet] using inv.counted.accepted
  rw [← Multiset.mem_coe,all]
  exact Finset.mem_erase.mpr ⟨foreign,had⟩

end FavorX.Flooding

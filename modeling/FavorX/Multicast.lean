import FavorX.Depth
import FavorX.Flooding

/-!
Multicast in a group (`Multicast` and `onMulticast`). Every node forwards a message it has not
forwarded before to the connected and the kept peers of the group, except to the one it came from.
What concerns one message is a run of `Flooding` over the edges of its group (`simulates`).
-/
namespace FavorX.Multicast
open Shed (Bytes Address)
open Depth (PSlice EachPeerFunc)
open FavorX

/-! ### The code -/

structure MulticastMsg where
  id : UInt64
  createTime : Int
  origin : Bytes
  gid : Bytes
  data : Bytes
  deriving DecidableEq

/-- What subscribers of a group get to see. -/
structure Message where
  id : UInt64
  createTime : Int
  gid : Address
  origin : Address
  data : Bytes
  sender : Address
  deriving DecidableEq

inductive GType where
  | join
  | observe
  deriving DecidableEq

structure Group where
  gType : GType
  connectedPeers : PSlice
  keepPeers : PSlice

/-- A message is known by where it started and its number there. -/
abbrev Key := Address × UInt64

def MulticastMsg.key (info : MulticastMsg) : Key := (info.origin,info.id)

def Message.key (msg : Message) : Key := (msg.origin,msg.id)

/-- The keys `Multicast_origin_id` and `onMulticast_origin_id` of the cache. -/
inductive CacheKey where
  | multicast (key : Key)
  | onMulticast (key : Key)
  deriving DecidableEq

/-- What a handler or a call of `Multicast` still has to do: a message that was sent
    arrives, one that was new is passed on to the subscribers, `Multicast` is called,
    or sends to the addresses that are left. -/
inductive Task where
  | onMulticast (node peer : Address) (info : MulticastMsg)
  | notify (node peer : Address) (info : MulticastMsg)
  | multicast (node : Address) (info : MulticastMsg) (skip : List Address)
  | sendData (node : Address) (info : MulticastMsg) (addresses : List Address)
  deriving DecidableEq

/-- The sequence numbers and caches of the nodes and what is to be done, and what
    happened: the messages that were stamped, the calls of `notifyMulticast`, the
    messages that went past the filter of `Multicast`, and those that were sent. -/
structure State where
  msgSeq : Address → UInt64
  cache : Finset (Address × CacheKey)
  tasks : List Task
  originated : List MulticastMsg
  notified : List (Address × Message)
  forwards : List (Address × MulticastMsg)
  sends : List (Address × Address × MulticastMsg)

/-- The groups of each node, which stay as they are. What `discover` and
    `getForwardNodes` find is left open. -/
structure Network where
  groups : Address → Address → Option Group
  discover : Address → Group → Group
  getForwardNodes : Address → Address → List Address → List Address

def initial : State := ⟨fun _ => 0,∅,[],[],[],[],[]⟩

namespace State
variable (s : State)

def push (task : Task) : State := { s with tasks := task :: s.tasks }

def remember (node : Address) (key : CacheKey) : State := { s with cache := insert (node,key) s.cache }

def logNotified (node : Address) (msg : Message) : State := { s with notified := (node,msg) :: s.notified }

def logForward (node : Address) (info : MulticastMsg) : State := { s with forwards := (node,info) :: s.forwards }

def logSend (node address : Address) (info : MulticastMsg) : State :=
  { s with sends := (node,address,info) :: s.sends }

end State

def Group.isolated (g : Group) : Bool := g.connectedPeers.length = 0 && g.keepPeers.length = 0

/-- The callback of `EachBin`, with the addresses it sends to. -/
def send (skip : List Address) : EachPeerFunc (List Address) Empty := fun sent address _ =>
  (if address ∈ skip then sent else sent ++ [address],false,false,none)

def Network.receivers (net : Network) (node gid : Address) (skip : List Address) : List Address :=
  match net.groups node gid with
  | some g =>
    let v := if g.isolated then net.discover node g else g
    if v.isolated then []
    else
      let sent := (v.connectedPeers.eachBin (send skip) []).1
      (v.keepPeers.eachBin (send skip) sent).1
  | none => net.getForwardNodes node gid skip

/-- A message without an origin gets the node's own, and the next number. -/
def stamp (now : Int) (node : Address) (info : MulticastMsg) (s : State) : MulticastMsg × State :=
  if info.origin = [] then
    let id := s.msgSeq node + 1
    let info := { info with createTime := now, origin := node, id := id }
    (info,{ s with msgSeq := Function.update s.msgSeq node id, originated := info :: s.originated })
  else (info,s)

/-- `Multicast` up to the first send, for a message with an origin. -/
def Network.forward (net : Network) (node : Address) (info : MulticastMsg) (skip : List Address) (s : State) : State :=
  if (node,.multicast info.key) ∈ s.cache then s
  else
    ((s.remember node (.multicast info.key)).logForward node info).push
      (.sendData node info (net.receivers node info.gid skip))

def Network.multicast (net : Network) (now : Int) (node : Address) (info : MulticastMsg) (skip : List Address)
    (s : State) : State :=
  let (info,s) := stamp now node info s
  net.forward node info skip s

/-- `onMulticast` up to the decision whether the message is new. -/
def onMulticast (node peer : Address) (info : MulticastMsg) (s : State) : State :=
  if (node,.onMulticast info.key) ∈ s.cache then s
  else
    let s := s.remember node (.onMulticast info.key)
    if info.origin = node then s else s.push (.notify node peer info)

/-- The rest of `onMulticast`, with the call of `notifyMulticast` in a group the node has joined. -/
def Network.notify (net : Network) (node peer : Address) (info : MulticastMsg) (s : State) : State :=
  let msg : Message :=
    { id := info.id, createTime := info.createTime, gid := info.gid, origin := info.origin, data := info.data,
      sender := peer }
  let s :=
    match net.groups node info.gid with
    | some g => if g.gType = GType.join then s.logNotified node msg else s
    | none => s
  s.push (.multicast node info [peer])

/-- Do a task that was taken out of the tasks of a state. -/
def Network.perform (net : Network) (now : Int) : Task → State → State
  | .onMulticast node peer info, s => onMulticast node peer info s
  | .notify node peer info, s => net.notify node peer info s
  | .multicast node info skip, s => net.multicast now node info skip s
  | .sendData _ _ [], s => s
  | .sendData node info (address :: addresses), s =>
    ((s.logSend node address info).push (.sendData node info addresses)).push (.onMulticast address node info)

inductive Event where
  | originate (node gid : Address) (data : Bytes)
  | advance (i : Nat) (now : Int)

def Network.step (net : Network) (s : State) : Event → State
  | .originate node gid data =>
    s.push (.multicast node { id := 0, createTime := 0, origin := [], gid := gid, data := data } [])
  | .advance i now =>
    match s.tasks[i]? with
    | some task => net.perform now task { s with tasks := s.tasks.eraseIdx i }
    | none => s

def Network.run (net : Network) (s : State) (events : List Event) : State := events.foldl net.step s

/-! ### A group that its nodes have joined -/

def Network.connected (net : Network) (gid node : Address) : List Address :=
  ((net.groups node gid).map (fun g => g.connectedPeers.peers.reverse.flatten)).getD []

def Network.kept (net : Network) (gid node : Address) : List Address :=
  ((net.groups node gid).map (fun g => g.keepPeers.peers.reverse.flatten)).getD []

def Network.peers (net : Network) (gid node : Address) : List Address := net.connected gid node ++ net.kept gid node

/-- The nodes have all joined a group, each has peers, and these are among the nodes. -/
structure Joined (net : Network) (gid : Address) (nodes : Finset Address) : Prop where
  member : ∀ node ∈ nodes, ∃ g, net.groups node gid = some g ∧ g.gType = .join ∧ g.isolated = false
  inside : ∀ node ∈ nodes, ∀ peer ∈ net.peers gid node, peer ∈ nodes
  distinct : ∀ node ∈ nodes, (net.connected gid node).Nodup ∧ (net.kept gid node).Nodup

variable (cache : Finset (Address × CacheKey)) (skip : List Address)

theorem visit_send (b : Nat) (peers sent : List Address) :
    PSlice.visit (send skip) b peers sent = (sent ++ peers.filter (· ∉ skip),none) := by
  induction peers generalizing sent with
  | nil => simp [PSlice.visit]
  | cons peer peers ih =>
    rw [PSlice.visit,send]
    dsimp only
    rw [ih]
    by_cases skipped : peer ∈ skip <;> simp [skipped]

theorem visitAll_send (bins : List (List Address × Nat)) (sent : List Address) :
    (PSlice.visitAll (send skip) bins sent).1 = sent ++ (bins.map Prod.fst).flatten.filter (· ∉ skip) := by
  induction bins generalizing sent with
  | nil => simp [PSlice.visitAll]
  | cons bin bins ih =>
    rw [PSlice.visitAll,visit_send]
    rw [ih]
    simp

variable {node : Address}

theorem Joined.receivers {net : Network} {gid : Address} {nodes : Finset Address} (joined : Joined net gid nodes)
    (inside : node ∈ nodes) (skip : List Address) :
    net.receivers node gid skip = (net.peers gid node).filter (· ∉ skip) := by
  obtain ⟨g,found,_,peers⟩ := joined.member node inside
  simp only [Network.receivers,found,peers,Bool.false_eq_true,if_false,PSlice.eachBin,visitAll_send,List.map_reverse,
    List.zipIdx_map_fst]
  simp [Network.peers,Network.connected,Network.kept,found]

/-! ### The part of one message -/

def Task.info : Task → MulticastMsg
  | .onMulticast _ _ info | .notify _ _ info | .multicast _ info _ | .sendData _ info _ => info

/-- A task as a task of `Flooding`. -/
def Task.shape : Task → Flooding.Task Address
  | .onMulticast node peer _ => .receive node peer
  | .notify node peer _ => .accept node peer
  | .multicast node _ skip => .forward node skip
  | .sendData node _ addresses => .send node addresses

def Task.view (key : Key) (task : Task) : Option (Flooding.Task Address) :=
  if task.info.key = key then some task.shape else none

def seen (cache : Finset (Address × CacheKey)) (key : CacheKey) : Finset Address :=
  (cache.filter (·.2 = key)).image Prod.fst

def State.view (key : Key) (s : State) : Flooding.State Address where
  received := seen s.cache (.onMulticast key)
  forwarded := seen s.cache (.multicast key)
  tasks := (s.tasks.filterMap (Task.view key) : List (Flooding.Task Address))
  accepted := (s.notified.filter (·.2.key = key)).map Prod.fst
  forwards := (s.forwards.filter (·.2.key = key)).map Prod.fst
  sends := (s.sends.filter (·.2.2.key = key)).map (fun sent => (sent.1,sent.2.1))

theorem mem_seen {cache : Finset (Address × CacheKey)} {key : CacheKey} :
    node ∈ seen cache key ↔ (node,key) ∈ cache := by
  simp [seen]

theorem seen_insert (node : Address) (key : CacheKey) :
    seen (insert (node,key) cache) key = insert node (seen cache key) := by
  ext other
  simp [mem_seen]

theorem seen_insert_of_ne (node : Address) {key key' : CacheKey} (ne : key ≠ key') :
    seen (insert (node,key) cache) key' = seen cache key' := by
  ext other
  simp [mem_seen,ne.symm]

variable {task : Task}

section
variable {key : Key} (s : State)

theorem view_push (same : task.info.key = key) : (s.push task).view key = (s.view key).add task.shape := by
  simp [State.view,State.push,Flooding.State.add,Task.view,same]

theorem view_push_of_ne (other : task.info.key ≠ key) : (s.push task).view key = s.view key := by
  simp [State.view,State.push,Task.view,other]

theorem view_erase (key : Key) {s : State} {i : Nat} (found : s.tasks[i]? = some task) :
    (({ s with tasks := s.tasks.eraseIdx i } : State).push task).view key = s.view key := by
  obtain ⟨bound,rfl⟩ := List.getElem?_eq_some_iff.mp found
  have same : ((s.tasks[i] :: s.tasks.eraseIdx i).filterMap (Task.view key)).Perm (s.tasks.filterMap (Task.view key)) :=
    (List.getElem_cons_eraseIdx_perm bound).filterMap _
  simp only [State.view,State.push,Multiset.coe_eq_coe.mpr same]

end

/-! ### Doing a task -/

variable {info : MulticastMsg}

theorem view_forward_of_ne {net : Network} (node : Address) (skip : List Address) (s : State) {key : Key}
    (other : info.key ≠ key) : (net.forward node info skip s).view key = s.view key := by
  unfold Network.forward
  split_ifs
  · rfl
  · rw [view_push_of_ne _ (by exact other)]
    simp [State.view,State.logForward,State.remember,other,seen_insert_of_ne]

section
variable {net : Network} {gid : Address} {graph : Flooding.Graph Address}

/-- The edges of a graph are those of the group. -/
structure Depicts (net : Network) (gid : Address) (graph : Flooding.Graph Address) : Prop where
  joined : Joined net gid graph.nodes
  edges : graph.peers = net.peers gid

theorem view_forward (depicts : Depicts net gid graph) (inside : node ∈ graph.nodes) (group : info.gid = gid)
    {skip : List Address} (s : State) :
    (net.forward node info skip s).view info.key = Flooding.perform graph (s.view info.key) (.forward node skip) := by
  have filter : node ∈ (s.view info.key).forwarded ↔ (node,.multicast info.key) ∈ s.cache := mem_seen
  rw [Network.forward,Flooding.perform]
  by_cases done : (node,.multicast info.key) ∈ s.cache
  · rw [if_pos done,if_pos (filter.mpr done)]
  · rw [if_neg done,if_neg (fun h => done (filter.mp h)),view_push _ (by rfl),group,
      depicts.joined.receivers inside skip,depicts.edges]
    simp [State.view,State.logForward,State.remember,Flooding.State.add,Task.shape,seen_insert,seen_insert_of_ne]

theorem view_onMulticast (node peer : Address) (start : graph.origin = info.origin) (s : State) :
    (onMulticast node peer info s).view info.key = Flooding.perform graph (s.view info.key) (.receive node peer) := by
  have filter : node ∈ (s.view info.key).received ↔ (node,.onMulticast info.key) ∈ s.cache := mem_seen
  rw [onMulticast,Flooding.perform,start]
  by_cases had : (node,.onMulticast info.key) ∈ s.cache
  · rw [if_pos had,if_pos (filter.mpr had)]
  rw [if_neg had,if_neg (fun h => had (filter.mp h))]
  by_cases own : info.origin = node
  · rw [if_pos own,if_pos own.symm]
    simp [State.view,State.remember,seen_insert,seen_insert_of_ne]
  · rw [if_neg own,if_neg (Ne.symm own),view_push _ (by rfl)]
    simp [State.view,State.remember,Flooding.State.add,Task.shape,seen_insert,seen_insert_of_ne]

theorem stamp_of_ne (stamped : info.origin ≠ []) (now : Int) (node : Address) (s : State) :
    stamp now node info s = (info,s) := if_neg stamped

/-- Doing a task about the message is doing the task of `Flooding` in its view. -/
theorem view_perform (depicts : Depicts net gid graph) (now : Int) {s : State}
    (inside : task.shape.node ∈ graph.nodes) (group : task.info.gid = gid) (start : graph.origin = task.info.origin)
    (stamped : task.info.origin ≠ []) :
    (net.perform now task s).view task.info.key = Flooding.perform graph (s.view task.info.key) task.shape := by
  cases task with
  | onMulticast node peer info => exact view_onMulticast node peer start s
  | notify node peer info =>
    obtain ⟨g,found,join,_⟩ := depicts.joined.member node inside
    have group : info.gid = gid := group
    simp only [Network.perform,Network.notify,group,found,join,if_true]
    rw [view_push _ (by rfl),Task.shape,Flooding.perform]
    simp [State.view,State.logNotified,Flooding.State.add,Task.shape,Task.info,Message.key,MulticastMsg.key]
  | multicast node info skip =>
    have known : info.origin ≠ [] := stamped
    simp only [Network.perform,Network.multicast,stamp_of_ne known]
    exact view_forward depicts inside group s
  | sendData node info addresses =>
    cases addresses with
    | nil => rfl
    | cons address addresses =>
      simp only [Network.perform]
      rw [view_push _ (by rfl),view_push _ (by rfl)]
      simp [Flooding.perform,State.view,State.logSend,Flooding.State.add,Task.shape,Task.info]

end

section
variable (net : Network)

theorem view_perform_of_ne (now : Int) {s : State} {key : Key} (other : task.info.key ≠ key)
    (stamped : task.info.origin ≠ []) : (net.perform now task s).view key = s.view key := by
  cases task with
  | onMulticast node peer info =>
    have others : info.key ≠ key := other
    simp only [Network.perform,onMulticast]
    split_ifs
    · rfl
    · simp [State.view,State.remember,others,seen_insert_of_ne]
    · rw [view_push_of_ne _ (by exact other)]
      simp [State.view,State.remember,others,seen_insert_of_ne]
  | notify node peer info =>
    have others : (info.origin,info.id) ≠ key := other
    simp only [Network.perform,Network.notify]
    rw [view_push_of_ne _ (by exact other)]
    cases net.groups node info.gid with
    | none => rfl
    | some g => dsimp only; split_ifs <;> simp [State.view,State.logNotified,Message.key,others]
  | multicast node info skip =>
    have known : info.origin ≠ [] := stamped
    simp only [Network.perform,Network.multicast,stamp_of_ne known]
    exact view_forward_of_ne node skip s other
  | sendData node info addresses =>
    have others : info.key ≠ key := other
    cases addresses with
    | nil => rfl
    | cons address addresses =>
      simp only [Network.perform]
      rw [view_push_of_ne _ (by exact other),view_push_of_ne _ (by exact other)]
      simp [State.view,State.logSend,others]

/-! ### Where the tasks come from -/

/-- A task is about a message that was stamped, or starts one at a node. -/
def Task.Traced (originated : List MulticastMsg) (task : Task) : Prop :=
  task.info ∈ originated ∧ task.info.origin ≠ [] ∨
    ∃ node info, task = .multicast node info [] ∧ info.origin = [] ∧ node ≠ []

/-- The tasks are traced, and the messages that were stamped have an origin. -/
structure State.Traced (s : State) : Prop where
  tasks : ∀ task ∈ s.tasks, task.Traced s.originated
  origins : ∀ info ∈ s.originated, info.origin ≠ []

/-- An overlay address is a hash, so the node that starts a message has one. -/
def Event.Named : Event → Prop
  | .originate node _ _ => node ≠ []
  | .advance _ _ => True

theorem forward_originated (node : Address) (info : MulticastMsg) (skip : List Address) (s : State) :
    (net.forward node info skip s).originated = s.originated := by
  unfold Network.forward
  split_ifs <;> rfl

theorem forward_tasks (node : Address) {info : MulticastMsg} (skip : List Address) (s : State) :
    ∀ task ∈ (net.forward node info skip s).tasks, task ∈ s.tasks ∨ task.info = info := by
  unfold Network.forward
  split_ifs
  · exact fun task pending => .inl pending
  intro task pending
  refine (List.mem_cons.mp pending).symm.imp_right ?_
  rintro rfl
  rfl

theorem perform_stamped (now : Int) (s : State) (stamped : task.info.origin ≠ []) :
    (net.perform now task s).originated = s.originated ∧
      ∀ other ∈ (net.perform now task s).tasks, other ∈ s.tasks ∨ other.info = task.info := by
  cases task with
  | onMulticast node peer info =>
    simp only [Network.perform,onMulticast]
    split_ifs
    · exact ⟨rfl,fun other pending => .inl pending⟩
    · exact ⟨rfl,fun other pending => .inl pending⟩
    · refine ⟨rfl,fun other pending => (List.mem_cons.mp pending).symm.imp_right ?_⟩
      rintro rfl
      rfl
  | notify node peer info =>
    have kept : (net.perform now (.notify node peer info) s).originated = s.originated ∧
        (net.perform now (.notify node peer info) s).tasks = .multicast node info [peer] :: s.tasks := by
      simp only [Network.perform,Network.notify]
      cases net.groups node info.gid with
      | none => exact ⟨rfl,rfl⟩
      | some g => dsimp only; split_ifs <;> exact ⟨rfl,rfl⟩
    refine ⟨kept.1,fun other pending => ?_⟩
    rw [kept.2] at pending
    refine (List.mem_cons.mp pending).symm.imp_right ?_
    rintro rfl
    rfl
  | multicast node info skip =>
    have known : info.origin ≠ [] := stamped
    simp only [Network.perform,Network.multicast,stamp_of_ne known]
    exact ⟨forward_originated net node info skip s,forward_tasks net node skip s⟩
  | sendData node info addresses =>
    cases addresses with
    | nil => exact ⟨rfl,fun other pending => .inl pending⟩
    | cons address addresses =>
      refine ⟨rfl,fun other pending => ?_⟩
      simp only [Network.perform,State.push,List.mem_cons] at pending
      rcases pending with rfl | rfl | old
      · exact .inr rfl
      · exact .inr rfl
      · exact .inl old

def stamped (now : Int) (node : Address) (info : MulticastMsg) (s : State) : MulticastMsg :=
  { info with createTime := now, origin := node, id := s.msgSeq node + 1 }

def State.stamped (s : State) (now : Int) (node : Address) (info : MulticastMsg) : State :=
  { s with
    msgSeq := Function.update s.msgSeq node (s.msgSeq node + 1)
    originated := Multicast.stamped now node info s :: s.originated }

theorem perform_fresh {now : Int} {node : Address} (fresh : info.origin = []) (s : State) :
    net.perform now (.multicast node info []) s =
      net.forward node (stamped now node info s) [] (s.stamped now node info) := by
  simp only [Network.perform,Network.multicast,stamp,if_pos fresh]
  rfl

end

theorem Task.Traced.mono {originated originated' : List MulticastMsg} (more : originated ⊆ originated')
    (traced : task.Traced originated) : task.Traced originated' :=
  traced.imp_left (fun known => ⟨more known.1,known.2⟩)

theorem originated_perform (net : Network) (now : Int) (s : State) (traced : task.Traced s.originated) :
    s.originated ⊆ (net.perform now task s).originated := by
  rcases traced with ⟨_,origin⟩ | ⟨node,info,rfl,fresh,_⟩
  · rw [(perform_stamped net now s origin).1]
    exact List.Subset.refl _
  · rw [perform_fresh net fresh,forward_originated]
    exact List.subset_cons_self _ _

variable {s : State}

theorem State.Traced.perform (net : Network) (now : Int) (traced : s.Traced) (head : task.Traced s.originated) :
    (net.perform now task s).Traced := by
  have more := originated_perform net now s head
  rcases head with ⟨known,origin⟩ | ⟨node,info,rfl,fresh,name⟩
  · obtain ⟨same,new⟩ := perform_stamped net now s origin
    refine ⟨fun other pending => ?_,same.symm ▸ traced.origins⟩
    rcases new other pending with old | about
    · exact (traced.tasks other old).mono more
    · exact .inl ⟨about ▸ more known,about ▸ origin⟩
  rw [perform_fresh net fresh] at more ⊢
  refine ⟨fun other pending => ?_,?_⟩
  · rcases forward_tasks net node [] _ other pending with old | about
    · exact (traced.tasks other old).mono more
    · rw [forward_originated]
      exact .inl ⟨about ▸ List.mem_cons_self,about ▸ name⟩
  rw [forward_originated]
  intro other known
  rcases List.mem_cons.mp known with rfl | old
  · exact name
  · exact traced.origins other old

/-! ### The simulation -/

/-- A message that was started in a group, and a graph with the edges of the group. -/
structure Floods (net : Network) (graph : Flooding.Graph Address) (m : MulticastMsg) : Prop where
  depicts : Depicts net m.gid graph
  start : graph.origin = m.origin
  named : m.origin ≠ []

/-- Whether an event goes on with a task about a message. -/
def Event.concerns (key : Key) (s : State) : Event → Bool
  | .advance i _ => (s.tasks[i]?).any (·.info.key = key)
  | .originate _ _ _ => false

section
variable {net : Network} {graph : Flooding.Graph Address} {m : MulticastMsg}

/-- What is about the message: nothing changes, the message is started, or a task of it is done. -/
inductive Simulates (graph : Flooding.Graph Address) (m : MulticastMsg) (s s' : State) : Bool → Prop where
  | idle (same : s'.view m.key = s.view m.key) (old : m ∈ s'.originated → m ∈ s.originated) : Simulates graph m s s' false
  | start (new : s'.view m.key = Flooding.perform graph (s.view m.key) (.forward graph.origin [])) :
    Simulates graph m s s' false
  | work (state : Flooding.State Address) (task : Flooding.Task Address) (before : s.view m.key = state.add task)
    (new : s'.view m.key = Flooding.perform graph state task) (old : s'.originated = s.originated) :
    Simulates graph m s s' true

theorem simulates_fresh (floods : Floods net graph m) {now : Int} (fresh : info.origin = []) {s s₀ : State}
    (views : s₀.view m.key = s.view m.key) (same : s₀.originated = s.originated)
    (unique : ∀ other ∈ (net.perform now (.multicast node info []) s₀).originated, other.key = m.key → other = m) :
    Simulates graph m s (net.perform now (.multicast node info []) s₀) false := by
  rw [perform_fresh net fresh] at unique ⊢
  rw [forward_originated] at unique
  by_cases ours : (stamped now node info s₀).key = m.key
  · have equal := unique _ List.mem_cons_self ours
    have home : node = graph.origin := by rw [floods.start,← equal]; rfl
    rw [equal,home]
    refine .start ?_
    rw [view_forward floods.depicts graph.origin_mem rfl,← views]
    rfl
  refine .idle ?_ ?_
  · rw [view_forward_of_ne node [] _ ours,← views]
    rfl
  intro known
  rw [forward_originated,← same] at *
  refine (List.mem_cons.mp known).resolve_left ?_
  rintro rfl
  exact ours rfl

theorem simulates (floods : Floods net graph m) (traced : s.Traced) (inv : Flooding.Invariant graph (s.view m.key))
    {e : Event} (unique : ∀ other ∈ (net.step s e).originated, other.key = m.key → other = m) :
    Simulates graph m s (net.step s e) (e.concerns m.key s) := by
  cases e with
  | originate node gid data =>
    refine .idle (view_push_of_ne s ?_) id
    intro equal
    exact floods.named (congrArg Prod.fst equal).symm
  | advance i now =>
    cases found : s.tasks[i]? with
    | none =>
      have same : net.step s (.advance i now) = s := by simp only [Network.step,found]
      have none : Event.concerns m.key s (.advance i now) = false := by simp [Event.concerns,found]
      rw [same,none]
      exact .idle rfl id
    | some task =>
      have next : net.step s (.advance i now) = net.perform now task { s with tasks := s.tasks.eraseIdx i } := by
        simp only [Network.step,found]
      have about : Event.concerns m.key s (.advance i now) = decide (task.info.key = m.key) := by
        simp [Event.concerns,found]
      have views := view_erase m.key found
      rw [next] at unique ⊢
      rw [about]
      rcases traced.tasks task (List.mem_of_getElem? found) with ⟨known,origin⟩ | ⟨node,info,rfl,fresh,_⟩
      · have old := (perform_stamped net now { s with tasks := s.tasks.eraseIdx i } origin).1
        by_cases ours : task.info.key = m.key
        · have equal : task.info = m := unique task.info (by rw [old]; exact known) ours
          have before := (view_push { s with tasks := s.tasks.eraseIdx i } ours).symm.trans views
          have inside := (before.symm ▸ inv.sound).head.2
          rw [decide_eq_true ours]
          refine .work _ _ before.symm ?_ old
          rw [← ours]
          exact view_perform (equal ▸ floods.depicts) now inside rfl (equal ▸ floods.start) origin
        · rw [decide_eq_false ours]
          refine .idle ?_ (by rw [old]; exact id)
          rw [view_perform_of_ne net now ours origin,← views,view_push_of_ne _ ours]
      have other : (Task.multicast node info []).info.key ≠ m.key := by
        intro equal
        exact floods.named ((congrArg Prod.fst equal).symm.trans fresh)
      rw [decide_eq_false other]
      exact simulates_fresh floods fresh ((view_push_of_ne _ other).symm.trans views) rfl unique

/-- The tasks are traced, the message floods its group, and it does so once it is stamped. -/
structure Tracks (graph : Flooding.Graph Address) (m : MulticastMsg) (s : State) : Prop where
  traced : s.Traced
  reachable : Flooding.Reachable graph (s.view m.key)
  started : m ∈ s.originated → graph.origin ∈ (s.view m.key).forwarded

theorem traced_initial : initial.Traced := ⟨by simp [initial],by simp [initial]⟩

theorem tracks_initial {graph : Flooding.Graph Address} (m : MulticastMsg) : Tracks graph m initial where
  traced := traced_initial
  reachable := .refl
  started := by simp [initial]

theorem State.Traced.step (net : Network) (traced : s.Traced) {e : Event} (named : e.Named) :
    (net.step s e).Traced ∧ s.originated ⊆ (net.step s e).originated := by
  cases e with
  | originate node gid data =>
    refine ⟨⟨fun task pending => ?_,traced.origins⟩,List.Subset.refl _⟩
    rcases List.mem_cons.mp pending with rfl | old
    · exact .inr ⟨node,_,rfl,rfl,named⟩
    · exact traced.tasks task old
  | advance i now =>
    simp only [Network.step]
    cases found : s.tasks[i]? with
    | none => exact ⟨traced,List.Subset.refl _⟩
    | some task =>
      have head := traced.tasks task (List.mem_of_getElem? found)
      have rest : State.Traced { s with tasks := s.tasks.eraseIdx i } :=
        ⟨fun other pending => traced.tasks other (List.mem_of_mem_eraseIdx pending),traced.origins⟩
      exact ⟨rest.perform net now head,originated_perform net now { s with tasks := s.tasks.eraseIdx i } head⟩

/-- How many events of a run go on with a task about a message. -/
def Network.work (net : Network) (key : Key) : State → List Event → Nat
  | _, [] => 0
  | s, e :: events => (e.concerns key s).toNat + net.work key (net.step s e) events

theorem Tracks.step (floods : Floods net graph m) (tracks : Tracks graph m s) {e : Event} (named : e.Named)
    (unique : ∀ other ∈ (net.step s e).originated, other.key = m.key → other = m) :
    Tracks graph m (net.step s e) ∧ Flooding.potential graph ((net.step s e).view m.key) + (e.concerns m.key s).toNat ≤
      Flooding.potential graph (s.view m.key) := by
  have traced := (tracks.traced.step net named).1
  have inv := tracks.reachable.invariant
  have simulated := simulates floods tracks.traced inv unique
  generalize e.concerns m.key s = worked at simulated
  cases simulated with
  | idle same old => exact ⟨⟨traced,same ▸ tracks.reachable,fun known => same ▸ tracks.started (old known)⟩,by simp [same]⟩
  | start new =>
    have forwarded : graph.origin ∈ ((net.step s e).view m.key).forwarded := by
      rw [new]
      exact Flooding.mem_forwarded_perform.mpr (.inr ⟨[],rfl⟩)
    refine ⟨⟨traced,new ▸ tracks.reachable.tail (.originate _),fun _ => forwarded⟩,?_⟩
    rw [new]
    exact Flooding.potential_originate
  | work state task before new old =>
    have reachable := before ▸ tracks.reachable
    refine ⟨⟨traced,new ▸ reachable.tail (.advance state task),fun known => ?_⟩,?_⟩
    · have forwarded := tracks.started (old ▸ known)
      rw [before] at forwarded
      rw [new]
      exact Flooding.mem_forwarded_perform.mpr (.inl forwarded)
    · rw [new,before]
      exact Flooding.potential_perform reachable.invariant.sound.head.2

theorem State.Traced.run (net : Network) (traced : s.Traced) {events : List Event} (named : ∀ e ∈ events, e.Named) :
    (net.run s events).Traced ∧ s.originated ⊆ (net.run s events).originated := by
  induction events generalizing s with
  | nil => exact ⟨traced,List.Subset.refl _⟩
  | cons e events ih =>
    obtain ⟨next,more⟩ := traced.step net (named e List.mem_cons_self)
    obtain ⟨last,rest⟩ := ih next (fun other later => named other (List.mem_cons_of_mem _ later))
    exact ⟨last,List.Subset.trans more rest⟩

/-- A run keeps track of a message that no other was stamped like, and does not go on with it forever. -/
theorem Tracks.run (floods : Floods net graph m) (tracks : Tracks graph m s) {events : List Event}
    (named : ∀ e ∈ events, e.Named) (unique : ∀ other ∈ (net.run s events).originated, other.key = m.key → other = m) :
    Tracks graph m (net.run s events) ∧
      Flooding.potential graph ((net.run s events).view m.key) + net.work m.key s events ≤
        Flooding.potential graph (s.view m.key) := by
  induction events generalizing s with
  | nil => exact ⟨tracks,le_rfl⟩
  | cons e events ih =>
    have first := named e List.mem_cons_self
    have later : ∀ other ∈ events, other.Named := fun other later => named other (List.mem_cons_of_mem _ later)
    have next := tracks.traced.step net first
    obtain ⟨track,less⟩ := tracks.step floods first
      (fun other known => unique other ((next.1.run net later).2 known))
    obtain ⟨last,rest⟩ := ih track later unique
    refine ⟨last,?_⟩
    simp only [Network.work,Network.run,List.foldl_cons] at rest ⊢
    omega

def State.Settled (key : Key) (s : State) : Prop := ∀ task ∈ s.tasks, task.info.key ≠ key

instance (key : Key) (s : State) : Decidable (s.Settled key) :=
  inferInstanceAs (Decidable (∀ task ∈ s.tasks, task.info.key ≠ key))

def Event.isAdvance : Event → Bool
  | .advance _ _ => true
  | .originate _ _ _ => false

theorem view_quiet {key : Key} (settled : s.Settled key) : (s.view key).tasks = 0 := by
  have none : s.tasks.filterMap (Task.view key) = [] := by
    refine List.filterMap_eq_nil_iff.mpr (fun task pending => ?_)
    exact if_neg (settled task pending)
  simp [State.view,none]

theorem Tracks.settles (floods : Floods net graph m) (tracks : Tracks graph m s)
    (unique : ∀ other ∈ s.originated, other.key = m.key → other = m) :
    ∃ more : List Event, (∀ e ∈ more, e.isAdvance) ∧ (net.run s more).Settled m.key := by
  induction bound : Flooding.potential graph (s.view m.key) using Nat.strong_induction_on generalizing s with
  | _ n ih =>
    by_cases settled : s.Settled m.key
    · exact ⟨[],by simp,settled⟩
    simp only [State.Settled,not_forall,not_not] at settled
    obtain ⟨task,pending,ours⟩ := settled
    obtain ⟨i,found⟩ := List.mem_iff_getElem?.mp pending
    have concerned : Event.concerns m.key s (.advance i 0) = true := by simp [Event.concerns,found,ours]
    have stamped : task.info.origin ≠ [] := by
      intro fresh
      exact floods.named ((congrArg Prod.fst ours).symm.trans fresh)
    have same : (net.step s (.advance i 0)).originated = s.originated := by
      simp only [Network.step,found]
      exact (perform_stamped net 0 { s with tasks := s.tasks.eraseIdx i } stamped).1
    obtain ⟨track,less⟩ := tracks.step floods (e := .advance i 0) trivial (same ▸ unique)
    rw [concerned,Bool.toNat_true] at less
    obtain ⟨more,steps,quiet⟩ := ih _ (by omega) track (same ▸ unique) rfl
    exact ⟨.advance i 0 :: more,by simpa [Event.isAdvance] using steps,quiet⟩

end

/-! ### Delivery -/

def Joined.graph {net : Network} {gid : Address} {nodes : Finset Address} (joined : Joined net gid nodes)
    {origin : Address} (home : origin ∈ nodes) : Flooding.Graph Address where
  nodes := nodes
  origin := origin
  peers := net.peers gid
  origin_mem := home
  closed := joined.inside

/-- How often a node called `notifyMulticast` with a message. -/
def State.notifications (s : State) (key : Key) (node : Address) : Nat :=
  s.notified.countP (fun entry => entry.1 = node ∧ entry.2.key = key)

/-- How often a message went past the filter of `Multicast` at a node. -/
def State.forwardings (s : State) (key : Key) (node : Address) : Nat :=
  s.forwards.countP (fun entry => entry.1 = node ∧ entry.2.key = key)

def State.sendings (s : State) (key : Key) : Nat := s.sends.countP (·.2.2.key = key)

theorem count_nodes {α : Type} (l : List (Address × α)) (p : α → Prop) [DecidablePred p] (node : Address) :
    l.countP (fun entry => entry.1 = node ∧ p entry.2) =
      ((l.filter (fun entry => p entry.2)).map Prod.fst).count node := by
  rw [List.count,List.countP_map,List.countP_filter]
  simp [Bool.beq_eq_decide_eq]

theorem notifications_view (s : State) (key : Key) (node : Address) :
    s.notifications key node = (s.view key).accepted.count node := count_nodes s.notified (·.key = key) node

theorem forwardings_view (s : State) (key : Key) (node : Address) :
    s.forwardings key node = (s.view key).forwards.count node := count_nodes s.forwards (·.key = key) node

def edges (nodes : Finset Address) (peers : Address → List Address) : Finset (Σ _ : Address, Address) :=
  nodes.sigma (fun node => (peers node).toFinset)

theorem card_edges {nodes : Finset Address} {peers : Address → List Address}
    (distinct : ∀ node ∈ nodes, (peers node).Nodup) : (edges nodes peers).card = ∑ node ∈ nodes, (peers node).length := by
  rw [edges,Finset.card_sigma]
  exact Finset.sum_congr rfl (fun node inside => List.toFinset_card_of_nodup (distinct node inside))

theorem unique_of_count {l : List MulticastMsg} {m : MulticastMsg} (once : (l.map MulticastMsg.key).count m.key = 1)
    (known : m ∈ l) : ∀ other ∈ l, other.key = m.key → other = m := by
  intro other among same
  induction l with
  | nil => exact absurd among List.not_mem_nil
  | cons first l ih =>
    rw [List.map_cons,List.count_cons] at once
    rcases List.mem_cons.mp among with rfl | among' <;> rcases List.mem_cons.mp known with rfl | known'
    · rfl
    · have later : 0 < (l.map MulticastMsg.key).count m.key := List.count_pos_iff.mpr (List.mem_map_of_mem known')
      simp only [same,beq_self_eq_true,if_true] at once
      omega
    · have later : 0 < (l.map MulticastMsg.key).count m.key :=
        List.count_pos_iff.mpr (same ▸ List.mem_map_of_mem among')
      simp only [beq_self_eq_true,if_true] at once
      omega
    · refine ih ?_ known' among'
      have later : 0 < (l.map MulticastMsg.key).count m.key := List.count_pos_iff.mpr (List.mem_map_of_mem known')
      split at once <;> omega

/-- A message that is started once in a group reaches every node that its edges lead
    to. In every state of a run a node has passed it to `notifyMulticast` at most
    once, the origin never, it was forwarded by each node at most once and sent at
    most once along each edge, and only so many steps were about it. The steps that
    are left settle it, and then who it reaches has been notified. -/
theorem multicast_exactly_once (net : Network) (gid : Address) (nodes : Finset Address) (joined : Joined net gid nodes)
    (events : List Event) (named : ∀ e ∈ events, e.Named) (m : MulticastMsg) (group : m.gid = gid)
    (home : m.origin ∈ nodes) (known : m ∈ (net.run initial events).originated)
    (once : ((net.run initial events).originated.map MulticastMsg.key).count m.key = 1) :
    (∀ node, (net.run initial events).notifications m.key node ≤ 1) ∧
      (net.run initial events).notifications m.key m.origin = 0 ∧
      (∀ node, (net.run initial events).forwardings m.key node ≤ 1) ∧
      (net.run initial events).sendings m.key ≤
        (edges nodes (net.connected gid)).card + (edges nodes (net.kept gid)).card ∧
      net.work m.key initial events ≤ ∑ node ∈ nodes, (2 * (net.peers gid node).length + 3) ∧
      ((net.run initial events).Settled m.key → ∀ node, node ≠ m.origin →
        Relation.ReflTransGen (fun a b => b ∈ net.peers gid a) m.origin node →
        (net.run initial events).notifications m.key node = 1) ∧
      ∃ more : List Event, (∀ e ∈ more, e.isAdvance) ∧ (net.run initial (events ++ more)).Settled m.key := by
  subst group
  have floods : Floods net (joined.graph home) m :=
    ⟨⟨joined,rfl⟩,rfl,(traced_initial.run net named).1.origins m known⟩
  have unique := unique_of_count once known
  obtain ⟨tracks,less⟩ := (tracks_initial m).run floods named unique
  have inv := tracks.reachable.invariant
  simp only [notifications_view,forwardings_view]
  have once_each := List.nodup_iff_count_le_one.mp inv.accepted_nodup
  refine ⟨once_each,List.count_eq_zero.mpr inv.origin_not_accepted,
    List.nodup_iff_count_le_one.mp inv.forwards_nodup,?_,?_,?_,?_⟩
  · rw [card_edges (fun node inside => (joined.distinct node inside).1),
      card_edges (fun node inside => (joined.distinct node inside).2),← Finset.sum_add_distrib,
      State.sendings,List.countP_eq_length_filter]
    have sent := inv.sends_le
    simpa [State.view,Joined.graph,Network.peers] using sent
  · refine (Nat.le_add_left _ _).trans (less.trans (le_of_eq ?_))
    have all : Flooding.potential (joined.graph home) (initial.view m.key) =
        ∑ _ ∈ nodes, 2 + ∑ node ∈ nodes, (2 * (net.peers m.gid node).length + 1) := by
      simp [Flooding.potential,Flooding.reserve,State.view,initial,seen,Joined.graph]
    rw [all,← Finset.sum_add_distrib]
    exact Finset.sum_congr rfl (fun node _ => by omega)
  · intro settled node foreign path
    have reached := inv.accepted_of_quiet (view_quiet settled) (tracks.started known) foreign path
    exact le_antisymm (once_each node) (List.count_pos_iff.mpr reached)
  · obtain ⟨more,steps,settled⟩ := tracks.settles floods unique
    exact ⟨more,steps,by rwa [Network.run,List.foldl_append]⟩

def pair : Network where
  groups node gid :=
    if gid = [9] then
      some
        { gType := .join
          connectedPeers := ⟨node,[if node = [1] then [[2]] else [[1]]],by simp,by simp⟩
          keepPeers := PSlice.new 1 node (by simp) (by simp) }
    else none
  discover := fun _ g => g
  getForwardNodes := fun _ _ _ => []

theorem pair_joined : Joined pair [9] {[1],[2]} where
  member := fun node _ => ⟨_,rfl,rfl,by simp [Group.isolated,PSlice.length]; split_ifs <;> simp⟩
  inside := by decide
  distinct := by decide

theorem multicast_exactly_once_pair :
    (pair.run initial (.originate [1] [9] [7] :: List.replicate 7 (.advance 0 0))).notifications ([1],1) [2] = 1 := by
  have all := multicast_exactly_once pair [9] {[1],[2]} pair_joined
    (.originate [1] [9] [7] :: List.replicate 7 (.advance 0 0)) (by simp [Event.Named])
    { id := 1, createTime := 0, origin := [1], gid := [9], data := [7] } rfl (by decide) (by decide) (by decide)
  refine all.2.2.2.2.2.1 (by decide) [2] (by decide) (.single ?_)
  decide

/-- A node is told what was originated, unchanged and in a group that it has joined. -/
def Told (net : Network) (originated : List MulticastMsg) (r : Address × Message) : Prop :=
  ∃ info ∈ originated, (net.groups r.1 info.gid).any (·.gType = .join) ∧
    r.2 = ⟨info.id,info.createTime,info.gid,info.origin,info.data,r.2.sender⟩

theorem perform_notified (net : Network) (now : Int) (s : State) {task : Task} {r : Address × Message}
    (told : r ∈ (net.perform now task s).notified) :
    r ∈ s.notified ∨ ∃ peer info, task = .notify r.1 peer info ∧ Told net [info] r := by
  cases task with
  | onMulticast node peer info =>
    left
    simp only [Network.perform,onMulticast] at told
    split at told
    · exact told
    · split at told <;> exact told
  | notify node peer info =>
    simp only [Network.perform,Network.notify] at told
    split at told
    · rename_i g found
      split at told
      · rename_i joined
        rcases List.mem_cons.mp told with rfl | old
        · exact .inr ⟨peer,info,rfl,info,List.mem_singleton_self _,by simp [found,joined],rfl⟩
        · exact .inl old
      · exact .inl told
    · exact .inl told
  | multicast node info skip =>
    left
    simp only [Network.perform,Network.multicast,Network.forward,stamp] at told
    split at told <;> split at told <;> exact told
  | sendData node info addresses => cases addresses <;> exact .inl told

theorem told_step (net : Network) {s : State} (traced : s.Traced) (genuine : ∀ r ∈ s.notified, Told net s.originated r)
    {e : Event} (named : e.Named) : ∀ r ∈ (net.step s e).notified, Told net (net.step s e).originated r := by
  have more := (traced.step net named).2
  intro r told
  have before : r ∈ s.notified → Told net (net.step s e).originated r := by
    intro old
    obtain ⟨info,known,rest⟩ := genuine r old
    exact ⟨info,more known,rest⟩
  cases e with
  | originate node gid data => exact before told
  | advance i now =>
    simp only [Network.step] at told
    split at told
    · rename_i task found
      rcases perform_notified net now _ told with old | ⟨peer,info,rfl,new⟩
      · exact before old
      · rcases traced.tasks _ (List.mem_of_getElem? found) with ⟨known,-⟩ | ⟨_,_,other,-⟩
        · obtain ⟨_,mem,rest⟩ := new
          exact ⟨_,more (List.mem_singleton.mp mem ▸ known),rest⟩
        · cases other
    · exact before told

/-- Whatever the groups and the order of the steps, no node is told anything else. -/
theorem notified_genuine (net : Network) {events : List Event} (named : ∀ e ∈ events, e.Named) :
    ∀ r ∈ (net.run initial events).notified, Told net (net.run initial events).originated r := by
  induction events using List.reverseRecOn with
  | nil => exact nofun
  | append_singleton events e ih =>
    have before : ∀ e ∈ events, e.Named := fun e member => named e (List.mem_append_left _ member)
    rw [Network.run,List.foldl_append]
    exact told_step net (traced_initial.run net before).1 (ih before) (named e (by simp))

theorem notified_genuine_pair : let s := pair.run initial (.originate [1] [9] [7] :: List.replicate 7 (.advance 0 0))
    s.notified.length = 1 ∧ ∀ r ∈ s.notified, Told pair s.originated r :=
  ⟨by decide,notified_genuine pair (by simp [Event.Named])⟩

end FavorX.Multicast

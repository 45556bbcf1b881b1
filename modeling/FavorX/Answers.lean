import FavorX.Queues
import FavorX.Announcements

/-!
Answers about a file. A message says itself who answers and who had asked, and
nothing is looked up about its sender: while a file is searched for, any message
counts as the answer of the node that it names (`counted_iff`).
-/
namespace FavorX.Answers
open FiniteMaps Shed Texts Presence
open Queues (Search Queue pushAnswer)

/-- A node, with its search for each file. -/
structure Node where
  addr : Address
  searches : Address → Search
  chunkStore : Chunkstore

/-- The presence map is given in the order in which a loop over it goes. -/
structure ChunkInfoResp where
  rootCid : Address
  target : Address
  req : Address
  presence : List (List Char × Bytes)

namespace Node
variable (node : Node)

def withSearch (rootCid : Address) (s : Search) : Node :=
  { node with searches := Function.update node.searches rootCid s }

def withStore (chunkStore : Chunkstore) : Node := { node with chunkStore }

def updateDiscover (now : Int) (rootCid overlay : Address) (bv : Bytes) : Option Node :=
  match node.chunkStore.put now .discover rootCid [⟨overlay,0,bv.length * 8,bv⟩] with
  | (.error .panicked,_) => none
  | (_,chunkStore) => some (node.withStore chunkStore)

/-- A key of the answer that is no address panics. -/
def updateQueue (rootCid overlay : Address) (chunkInfo : List (List Char)) : Option Node :=
  match (node.searches rootCid).queue with
  | none => some node
  | some q =>
    if (pushAnswer (node.searches rootCid).self chunkInfo q).1 then
      some (node.withSearch rootCid (Queues.updateQueue overlay chunkInfo (node.searches rootCid)))
    else none

def doFindChunkInfo (now : Int) (rootCid : Address) : Node :=
  node.withSearch rootCid (Queues.queueProcess now (node.searches rootCid))

def removeTimeOutTrigger (rootCid overlay : Address) : Node :=
  node.withSearch rootCid
    { node.searches rootCid with trigger := (node.searches rootCid).trigger.erase overlay }

/-- Keep what a node says of itself while the file is searched for. -/
def discovers (now : Int) (rootCid overlay : Address) (chunkInfo : List (List Char × Bytes)) : Option Node :=
  match chunkInfo.lookup (encodeToString overlay) with
  | none => some node
  | some bv =>
    if (node.searches rootCid).pending then node.updateDiscover now rootCid overlay bv else some node

/-- What is done with an answer before the next nodes are asked. -/
def takeAnswer (now : Int) (rootCid overlay : Address) (chunkInfo : List (List Char × Bytes)) : Option Node := do
  let node ← (node.removeTimeOutTrigger rootCid overlay).discovers now rootCid overlay chunkInfo
  node.updateQueue rootCid overlay (chunkInfo.map Prod.fst)

def onFindChunkInfo (now : Int) (rootCid overlay : Address) (chunkInfo : List (List Char × Bytes)) : Option Node :=
  (node.takeAnswer now rootCid overlay chunkInfo).map (doFindChunkInfo · now rootCid)

/-- What a message with an answer makes of the node, none being a panic. -/
def handlerChunkInfoResp (now : Int) (resp : ChunkInfoResp) : Option Node :=
  if resp.req = node.addr then node.onFindChunkInfo now resp.rootCid resp.target resp.presence else some node

end Node
variable {node : Node}

/-! ### What panics -/

theorem setBytes_returns {bv : BitVector} (bs : Bytes) : bv.setBytes bs ≠ .error .panicked := by
  by_cases fits : bs.length ≤ bv.b.length
  · obtain ⟨set,run,_⟩ := Announcements.setBytes_fits fits
    rw [run]
    nofun
  · unfold BitVector.setBytes
    rw [if_pos (not_le.mp fits)]
    nofun

theorem newFromBytes_returns (b : Bytes) {l : Int} : BitVector.newFromBytes b l ≠ .error .panicked := by
  unfold BitVector.newFromBytes
  split
  · nofun
  · split <;> nofun

theorem bind_returns {α β : Type} {x : Except Err α} {f : α → Except Err β} (first : x ≠ .error .panicked)
    (rest : ∀ a, f a ≠ .error .panicked) : (x >>= f) ≠ .error .panicked := by
  cases x with
  | error e => exact fun panics => first (by simpa [bind,Except.bind] using panics)
  | ok a => exact rest a

theorem putDiscover_returns (m : Vectors) (now : Int) (rootCid overlay : Address) (b : Bytes) (len : Int) :
    putDiscover m now rootCid overlay b len ≠ .error .panicked := by
  unfold putDiscover
  split
  · split
    · exact bind_returns (newFromBytes_returns b) (fun bv => bind_returns (setBytes_returns _) (fun _ => nofun))
    · exact bind_returns (setBytes_returns b) (fun _ => nofun)
  · exact bind_returns (newFromBytes_returns b) (fun _ => nofun)

/-- The vectors of all but one node for one file are the same. -/
def Elsewhere (rootCid overlay : Address) (before after : Chunkstore) : Prop :=
  ∀ r o, ¬(r = rootCid ∧ o = overlay) → vectorAt after.discover r o = vectorAt before.discover r o

theorem updateDiscover_returns (node : Node) (now : Int) (rootCid overlay : Address) (bv : Bytes) :
    ∃ chunkStore, node.updateDiscover now rootCid overlay bv = some (node.withStore chunkStore) ∧
      Elsewhere rootCid overlay node.chunkStore chunkStore := by
  have returns := putDiscover_returns node.chunkStore.discover now rootCid overlay bv (bv.length * 8)
  unfold Node.updateDiscover Chunkstore.put Chunkstore.putOne
  cases made : putDiscover node.chunkStore.discover now rootCid overlay bv (bv.length * 8) with
  | ok data =>
    exact ⟨_,rfl,fun r o other => (vectorAt_insert ..).trans (if_neg other)⟩
  | error e =>
    cases e with
    | panicked => exact absurd made returns
    | _ => exact ⟨node.chunkStore,rfl,fun _ _ _ => rfl⟩

/-- All that an answer does before the queue is looked at. -/
theorem takeAnswer_eq (node : Node) (now : Int) (rootCid overlay : Address) (chunkInfo : List (List Char × Bytes)) :
    ∃ chunkStore, node.takeAnswer now rootCid overlay chunkInfo =
      ((node.removeTimeOutTrigger rootCid overlay).withStore chunkStore).updateQueue rootCid overlay
        (chunkInfo.map Prod.fst) ∧
      ((node.searches rootCid).pending = false → chunkStore = node.chunkStore) ∧
      Elsewhere rootCid overlay node.chunkStore chunkStore := by
  unfold Node.takeAnswer Node.discovers
  split
  · exact ⟨node.chunkStore,rfl,fun _ => rfl,fun _ _ _ => rfl⟩
  next bv _ =>
  split
  · next pending =>
    obtain ⟨chunkStore,put,elsewhere⟩ :=
      updateDiscover_returns (node.removeTimeOutTrigger rootCid overlay) now rootCid overlay bv
    refine ⟨chunkStore,by rw [put]; rfl,fun idle => ?_,elsewhere⟩
    simp [Node.removeTimeOutTrigger,Node.withSearch,idle] at pending
  · exact ⟨node.chunkStore,rfl,fun _ => rfl,fun _ _ _ => rfl⟩

theorem pushAnswer_ends {self : Address} {keys : List (List Char)} (hex : ∀ key ∈ keys, (decodeString key).isSome)
    (q : Queue) : (pushAnswer self keys q).1 = true := by
  fun_induction pushAnswer self keys q <;> simp_all

/-- An answer is taken if its keys are addresses or there is no search; in some
    order of its keys only then. -/
theorem handlerChunkInfoResp_iff (node : Node) (now : Int) (resp : ChunkInfoResp) :
    (∀ order, order.Perm resp.presence →
        (node.handlerChunkInfoResp now { resp with presence := order }).isSome) ↔
      (resp.req = node.addr → (node.searches resp.rootCid).queue.isSome →
        ∀ entry ∈ resp.presence, (decodeString entry.1).isSome) := by
  have queue : (node.removeTimeOutTrigger resp.rootCid resp.target).searches resp.rootCid =
      { node.searches resp.rootCid with
        trigger := (node.searches resp.rootCid).trigger.erase resp.target } := by
    simp [Node.removeTimeOutTrigger,Node.withSearch]
  constructor
  · intro returns mine searching entry member
    by_contra bad
    obtain ⟨q,known⟩ := Option.isSome_iff_exists.mp searching
    -- the loop may come to the bad key first
    have taken := returns _ (List.perm_cons_erase member).symm
    obtain ⟨chunkStore,run,_⟩ :=
      takeAnswer_eq node now resp.rootCid resp.target (entry :: resp.presence.erase entry)
    simp only [Node.handlerChunkInfoResp,mine,if_true,Node.onFindChunkInfo,run,Option.isSome_map] at taken
    simp [Node.updateQueue,Node.withStore,queue,known,pushAnswer,Option.not_isSome_iff_eq_none.mp bad] at taken
  intro good order perm
  unfold Node.handlerChunkInfoResp
  split
  · next mine =>
    obtain ⟨chunkStore,run,_⟩ := takeAnswer_eq node now resp.rootCid resp.target order
    simp only [Node.onFindChunkInfo,run,Option.isSome_map,Node.updateQueue,Node.withStore,queue]
    cases known : (node.searches resp.rootCid).queue with
    | none => rfl
    | some q =>
      have hex : ∀ key ∈ order.map Prod.fst, (decodeString key).isSome := by
        intro key member
        obtain ⟨entry,found,rfl⟩ := List.mem_map.mp member
        exact good mine (by rw [known]; rfl) entry (perm.mem_iff.mp found)
      simp only [pushAnswer_ends hex]
      rfl
  · rfl

/-! ### What counts as an answer -/

/-- The nodes that a round of requests asks. -/
def asks (s : Search) : List Address :=
  match s.queue with
  | none => []
  | some q =>
    if s.pending ∧ q.pulled.length + q.pulling.length < Queues.pullMax then
      q.unPull.take (Queues.pullingMax - q.pulling.length)
    else []

theorem queueProcess_asks (now : Int) (s : Search) :
    (Queues.queueProcess now s).queue = s.queue.map (·.moved (asks s).length) ∧
      (Queues.queueProcess now s).pending = s.pending := by
  unfold Queues.queueProcess asks
  cases known : s.queue with
  | none => simp [known]
  | some q =>
    have still : q.moved 0 = q := by simp [Queue.moved]
    dsimp only
    split
    · next idle => simp_all
    next pending =>
    split
    · next full => simp [known,not_lt.mpr full,still]
    next room =>
    split
    · next full => simp [known,Nat.sub_eq_zero_of_le full,still]
    · simp only [Queues.pull_eq,Option.map_some,and_true]
      rw [if_pos ⟨by simpa using pending,not_le.mp room⟩,List.length_take]

/-- A node, and the requests that were sent and are neither answered nor timed
    out, with the file and the node that is asked. -/
structure State where
  node : Node
  asked : List (Address × Address) := []

def State.ask (now : Int) (rootCid : Address) (st : State) : State :=
  ⟨st.node.doFindChunkInfo now rootCid,st.asked ++ (asks (st.node.searches rootCid)).map (rootCid,·)⟩

inductive Event
  | find (rootCid : Address) (overlays : List Address)
  | process (now : Int) (rootCid : Address)
  | tick (now : Int) (rootCid overlay : Address)
  | cancel (rootCid : Address)
  | response (now : Int) (resp : ChunkInfoResp)

def State.step (st : State) : Event → Option State
  | .find rootCid overlays =>
    some { st with node := st.node.withSearch rootCid (Queues.findChunkInfo overlays (st.node.searches rootCid)) }
  | .process now rootCid => some (st.ask now rootCid)
  | .tick now rootCid overlay => some
    { node := st.node.withSearch rootCid (Queues.triggerTimeOut now overlay (st.node.searches rootCid))
      asked :=
        if ((st.node.searches rootCid).trigger.lookup overlay).any (· + Queues.timeOut ≤ now) then
          st.asked.filter (· ≠ (rootCid,overlay))
        else st.asked }
  | .cancel rootCid =>
    some { st with node := st.node.withSearch rootCid (Queues.cancelFindChunkInfo (st.node.searches rootCid)) }
  | .response now resp =>
    if resp.req = st.node.addr then
      (st.node.takeAnswer now resp.rootCid resp.target resp.presence).map fun node =>
        State.ask now resp.rootCid ⟨node,st.asked.filter (· ≠ (resp.rootCid,resp.target))⟩
    else some st

/-- The state after some events, if none of them panics. -/
def State.run (st : State) (events : List Event) : Option State := events.foldlM State.step st

def start (addr : Address) (chunkStore : Chunkstore) : State := ⟨⟨addr,fun _ => { self := addr },chunkStore⟩,[]⟩

/-- What is known of a file from a node, or the nodes that have answered, change. -/
def Changed (rootCid overlay : Address) (node node' : Node) : Prop :=
  vectorAt node'.chunkStore.discover rootCid overlay ≠ vectorAt node.chunkStore.discover rootCid overlay ∨
    (node'.searches rootCid).queue.map (·.pulled) ≠ (node.searches rootCid).queue.map (·.pulled)

/-- A search that is pending has a queue. -/
def Queued (node : Node) : Prop := ∀ rootCid, (node.searches rootCid).pending = true → (node.searches rootCid).queue.isSome

variable {rootCid overlay : Address}

theorem queued_withSearch (queued : Queued node) {s : Search} (keeps : s.pending = true → s.queue.isSome) :
    Queued (node.withSearch rootCid s) := by
  intro other
  by_cases same : other = rootCid
  · subst same
    simpa [Node.withSearch] using keeps
  · simpa [Node.withSearch,same] using queued other

theorem queued_doFindChunkInfo (queued : Queued node) {now : Int} {rootCid : Address} :
    Queued (node.doFindChunkInfo now rootCid) := by
  refine queued_withSearch queued (fun pending => ?_)
  rw [(queueProcess_asks now _).2] at pending
  rw [(queueProcess_asks now _).1,Option.isSome_map]
  exact queued rootCid pending

theorem updateQueue_cases {node' : Node} {keys : List (List Char)}
    (run : node.updateQueue rootCid overlay keys = some node') :
    ((node.searches rootCid).queue = none ∧ node' = node) ∨
    ∃ q, (node.searches rootCid).queue = some q ∧
      (pushAnswer (node.searches rootCid).self keys q).1 = true ∧
      node' = node.withSearch rootCid (Queues.updateQueue overlay keys (node.searches rootCid)) := by
  unfold Node.updateQueue at run
  split at run
  · next idle => exact .inl ⟨idle,(Option.some.inj run).symm⟩
  next q known =>
  split at run
  · next ends => exact .inr ⟨q,known,ends,(Option.some.inj run).symm⟩
  · cases run

theorem queued_takeAnswer (queued : Queued node) {node' : Node} {now : Int} {chunkInfo : List (List Char × Bytes)}
    (run : node.takeAnswer now rootCid overlay chunkInfo = some node') : Queued node' := by
  obtain ⟨chunkStore,is,_⟩ := takeAnswer_eq node now rootCid overlay chunkInfo
  rw [is] at run
  have removed : Queued ((node.removeTimeOutTrigger rootCid overlay).withStore chunkStore) :=
    queued_withSearch queued (queued rootCid)
  rcases updateQueue_cases run with ⟨_,rfl⟩ | ⟨q,known,_,rfl⟩
  · exact removed
  · exact queued_withSearch removed (fun _ => by simp only [Queues.updateQueue,known]; rfl)

theorem queued_step {st st' : State} (queued : Queued st.node) {e : Event} (run : st.step e = some st') :
    Queued st'.node := by
  cases e with
  | find rootCid overlays =>
    cases run
    exact queued_withSearch queued (fun _ => rfl)
  | process now rootCid =>
    cases run
    exact queued_doFindChunkInfo queued
  | tick now rootCid overlay =>
    cases run
    refine queued_withSearch queued (fun pending => ?_)
    have kept : (Queues.triggerTimeOut now overlay (st.node.searches rootCid)).pending =
        (st.node.searches rootCid).pending := by
      unfold Queues.triggerTimeOut
      split
      · rfl
      · split
        · split <;> rfl
        · rfl
    rcases Queues.triggerTimeOut_cases with same | ⟨q,_,moved⟩
    · rw [same]
      exact queued rootCid (kept ▸ pending)
    · rw [moved]
      rfl
  | cancel rootCid =>
    cases run
    exact queued_withSearch queued nofun
  | response now resp =>
    simp only [State.step] at run
    split at run
    · obtain ⟨node',taken,rfl⟩ := Option.map_eq_some_iff.mp run
      exact queued_doFindChunkInfo (queued_takeAnswer queued taken)
    · cases run
      exact queued

theorem queued_run {events : List Event} {st st' : State} (queued : Queued st.node) (run : st.run events = some st') :
    Queued st'.node := by
  induction events generalizing st with
  | nil =>
    cases run
    exact queued
  | cons e events ih =>
    obtain ⟨next,first,rest⟩ := Option.bind_eq_some_iff.mp (show (st.step e).bind (State.run · events) = some st' from run)
    exact ih (queued_step queued first) rest

theorem pushAnswer_pulled (self : Address) (keys : List (List Char)) (q : Queue) :
    (pushAnswer self keys q).2.pulled = q.pulled := by
  fun_induction pushAnswer self keys q <;> simp_all

/-- What an answer for this node leaves: the node it names is listed among those
    that have answered if there is a search, nothing is kept if none is pending,
    and nothing changes for other files. -/
theorem response_cases {st st' : State} {now : Int} {resp : ChunkInfoResp} (mine : resp.req = st.node.addr)
    (taken : st.step (.response now resp) = some st') :
    (st'.node.searches resp.rootCid).queue.map (·.pulled) =
        (st.node.searches resp.rootCid).queue.map (·.pulled ++ [resp.target]) ∧
      ((st.node.searches resp.rootCid).pending = false → st'.node.chunkStore = st.node.chunkStore) ∧
      Elsewhere resp.rootCid resp.target st.node.chunkStore st'.node.chunkStore ∧
      ∀ r, r ≠ resp.rootCid → st'.node.searches r = st.node.searches r := by
  simp only [State.step,if_pos mine] at taken
  obtain ⟨node,run,rfl⟩ := Option.map_eq_some_iff.mp taken
  obtain ⟨chunkStore,is,idle,elsewhere⟩ := takeAnswer_eq st.node now resp.rootCid resp.target resp.presence
  rw [is] at run
  have kept : (st.node.removeTimeOutTrigger resp.rootCid resp.target).searches resp.rootCid =
      { st.node.searches resp.rootCid with
        trigger := (st.node.searches resp.rootCid).trigger.erase resp.target } := by
    simp [Node.removeTimeOutTrigger,Node.withSearch]
  have asked : ∀ s : Search, (Queues.queueProcess now s).queue.map (·.pulled) = s.queue.map (·.pulled) := by
    intro s
    rw [(queueProcess_asks now s).1,Option.map_map]
    rfl
  simp only [State.ask,Node.doFindChunkInfo,Node.withSearch,Function.update_self,asked]
  rcases updateQueue_cases run with ⟨none,rfl⟩ | ⟨q,known,ends,rfl⟩
  · simp only [Node.withStore,kept] at none
    exact ⟨by simp [Node.withStore,kept,none],idle,elsewhere,fun r other => by
      simp [Node.withStore,Node.removeTimeOutTrigger,Node.withSearch,other]⟩
  simp only [Node.withStore,kept] at known ends
  refine ⟨?_,idle,elsewhere,fun r other => by
    simp [Node.withStore,Node.removeTimeOutTrigger,Node.withSearch,other]⟩
  have pulled := pushAnswer_pulled (st.node.searches resp.rootCid).self (resp.presence.map Prod.fst) q
  simp only [Node.withStore,Node.withSearch,kept,Function.update_self,Queues.updateQueue,known,Option.map_some,
    Queue.answered]
  split
  · next failed => simp [failed] at ends
  · next q' pushed =>
    rw [pushed] at pulled
    rw [pulled]

/-- In every run a message changes what is known from the node that it names, or
    the nodes that have answered, for no file but one that this node has asked
    that node about and waits for, if and only if the message is not for this
    node, is about such a file, or is about one that is not searched for. -/
theorem counted_iff (addr : Address) (chunkStore : Chunkstore) (events : List Event) (st st' : State)
    (reached : (start addr chunkStore).run events = some st) (now : Int) (resp : ChunkInfoResp)
    (taken : st.step (.response now resp) = some st') :
    (∀ rootCid, Changed rootCid resp.target st.node st'.node → (rootCid,resp.target) ∈ st.asked) ↔
      (resp.req = st.node.addr →
        (resp.rootCid,resp.target) ∈ st.asked ∨ (st.node.searches resp.rootCid).queue = none) := by
  have first : Queued (start addr chunkStore).node := fun _ => nofun
  have queued := queued_run first reached
  constructor
  · intro counts mine
    obtain ⟨pulled,_⟩ := response_cases mine taken
    cases known : (st.node.searches resp.rootCid).queue with
    | none => exact .inr rfl
    | some q =>
      refine .inl (counts resp.rootCid (.inr ?_))
      rw [pulled,known]
      simp
  intro expected rootCid changed
  by_cases mine : resp.req = st.node.addr
  · obtain ⟨pulled,idle,elsewhere,others⟩ := response_cases mine taken
    by_cases same : rootCid = resp.rootCid
    · subst same
      refine (expected mine).resolve_right (fun none => ?_)
      have notPending : (st.node.searches resp.rootCid).pending = false := by
        cases pending : (st.node.searches resp.rootCid).pending with
        | false => rfl
        | true => simpa [none] using queued _ pending
      rcases changed with vector | list
      · exact vector (by rw [idle notPending])
      · exact list (by rw [pulled,none]; rfl)
    · rcases changed with vector | list
      · exact absurd (elsewhere rootCid resp.target (fun both => same both.1)) vector
      · exact absurd (by rw [others rootCid same]) list
  · simp only [State.step,if_neg mine,Option.some.injEq] at taken
    subst taken
    exact absurd changed (by simp [Changed])

def sampleEvents : List Event := [.find [1] [[2]],.process 0 [1]]

def sampleState : State := ((start [9] {}).run sampleEvents).get rfl

def sampleResp (target : Address) : ChunkInfoResp := ⟨[1],target,[9],[(encodeToString target,[3])]⟩

theorem counted_asked : ∃ st', sampleState.step (.response 1 (sampleResp [2])) = some st' ∧
    ∀ rootCid, Changed rootCid [2] sampleState.node st'.node → (rootCid,[2]) ∈ sampleState.asked :=
  ⟨_,rfl,(counted_iff [9] {} sampleEvents sampleState _ rfl 1 (sampleResp [2]) rfl).mpr (fun _ => .inl (by decide))⟩

/-- A message names a node that was never asked. What it says is kept for that
    node, and the node counts as one that has answered. -/
theorem unasked_counted : ∃ st', sampleState.step (.response 1 (sampleResp [3])) = some st' ∧
    ([1],[3]) ∉ sampleState.asked ∧
    vectorAt sampleState.node.chunkStore.discover [1] [3] = none ∧
    (vectorAt st'.node.chunkStore.discover [1] [3]).map (·.bit) = some ⟨8,[3]⟩ ∧
    (st'.node.searches [1]).queue.map (·.pulled) = some [[3]] :=
  ⟨_,rfl,by decide,rfl,by decide,by decide⟩

end FavorX.Answers

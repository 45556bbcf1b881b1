import FavorX.Texts
import FavorX.Shed

/-!
The queue of nodes that are asked about a file. A node waits (`unPull`), is being asked (`pulling`)
and has answered (`pulled`); never more than `pullingMax` are being asked. Answers and timeouts do
not look where the node is (`timed_out_twice`); no node is in two places as long as they are
expected (`queue_discipline`).
-/
namespace FavorX.Queues
open FiniteMaps Shed Texts

def pullMax : Nat := 200
def pullingMax : Nat := 10
def pullerMax : Nat := 1000
/-- The seconds after which a request has timed out. -/
def timeOut : Int := 30

structure Queue where
  unPull : List Address := []
  pulling : List Address := []
  pulled : List Address := []
  deriving DecidableEq

/-- Take a node out of a list. The element after one that is removed is not
    looked at. -/
def popNode (overlay : Address) : List Address → List Address
  | [] => []
  | x :: qu =>
    if x = overlay then
      match qu with
      | [] => []
      | y :: qu => y :: popNode overlay qu
    else x :: popNode overlay qu

def Queue.isExists (q : Queue) (n : Address) : Bool := n ∈ q.pulled || n ∈ q.pulling || n ∈ q.unPull

/-- What a node keeps for the search of one file: the queue if there is a search,
    whether the search is pending, and when each node was asked. The file's
    address is not the zero address, for which no timeouts are looked up. -/
structure Search where
  self : Address
  queue : Option Queue := none
  pending : Bool := false
  trigger : Map Address Int := ∅

/-- Put the nodes that are not in the queue yet among those that wait. -/
def pushUnknown : List Address → Queue → Queue
  | [], q => q
  | n :: overlays, q =>
    if q.isExists n then pushUnknown overlays q else pushUnknown overlays { q with unPull := q.unPull ++ [n] }

def findChunkInfo (overlays : List Address) (s : Search) : Search :=
  { s with pending := true, queue := some (pushUnknown overlays (s.queue.getD {})) }

/-- Move nodes from the waiting ones to those that are asked, one at a time, and
    note the time for each. -/
def pull (now : Int) : Nat → Queue × Map Address Int → Queue × Map Address Int
  | 0, s => s
  | n + 1, (q,trigger) =>
    match q.unPull with
    | [] => (q,trigger)
    | unNode :: qu =>
      pull now n ({ q with unPull := qu, pulling := q.pulling ++ [unNode] },trigger.insert unNode now)

def queueProcess (now : Int) (s : Search) : Search :=
  match s.queue with
  | none => s
  | some q =>
    if !s.pending then s
    else if pullMax ≤ q.pulled.length + q.pulling.length then s
    else if pullingMax ≤ q.pulling.length then s
    else
      let n := min (pullingMax - q.pulling.length) q.unPull.length
      let r := pull now n (q,s.trigger)
      { s with queue := some r.1, trigger := r.2 }

/-- Put the nodes of an answer among those that wait, in the order in which the
    answer's map yields them, and tell whether the loop came to its end: a key
    that is no address panics. -/
def pushAnswer (self : Address) : List (List Char) → Queue → Bool × Queue
  | [], q => (true,q)
  | hex :: chunkInfo, q =>
    match decodeString hex with
    | none => (false,q)
    | some n =>
      if n = self then pushAnswer self chunkInfo q
      else if pullerMax ≤ q.unPull.length then (true,q)
      else if q.isExists n then pushAnswer self chunkInfo q
      else pushAnswer self chunkInfo { q with unPull := q.unPull ++ [n] }

def Queue.answered (self overlay : Address) (chunkInfo : List (List Char)) (q : Queue) : Queue :=
  match pushAnswer self chunkInfo q with
  | (false,q) => q
  | (true,q) => { q with pulling := popNode overlay q.pulling, pulled := q.pulled ++ [overlay] }

def updateQueue (overlay : Address) (chunkInfo : List (List Char)) (s : Search) : Search :=
  { s with queue := s.queue.map (Queue.answered s.self overlay chunkInfo) }

/-- An answer takes the time of the request away before it is looked at. -/
def onFindChunkInfo (overlay : Address) (chunkInfo : List (List Char)) (s : Search) : Search :=
  updateQueue overlay chunkInfo { s with trigger := s.trigger.erase overlay }

/-- One tick of the timer, which found a node that was asked too long ago. The
    time of the request stays when there is a queue. -/
def triggerTimeOut (now : Int) (overlay : Address) (s : Search) : Search :=
  match s.trigger.lookup overlay with
  | none => s
  | some t =>
    if t + timeOut ≤ now then
      match s.queue with
      | some q => { s with queue := some { q with pulling := popNode overlay q.pulling, unPull := q.unPull ++ [overlay] } }
      | none => { s with trigger := s.trigger.erase overlay }
    else s

def cancelFindChunkInfo (s : Search) : Search := { s with queue := none, pending := false }

inductive Event
  | find (overlays : List Address)
  | process (now : Int)
  | answer (overlay : Address) (chunkInfo : List (List Char))
  | tick (now : Int) (overlay : Address)
  | cancel

def handle (s : Search) : Event → Search
  | .find overlays => findChunkInfo overlays s
  | .process now => queueProcess now s
  | .answer overlay chunkInfo => onFindChunkInfo overlay chunkInfo s
  | .tick now overlay => triggerTimeOut now overlay s
  | .cancel => cancelFindChunkInfo s

def run (s : Search) (events : List Event) : Search := events.foldl handle s

def Queue.nodes (q : Queue) : List Address := q.unPull ++ q.pulling ++ q.pulled

/-- An answer comes from a node that is being asked, or from one the queue does
    not know and the answer does not name; a timeout is one of a node that does
    not wait and has not answered. -/
def Event.Expected (s : Search) : Event → Prop
  | .answer overlay chunkInfo => ∀ q, s.queue = some q → overlay ∉ q.unPull ∧ overlay ∉ q.pulled ∧
      (overlay ∈ q.pulling ∨ some overlay ∉ chunkInfo.map decodeString)
  | .tick _ overlay => ∀ q, s.queue = some q → overlay ∉ q.unPull ∧ overlay ∉ q.pulled
  | _ => True

/-- Every event of a run is expected when it happens. -/
def AllExpected : Search → List Event → Prop
  | _, [] => True
  | s, e :: events => e.Expected s ∧ AllExpected (handle s e) events

/-- At most `pullingMax` nodes are being asked. -/
def Bounded (s : Search) : Prop := ∀ q, s.queue = some q → q.pulling.length ≤ pullingMax

theorem length_popNode (overlay : Address) (qu : List Address) : (popNode overlay qu).length ≤ qu.length := by
  fun_induction popNode overlay qu with
  | case1 => simp
  | case2 => simp
  | case3 y qu ih | case4 x qu other ih =>
    simp only [List.length_cons]
    omega

theorem pushUnknown_pulling (overlays : List Address) (q : Queue) : (pushUnknown overlays q).pulling = q.pulling := by
  fun_induction pushUnknown overlays q with
  | case1 => rfl
  | case2 n overlays q known ih => exact ih
  | case3 n overlays q new ih => exact ih

/-- The queue with its first waiting nodes moved to the end of those that are
    asked. -/
def Queue.moved (n : Nat) (q : Queue) : Queue :=
  { q with unPull := q.unPull.drop n, pulling := q.pulling ++ q.unPull.take n }

def Queue.timedOut (overlay : Address) (q : Queue) : Queue :=
  { q with pulling := popNode overlay q.pulling, unPull := q.unPull ++ [overlay] }

theorem pull_eq (now : Int) (n : Nat) (q : Queue) (trigger : Map Address Int) :
    (pull now n (q,trigger)).1 = q.moved n := by
  induction n generalizing q trigger with
  | zero => simp [pull,Queue.moved]
  | succ n ih =>
    obtain ⟨unPull,pulling,pulled⟩ := q
    cases unPull with
    | nil => simp [pull,Queue.moved]
    | cons unNode qu => simp [pull,ih,Queue.moved]

theorem queueProcess_cases {now : Int} (s : Search) :
    (queueProcess now s).queue = s.queue ∨ ∃ q n, s.queue = some q ∧ q.pulling.length + n ≤ pullingMax ∧
      (queueProcess now s).queue = some (q.moved n) := by
  cases known : s.queue with
  | none => exact .inl (by simp only [queueProcess,known])
  | some q =>
    simp only [queueProcess,known]
    split
    · exact .inl known
    split
    · exact .inl known
    split
    · exact .inl known
    · refine .inr ⟨q,min (pullingMax - q.pulling.length) q.unPull.length,rfl,by omega,?_⟩
      rw [pull_eq]

theorem triggerTimeOut_cases {now : Int} {overlay : Address} {s : Search} :
    (triggerTimeOut now overlay s).queue = s.queue ∨ ∃ q, s.queue = some q ∧
      (triggerTimeOut now overlay s).queue = some (q.timedOut overlay) := by
  cases noted : s.trigger.lookup overlay with
  | none => exact .inl (by simp only [triggerTimeOut,noted])
  | some t =>
    simp only [triggerTimeOut,noted]
    split
    · cases known : s.queue with
      | none => exact .inl rfl
      | some q => exact .inr ⟨q,rfl,rfl⟩
    · exact .inl rfl

theorem answered_pulling (self overlay : Address) (chunkInfo : List (List Char)) (q : Queue) :
    (q.answered self overlay chunkInfo).pulling.length ≤ q.pulling.length := by
  have kept : (pushAnswer self chunkInfo q).2.pulling = q.pulling := by
    fun_induction pushAnswer self chunkInfo q <;> simp_all
  unfold Queue.answered
  split
  · next q' pushed =>
    rw [pushed] at kept
    rw [← kept]
  next q' pushed =>
  rw [pushed] at kept
  rw [← kept]
  exact length_popNode overlay q'.pulling

/-- What holds of the empty queue and is kept by every change that an event makes to a queue holds after the event. -/
theorem handle_rule {s : Search} {e : Event} {P : Queue → Prop} (holds : ∀ q, s.queue = some q → P q) (empty : P {})
    (find : ∀ overlays q, P q → P (pushUnknown overlays q))
    (process : ∀ n q, s.queue = some q → q.pulling.length + n ≤ pullingMax → P (q.moved n))
    (answer : ∀ overlay chunkInfo q, e = .answer overlay chunkInfo → s.queue = some q →
      P (q.answered s.self overlay chunkInfo))
    (tick : ∀ now overlay q, e = .tick now overlay → s.queue = some q → P (q.timedOut overlay)) :
    ∀ q, (handle s e).queue = some q → P q := by
  intro q' found
  cases e with
  | find overlays =>
    cases found
    apply find
    cases known : s.queue with
    | none => exact empty
    | some q => exact holds q known
  | process now =>
    rcases queueProcess_cases s with same | ⟨q,n,known,room,moved⟩
    · exact holds q' (same.symm.trans found)
    · exact Option.some.inj (moved.symm.trans found) ▸ process n q known room
  | answer overlay chunkInfo =>
    obtain ⟨q,known,rfl⟩ := Option.map_eq_some_iff.mp found
    exact answer overlay chunkInfo q rfl known
  | tick now overlay =>
    rcases triggerTimeOut_cases with same | ⟨q,known,timedOut⟩
    · exact holds q' (same.symm.trans found)
    · exact Option.some.inj (timedOut.symm.trans found) ▸ tick now overlay q rfl known
  | cancel => cases found

theorem bounded_handle {s : Search} (bounded : Bounded s) (e : Event) : Bounded (handle s e) := by
  apply handle_rule bounded (Nat.zero_le _)
  · intro overlays q fits
    rw [pushUnknown_pulling]
    exact fits
  · simp only [Queue.moved,List.length_append,List.length_take]
    omega
  · intro overlay chunkInfo q _ known
    exact le_trans (answered_pulling s.self overlay chunkInfo q) (bounded q known)
  · intro _ overlay q _ known
    exact le_trans (length_popNode overlay q.pulling) (bounded q known)

theorem bounded_run {events : List Event} {s : Search} (bounded : Bounded s) : Bounded (run s events) := by
  induction events generalizing s with
  | nil => exact bounded
  | cons e events ih => exact ih (bounded_handle bounded e)

def Once (s : Search) : Prop := ∀ q, s.queue = some q → q.nodes.Nodup

variable {q : Queue}

theorem mem_nodes {n : Address} : n ∈ q.nodes ↔ n ∈ q.unPull ∨ n ∈ q.pulling ∨ n ∈ q.pulled := by
  simp [Queue.nodes]

theorem isExists_iff {n : Address} : q.isExists n = true ↔ n ∈ q.nodes := by
  rw [mem_nodes]
  simp only [Queue.isExists,Bool.or_eq_true,decide_eq_true_eq]
  tauto

variable {overlay : Address}

theorem popNode_other {x : Address} (other : x ≠ overlay) (qu : List Address) :
    popNode overlay (x :: qu) = x :: popNode overlay qu := by
  rw [popNode.eq_def]
  simp [other]

theorem popNode_absent {qu : List Address} (absent : overlay ∉ qu) : popNode overlay qu = qu := by
  induction qu with
  | nil => rfl
  | cons x qu ih =>
    have other : ¬ x = overlay := fun same => absent (by simp [same])
    rw [popNode_other other,ih (fun member => absent (List.mem_cons_of_mem _ member))]

theorem popNode_eq_erase {qu : List Address} (once : qu.Nodup) : popNode overlay qu = qu.erase overlay := by
  induction qu with
  | nil => rfl
  | cons x qu ih =>
    obtain ⟨first,rest⟩ := List.nodup_cons.mp once
    by_cases same : x = overlay
    · subst same
      cases qu with
      | nil => simp [popNode]
      | cons y qu =>
        have gone : x ∉ qu := fun member => first (List.mem_cons_of_mem _ member)
        simp [popNode,popNode_absent gone]
    · rw [popNode_other same,ih rest,List.erase_cons_tail (by simpa using same)]

theorem nodup_wait {n : Address} (once : q.nodes.Nodup) (new : n ∉ q.nodes) :
    ({ q with unPull := q.unPull ++ [n] } : Queue).nodes.Nodup := by
  have moved : ({ q with unPull := q.unPull ++ [n] } : Queue).nodes.Perm (n :: q.nodes) := by
    simp only [Queue.nodes,List.append_assoc,List.singleton_append]
    exact List.perm_middle
  exact moved.nodup_iff.mpr (List.nodup_cons.mpr ⟨new,once⟩)

theorem nodup_pushUnknown (overlays : List Address) (once : q.nodes.Nodup) : (pushUnknown overlays q).nodes.Nodup := by
  induction overlays generalizing q with
  | nil => exact once
  | cons n overlays ih =>
    unfold pushUnknown
    split
    · exact ih once
    · next new => exact ih (nodup_wait once (fun member => new (isExists_iff.mpr member)))

/-- An answer adds unknown nodes that it names, and only to those that wait. -/
theorem pushAnswer_spec {self : Address} {chunkInfo : List (List Char)} (once : q.nodes.Nodup) :
    (pushAnswer self chunkInfo q).2.nodes.Nodup ∧ (pushAnswer self chunkInfo q).2.pulled = q.pulled ∧
      ∀ n ∈ (pushAnswer self chunkInfo q).2.unPull, n ∈ q.unPull ∨ some n ∈ chunkInfo.map decodeString ∧ n ∉ q.nodes := by
  induction chunkInfo generalizing q with
  | nil => exact ⟨once,rfl,fun n member => .inl member⟩
  | cons hex chunkInfo ih =>
    have skip : (pushAnswer self chunkInfo q).2.nodes.Nodup ∧ (pushAnswer self chunkInfo q).2.pulled = q.pulled ∧
        ∀ n ∈ (pushAnswer self chunkInfo q).2.unPull, n ∈ q.unPull ∨
          some n ∈ (hex :: chunkInfo).map decodeString ∧ n ∉ q.nodes := by
      obtain ⟨nodup,pulled,waits⟩ := ih once
      refine ⟨nodup,pulled,?_⟩
      intro n member
      exact (waits n member).imp_right (fun both => ⟨List.mem_cons_of_mem _ both.1,both.2⟩)
    unfold pushAnswer
    split
    · exact ⟨once,rfl,fun n member => .inl member⟩
    next n named =>
    split
    · exact skip
    split
    · exact ⟨once,rfl,fun n member => .inl member⟩
    split
    · exact skip
    next new =>
    have unknown : n ∉ q.nodes := fun member => new (isExists_iff.mpr member)
    obtain ⟨nodup,pulled,waits⟩ := ih (nodup_wait once unknown)
    refine ⟨nodup,pulled,?_⟩
    intro m member
    rcases waits m member with waited | ⟨told,other⟩
    · rcases List.mem_append.mp waited with before | last
      · exact .inl before
      · rw [List.mem_singleton.mp last]
        exact .inr ⟨by simp [named],unknown⟩
    · refine .inr ⟨List.mem_cons_of_mem _ told,fun inside => other ?_⟩
      rw [mem_nodes] at inside ⊢
      exact inside.imp_left (List.mem_append_left _)

/-- A node that neither waits nor has answered, taken out of the queue and put at
    its front. -/
theorem nodup_takenOut (once : q.nodes.Nodup) (waits : overlay ∉ q.unPull) (answered : overlay ∉ q.pulled) :
    (overlay :: (q.unPull ++ popNode overlay q.pulling ++ q.pulled)).Nodup := by
  have pulling : q.pulling.Nodup := once.of_append_left.of_append_right
  rw [popNode_eq_erase pulling,List.nodup_cons]
  constructor
  · simp only [List.mem_append,waits,answered,false_or,or_false]
    exact pulling.not_mem_erase
  · have smaller : (q.unPull ++ q.pulling.erase overlay ++ q.pulled).Sublist q.nodes :=
      ((List.erase_sublist ..).append_left _).append_right _
    exact once.sublist smaller

theorem nodup_answer (once : q.nodes.Nodup) (waits : overlay ∉ q.unPull) (answered : overlay ∉ q.pulled) :
    ({ q with pulling := popNode overlay q.pulling, pulled := q.pulled ++ [overlay] } : Queue).nodes.Nodup := by
  have moved : ({ q with pulling := popNode overlay q.pulling, pulled := q.pulled ++ [overlay] } : Queue).nodes.Perm
      (overlay :: (q.unPull ++ popNode overlay q.pulling ++ q.pulled)) := by
    simp only [Queue.nodes]
    rw [← List.append_assoc]
    exact List.perm_append_singleton ..
  exact moved.nodup_iff.mpr (nodup_takenOut once waits answered)

theorem nodup_timedOut (once : q.nodes.Nodup) (waits : overlay ∉ q.unPull) (answered : overlay ∉ q.pulled) :
    (q.timedOut overlay).nodes.Nodup := by
  have moved : (q.timedOut overlay).nodes.Perm
      (overlay :: (q.unPull ++ popNode overlay q.pulling ++ q.pulled)) := by
    simp only [Queue.timedOut,Queue.nodes,List.append_assoc,List.singleton_append]
    exact List.perm_middle
  exact moved.nodup_iff.mpr (nodup_takenOut once waits answered)

theorem nodup_moved (n : Nat) (once : q.nodes.Nodup) : (q.moved n).nodes.Nodup := by
  have same : (q.moved n).nodes.Perm q.nodes := by
    simp only [Queue.moved,Queue.nodes]
    apply List.Perm.append_right
    rw [← List.append_assoc]
    refine (List.perm_append_comm).trans ?_
    rw [← List.append_assoc,List.take_append_drop]
  exact same.nodup_iff.mpr once

theorem once_handle {s : Search} (once : Once s) {e : Event} (expected : e.Expected s) : Once (handle s e) := by
  apply handle_rule once List.nodup_nil (fun overlays _ => nodup_pushUnknown overlays)
  · intro n q known _
    exact nodup_moved n (once q known)
  · rintro overlay chunkInfo q rfl known
    obtain ⟨waits,answered,place⟩ := expected q known
    obtain ⟨nodup,pulled,pushed⟩ := pushAnswer_spec (once q known)
    unfold Queue.answered
    split
    · next q' result =>
      rw [result] at nodup
      exact nodup
    next q' result =>
    rw [result] at nodup pulled pushed
    apply nodup_answer nodup
    · intro member
      rcases pushed overlay member with before | ⟨named,unknown⟩
      · exact waits before
      · rcases place with asked | silent
        · exact unknown (mem_nodes.mpr (.inr (.inl asked)))
        · exact silent named
    · rw [pulled]
      exact answered
  · rintro _ overlay q rfl known
    exact nodup_timedOut (once q known) (expected q known).1 (expected q known).2

theorem once_run {events : List Event} {s : Search} (once : Once s) (expected : AllExpected s events) :
    Once (run s events) := by
  induction events generalizing s with
  | nil => exact once
  | cons e events ih => exact ih (once_handle once expected.1) expected.2

/-- In every run at most `pullingMax` nodes are asked at a time, and when all
    events are expected no node is in two places of the queue. -/
theorem queue_discipline (self : Address) (events : List Event) (q : Queue)
    (found : (run { self := self } events).queue = some q) :
    q.pulling.length ≤ pullingMax ∧ (AllExpected { self := self } events → q.nodes.Nodup) := by
  have bounded : Bounded { self := self } := fun q found => nomatch found
  have once : Once { self := self } := fun q found => nomatch found
  exact ⟨bounded_run bounded q found,fun expected => once_run once expected q found⟩

/-- A node is asked, times out, is asked again and answers. -/
theorem queue_discipline_answered :
    ({ pulled := [[7]] } : Queue).pulling.length ≤ pullingMax ∧
      (AllExpected { self := [9] } [.find [[7]],.process 0,.tick 30 [7],.process 31,.answer [7] []] →
        ({ pulled := [[7]] } : Queue).nodes.Nodup) :=
  queue_discipline [9] [.find [[7]],.process 0,.tick 30 [7],.process 31,.answer [7] []] { pulled := [[7]] } rfl

/-- The node waits twice after two ticks of the timer. -/
theorem timed_out_twice :
    (run { self := [9] } [.find [[7]],.process 0,.tick 30 [7],.tick 35 [7]]).queue = some { unPull := [[7],[7]] } ∧
      ¬ ({ unPull := [[7],[7]] } : Queue).nodes.Nodup := by
  refine ⟨rfl,?_⟩
  decide

end FavorX.Queues

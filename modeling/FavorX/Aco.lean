import FavorX.Shed

/-!
The routes over which chunks are downloaded. A server counts the downloads of each route; it forgets
routes that were not used for a while, even if a download of theirs is running (`clean_forgets`).
Routes are picked by chance, weighted by their scores; once no route with a score is left, the first
one is taken again (`picked_again`).
-/
namespace FavorX.Aco
open Shed

structure Route where
  linkNode : Address
  targetNode : Address
  deriving DecidableEq

/-- The times are readings of a clock in milliseconds, far from the bounds of their type. -/
structure DownloadDetail where
  startMs : Int := 0
  endMs : Int := 0
  size : Int := 0

structure RouteMetric where
  downloadCount : Int
  downloadDetail : DownloadDetail

/-- What is known about each route, the key being the text of both nodes. -/
abbrev AcoServer := Route → Option RouteMetric

def defaultRate : Int := 2000000 / 8
/-- In seconds. -/
def toZeroElapsed : Int := 20 * 60

/-! ### Counting downloads -/

def onDownloadStart (route : Route) (s : AcoServer) : AcoServer :=
  Function.update s route <| some <|
    match s route with
    | some m => { m with downloadCount := m.downloadCount + 1 }
    | none => ⟨1,{}⟩

def onDownloadEnd (route : Route) (s : AcoServer) : AcoServer :=
  Function.update s route <| (s route).map fun m =>
    if 0 < m.downloadCount then { m with downloadCount := m.downloadCount - 1 } else m

/-- `retStartMs` and `retEndMs`. -/
def retMs (startMs endMs : Int) : Int × Int :=
  if startMs < endMs then (startMs,endMs) else if startMs = endMs then (startMs,endMs + 10) else (endMs,startMs)

def onDownloadTaskFinish (route : Route) (startMs endMs size : Int) (s : AcoServer) : AcoServer :=
  let ret := retMs startMs endMs
  Function.update s route <| some <|
    match s route with
    | none => ⟨0,⟨ret.1,ret.2,size⟩⟩
    | some m =>
      let d := m.downloadDetail
      if ret.2 < d.startMs then m
      else if d.endMs < ret.1 then { m with downloadDetail := ⟨ret.1,ret.2,size⟩ }
      else { m with downloadDetail :=
        ⟨if ret.1 < d.startMs then ret.1 else d.startMs,if d.endMs < ret.2 then ret.2 else d.endMs,d.size + size⟩ }

/-- The route was not used for as long as its score lasts. -/
def Expired (now : Int) (m : RouteMetric) : Prop := m.downloadDetail.endMs.tdiv 1000 + toZeroElapsed ≤ now

instance (now : Int) (m : RouteMetric) : Decidable (Expired now m) := inferInstanceAs (Decidable (_ ≤ _))

/-- A tick of the loop of `cleanTrigger`. -/
def clean (now : Int) (s : AcoServer) : AcoServer := fun route => (s route).filter (fun m => ¬ Expired now m)

inductive Event
  | start (route : Route)
  | finish (route : Route) (detail : DownloadDetail)
  | ends (route : Route)
  | tick (now : Int)

/-- The server, and how many downloads of each route have started and not ended. -/
structure World where
  server : AcoServer := fun _ => none
  running : Route → Nat := fun _ => 0

/-- Only a download that is running ends. -/
def step : Event → World → Option World
  | .start route, w => some ⟨onDownloadStart route w.server,Function.update w.running route (w.running route + 1)⟩
  | .finish route d, w => some { w with server := onDownloadTaskFinish route d.startMs d.endMs d.size w.server }
  | .ends route, w =>
    if w.running route = 0 then none
    else some ⟨onDownloadEnd route w.server,Function.update w.running route (w.running route - 1)⟩
  | .tick now, w => some { w with server := clean now w.server }

def run (events : List Event) (w : World) : Option World := events.foldlM (fun w e => step e w) w

/-- The entry of a route counts `n` downloads, and its times are none or in order. -/
def Right (n : Nat) : Option RouteMetric → Prop
  | none => n = 0
  | some m => m.downloadCount = n ∧
      (m.downloadDetail = {} ∨ m.downloadDetail.startMs < m.downloadDetail.endMs)

def Counts (w : World) : Prop := ∀ route, Right (w.running route) (w.server route)

/-- A tick forgets no route that is in use. -/
def Idle : Event → World → Prop
  | .tick now, w => ∀ route m, w.server route = some m → Expired now m → w.running route = 0
  | _, _ => True

def AllIdle : List Event → World → Prop
  | [], _ => True
  | e :: events, w => Idle e w ∧ ∀ w', step e w = some w' → AllIdle events w'

theorem counts_update {w : World} (counts : Counts w) {route : Route} {n : Nat} {e : Option RouteMetric}
    (right : Right n e) : Counts ⟨Function.update w.server route e,Function.update w.running route n⟩ := by
  intro r
  by_cases here : r = route
  · subst here
    simpa using right
  · simpa [here] using counts r

theorem counts_step {e : Event} {w w' : World} (counts : Counts w) (idle : Idle e w) (stepped : step e w = some w') :
    Counts w' := by
  cases e with
  | start route =>
    cases stepped
    apply counts_update counts
    have right := counts route
    cases found : w.server route <;> grind [Right]
  | finish route d =>
    cases stepped
    have right := counts route
    have order : (retMs d.startMs d.endMs).1 < (retMs d.startMs d.endMs).2 := by grind [retMs]
    rw [← Function.update_eq_self route w.running]
    apply counts_update counts
    cases found : w.server route <;> grind [Right]
  | ends route =>
    simp only [step] at stepped
    split at stepped <;> cases stepped
    apply counts_update counts
    have right := counts route
    cases found : w.server route <;> grind [Right]
  | tick now =>
    cases stepped
    intro route
    have right := counts route
    have unused := idle route
    cases found : w.server route with
    | none => grind [Right,clean]
    | some m => by_cases old : Expired now m <;> grind [Right,clean]

theorem counts_ran {events : List Event} {w w' : World} (counts : Counts w) (idle : AllIdle events w)
    (ran : run events w = some w') : Counts w' := by
  induction events generalizing w with
  | nil =>
    cases ran
    exact counts
  | cons e events ih =>
    obtain ⟨mid,stepped,ran⟩ := Option.bind_eq_some_iff.mp ran
    exact ih (counts_step counts idle.1 stepped) (idle.2 mid stepped) ran

/-- In every run in which no tick comes to a route that was not used for twenty minutes and has a running download,
the counts are those of the running downloads and the times are in order. -/
theorem counts_run (events : List Event) (w : World) (idle : AllIdle events {}) (ran : run events {} = some w) :
    Counts w := counts_ran (w := {}) (fun _ => rfl) idle ran

theorem counts_run_ended : ∃ w, run [.start ⟨[1],[2]⟩,.ends ⟨[1],[2]⟩,.tick 1200] {} = some w ∧ Counts w := by
  refine ⟨_,rfl,counts_run [.start ⟨[1],[2]⟩,.ends ⟨[1],[2]⟩,.tick 1200] _ ⟨trivial,?_⟩ rfl⟩
  refine fun w first => ⟨trivial,fun w' second => ⟨fun route m held old => ?_,fun _ _ => trivial⟩⟩
  cases first
  obtain rfl := Option.some.inj (show some _ = some w' from second)
  simp [Function.update_apply]

/-- A download of a new route is running when a tick comes. -/
theorem clean_forgets : ∃ w, run [.start ⟨[1],[2]⟩,.tick 1200] {} = some w ∧ ¬ Counts w :=
  ⟨_,rfl,fun counts => absurd (show 1 = 0 from counts ⟨[1],[2]⟩) (by decide)⟩

/-! ### Picking routes -/

/-- The score of a route. What is computed in floating point from its times is `rate`. -/
def getCurRouteScore (rate : RouteMetric → Int → Int) (now : Int) (s : AcoServer) (route : Route) : Int :=
  match s route with
  | none => defaultRate
  | some m =>
    let elapsed := max 0 (now - m.downloadDetail.endMs.tdiv 1000)
    if toZeroElapsed ≤ elapsed then defaultRate.tdiv (m.downloadCount + 1)
    else if m.downloadDetail.endMs = 0 then defaultRate.tdiv (m.downloadCount + 1)
    else rate m elapsed

/-- The scores, each at its own time. -/
def getSelectRouteListScore (rate : RouteMetric → Int → Int) (now : Nat → Int) (s : AcoServer) (routeList : List Route) :
    List Int :=
  routeList.mapIdx fun k route => getCurRouteScore rate (now k) s route

def prefixSums (sum : Int) : List Int → List Int
  | [] => []
  | x :: w => (sum + x) :: prefixSums (sum + x) w

/-- Weights without a sum are refused. -/
def newWeight (w : List Int) : Option (List Int) :=
  let pre := prefixSums 0 w
  if pre.getLastD 0 = 0 then none else some pre

/-- `sort.Search` finds the first sum that reaches the number drawn. -/
def pickIndex (pre : List Int) (draw : Nat) : Nat :=
  let r := draw % pre.getLastD 0 + 1
  pre.findIdx (fun p => r ≤ p)

/-- The indexes of the rounds that are left. Where the weights are refused, the list keeps the zeros it was made with. -/
def pickIndexes (draws : Nat → Nat) : Nat → List Int → List Nat
  | 0, _ => []
  | n + 1, scores =>
    match newWeight scores with
    | none => List.replicate (n + 1) 0
    | some pre => pickIndex pre (draws n) :: pickIndexes draws n (scores.set (pickIndex pre (draws n)) 0)

def getRouteAcoIndex (scores : List Int) (count : Nat) (draws : Nat → Nat) : List Nat :=
  if scores.length = 0 then [] else pickIndexes draws (min count scores.length) scores

def positives (scores : List Int) : Nat := scores.countP (0 < ·)

/-- There are as many routes with a score as are picked, or one is missing and the first one is none of them. -/
def Enough (scores : List Int) (n : Nat) : Prop :=
  n ≤ positives scores ∨ n = positives scores + 1 ∧ scores.head? = some 0

variable {scores : List Int}

theorem getLastD_prefixSums (sum : Int) (w : List Int) : (prefixSums sum w).getLastD sum = sum + w.sum := by
  induction w generalizing sum with
  | nil => simp [prefixSums]
  | cons x w ih => rw [prefixSums,List.getLastD_cons,ih,List.sum_cons,add_assoc]

theorem findIdx_prefixSums (sum : Int) (w : List Int) {r : Int} (after : sum < r) (within : r ≤ sum + w.sum) :
    ∃ x, w[(prefixSums sum w).findIdx (r ≤ ·)]? = some x ∧ 0 < x := by
  induction w generalizing sum with
  | nil => simp at within; omega
  | cons x w ih =>
    rw [prefixSums,List.findIdx_cons]
    by_cases here : r ≤ sum + x
    · exact ⟨x,by simp [here],by omega⟩
    · simpa [here] using ih _ (not_le.mp here) (by rw [List.sum_cons] at within; omega)

theorem positive_of_pos {i : Nat} {x : Int} (at' : scores[i]? = some x) (pos : 0 < x) : 0 < positives scores :=
  List.countP_pos_iff.mpr ⟨x,List.mem_of_getElem? at',by simpa using pos⟩

/-- A route that is picked has a score, and then none. -/
theorem pickIndex_positive (nonneg : ∀ x ∈ scores, 0 ≤ x) (sum : scores.sum ≠ 0) (draw : Nat) :
    ∃ x, scores[pickIndex (prefixSums 0 scores) draw]? = some x ∧ 0 < x ∧
      positives (scores.set (pickIndex (prefixSums 0 scores) draw) 0) + 1 = positives scores := by
  have total : (prefixSums 0 scores).getLastD 0 = scores.sum := by rw [getLastD_prefixSums,zero_add]
  have positive : 0 < scores.sum := lt_of_le_of_ne (List.sum_nonneg nonneg) (Ne.symm sum)
  have low := Int.emod_nonneg (draw : Int) sum
  have high := Int.emod_lt_of_pos (draw : Int) positive
  obtain ⟨x,at',pos⟩ := findIdx_prefixSums 0 scores (r := draw % scores.sum + 1) (by omega) (by omega)
  rw [← total] at at'
  obtain ⟨inside,held⟩ := List.getElem?_eq_some_iff.mp at'
  refine ⟨x,at',pos,?_⟩
  have some' := positive_of_pos at' pos
  unfold positives pickIndex at *
  rw [List.countP_set inside,held]
  simp [pos]
  omega

theorem pickIndexes_eq {draws : Nat → Nat} (nonneg : ∀ x ∈ scores, 0 ≤ x) {n : Nat} :
    ∃ picks, pickIndexes draws n scores = picks ++ List.replicate (n - positives scores) 0 ∧ picks.Nodup ∧
      picks.length = min n (positives scores) ∧ (∀ i ∈ picks, ∃ x, scores[i]? = some x ∧ 0 < x) ∧
      (positives scores ≤ n → ∀ i x, scores[i]? = some x → 0 < x → i ∈ picks) := by
  induction n generalizing scores with
  | zero => exact ⟨[],by simp [pickIndexes],by simp,by simp,by simp,by grind [positive_of_pos]⟩
  | succ n ih =>
    have total : (prefixSums 0 scores).getLastD 0 = scores.sum := by rw [getLastD_prefixSums,zero_add]
    rw [pickIndexes,newWeight,total]
    by_cases sum : scores.sum = 0
    · have none : positives scores = 0 := List.countP_eq_zero.mpr fun x member => by
        have := List.single_le_sum nonneg x member
        simp
        omega
      exact ⟨[],by simp [sum,none],by simp,by simp [none],by simp,by grind [positive_of_pos]⟩
    obtain ⟨x,at',pos,fewer⟩ := pickIndex_positive nonneg sum (draws n)
    simp only [sum,if_false]
    generalize pickIndex (prefixSums 0 scores) (draws n) = i at at' fewer
    obtain ⟨picks,rest,once,length,inside,all⟩ := @ih (scores.set i 0) (by grind)
    refine ⟨i :: picks,?_,?_,?_,?_,?_⟩
    · rw [rest,← fewer,Nat.add_sub_add_right]
      rfl
    · grind
    · grind
    · grind
    · grind

/-- The indexes that are picked are as many as asked for and different exactly if there are enough routes with a
score. This is so whatever is drawn. -/
theorem picks_distinct_iff (rate : RouteMetric → Int → Int) (now : Nat → Int) (s : AcoServer) (routes : List Route)
    (given : routes ≠ []) (nonneg : ∀ x ∈ getSelectRouteListScore rate now s routes, 0 ≤ x) (count : Nat)
    (draws : Nat → Nat) :
    ((getRouteAcoIndex (getSelectRouteListScore rate now s routes) count draws).length = min count routes.length ∧
      (∀ i ∈ getRouteAcoIndex (getSelectRouteListScore rate now s routes) count draws, i < routes.length) ∧
      (getRouteAcoIndex (getSelectRouteListScore rate now s routes) count draws).Nodup) ↔
    Enough (getSelectRouteListScore rate now s routes) (min count routes.length) := by
  have length : (getSelectRouteListScore rate now s routes).length = routes.length := List.length_mapIdx
  generalize getSelectRouteListScore rate now s routes = scores at *
  obtain ⟨first,head⟩ : ∃ first, scores[0]? = some first := by
    have := List.length_pos_iff.mpr given
    exact ⟨_,List.getElem?_eq_getElem (by omega)⟩
  have first_nonneg := nonneg first (List.mem_of_getElem? head)
  rw [getRouteAcoIndex,length]
  obtain ⟨picks,picked,once,taken,inside,all⟩ := pickIndexes_eq nonneg
  rw [picked,Enough,List.head?_eq_getElem?]
  generalize min count routes.length = n at *
  have nodup : (picks ++ List.replicate (n - positives scores) 0).Nodup ↔
      n - positives scores ≤ 1 ∧ (n - positives scores = 1 → 0 ∉ picks) := by
    rw [List.nodup_append']
    grind [List.Disjoint]
  grind

theorem picks_distinct_new : (getRouteAcoIndex
    (getSelectRouteListScore (fun _ _ => 0) (fun _ => 0) (fun _ => none) [⟨[1],[1]⟩,⟨[2],[2]⟩]) 2 (fun _ => 0)).Nodup :=
  ((picks_distinct_iff (fun _ _ => 0) (fun _ => 0) (fun _ => none) [⟨[1],[1]⟩,⟨[2],[2]⟩] (by simp) (by decide) 2
    (fun _ => 0)).mpr (.inl (by decide))).2.2

/-- Both routes have failed in this second, and a failed transfer has no size. -/
theorem picked_again : getRouteAcoIndex (getSelectRouteListScore (fun m _ => m.downloadDetail.size) (fun _ => 1)
    (fun _ => some ⟨0,⟨990,1000,0⟩⟩) [⟨[1],[1]⟩,⟨[2],[2]⟩]) 3 (fun _ => 0) = [0,0] := by decide

/-! ### Attempts to retrieve a chunk -/

def totalRouteCount : Nat := 5
def maxRequestAttempt : Nat := 2

/-- The routes to explicit targets, or some of those that were found. -/
def getRetrievalRouteList (targets : Option (List Address)) (chunkResult : List Route) (scores : List Int)
    (draws : Nat → Nat) : List Route :=
  match targets with
  | some targets => targets.map (fun target => ⟨target,target⟩)
  | none => (getRouteAcoIndex scores totalRouteCount draws).map (fun acoIndex => chunkResult.getD acoIndex ⟨[],[]⟩)

/-- What a step of the loop waits for: the ticker, or the result of an attempt, good or bad. -/
inductive Select
  | tick
  | result (attempt : Nat) (good : Bool)

inductive Outcome
  | noRoute
  | notFound
  | chunk (attempt : Nat)

/-- The attempts that were started, and those whose result was received. -/
structure Attempts where
  started : List Route := []
  received : List Nat := []

/-- Every attempt sends its result in the end. These are the results that nobody receives. -/
def Attempts.unreceived (a : Attempts) : Nat := a.started.length - a.received.length

/-- The loops over the routes that are left. There is nothing as long as the call has not returned. -/
def retrieveLoop : List Route → List Select → Attempts → Option (Outcome × Attempts)
  | [], _, a => some (.notFound,a)
  | _ :: _, [], _ => none
  | route :: routes, event :: events, a =>
    let a := { a with started := a.started ++ [route] }
    match event with
    | .tick => retrieveLoop routes events a
    | .result attempt good =>
      if attempt < a.started.length ∧ attempt ∉ a.received then
        let a := { a with received := attempt :: a.received }
        if good then some (.chunk attempt,a) else retrieveLoop routes events a
      else none

def retrieveFrom (routeList : List Route) (events : List Select) : Option (Outcome × Attempts) :=
  if routeList.length = 0 then some (.noRoute,{})
  else retrieveLoop (List.replicate maxRequestAttempt routeList).flatten events {}

theorem unreceived_retrieveLoop {routes : List Route} {events : List Select} {a b : Attempts} {o : Outcome}
    (returned : retrieveLoop routes events a = some (o,b)) : b.unreceived ≤ a.unreceived + routes.length := by
  induction routes generalizing events a with
  | nil =>
    cases returned
    exact Nat.le_add_right _ _
  | cons route routes ih =>
    cases events with
    | nil => cases returned
    | cons event events =>
      cases event with
      | tick =>
        have rest := ih returned
        simp [Attempts.unreceived] at rest ⊢
        omega
      | result attempt good =>
        simp only [retrieveLoop] at returned
        split at returned
        · cases good with
          | true =>
            cases returned
            simp [Attempts.unreceived]
          | false =>
            have rest := ih returned
            simp [Attempts.unreceived] at rest ⊢
            omega
        · cases returned

theorem retrieveLoop_ticks (routes : List Route) (a : Attempts) :
    retrieveLoop routes (List.replicate routes.length .tick) a =
      some (.notFound,{ a with started := a.started ++ routes }) := by
  induction routes generalizing a with
  | nil => simp [retrieveLoop]
  | cons route routes ih => simp [retrieveLoop,List.replicate_succ,ih]

theorem length_pickIndexes (draws : Nat → Nat) (n : Nat) (scores : List Int) :
    (pickIndexes draws n scores).length = n := by
  induction n generalizing scores with
  | zero => rfl
  | succ n ih =>
    rw [pickIndexes]
    split
    · exact List.length_replicate
    · rw [List.length_cons,ih]

/-- The results that nobody receives fit into the channel in every run exactly if there are two routes at most: each
is tried twice, and the channel has room for five. -/
theorem results_fit_iff (targets : Option (List Address)) (chunkResult : List Route) (rate : RouteMetric → Int → Int)
    (now : Nat → Int) (s : AcoServer) (draws : Nat → Nat) :
    (∀ events o a, retrieveFrom (getRetrievalRouteList targets chunkResult
      (getSelectRouteListScore rate now s chunkResult) draws) events = some (o,a) → a.unreceived ≤ totalRouteCount) ↔
    targets.elim chunkResult.length List.length ≤ totalRouteCount / maxRequestAttempt := by
  have counted : (getRetrievalRouteList targets chunkResult (getSelectRouteListScore rate now s chunkResult) draws).length =
      targets.elim (min totalRouteCount chunkResult.length) List.length := by
    cases targets with
    | some targets => simp [getRetrievalRouteList]
    | none =>
      rw [getRetrievalRouteList,getRouteAcoIndex]
      split <;> simp_all [length_pickIndexes,getSelectRouteListScore]
  generalize getRetrievalRouteList targets chunkResult _ draws = routeList at *
  have few : targets.elim chunkResult.length List.length ≤ totalRouteCount / maxRequestAttempt ↔ routeList.length ≤ 2 := by
    rw [counted]
    cases targets <;> simp [totalRouteCount,maxRequestAttempt]
  have twice : (List.replicate maxRequestAttempt routeList).flatten.length = 2 * routeList.length := by
    simp [maxRequestAttempt,Nat.two_mul]
  constructor
  · intro fit
    by_contra many
    have run := retrieveLoop_ticks (List.replicate maxRequestAttempt routeList).flatten {}
    have left := fit _ _ _ ((if_neg (by omega)).trans run)
    rw [Attempts.unreceived,List.nil_append,twice] at left
    simp [totalRouteCount] at left
    omega
  intro short events o a returned
  rw [retrieveFrom] at returned
  split at returned
  · cases returned
    exact Nat.zero_le _
  have left := unreceived_retrieveLoop returned
  rw [twice] at left
  simp [Attempts.unreceived,totalRouteCount] at left ⊢
  omega

/-- Three targets, and no attempt ends before the ticker: six results are sent and none received. -/
theorem results_do_not_fit : ∃ o a, retrieveFrom (getRetrievalRouteList (some [[1],[2],[3]]) [] [] (fun _ => 0))
    (List.replicate 6 .tick) = some (o,a) ∧ totalRouteCount < a.unreceived := ⟨_,_,rfl,by decide⟩

end FavorX.Aco

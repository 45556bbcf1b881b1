import FavorX.Localstore
import FavorX.RouteTable
import FavorX.Texts

/-!
Route discovery. A node that cannot answer a request passes it on and remembers
whom to tell (`PendCallResTab`). Requests and responses carry the path they came
along; every node adds itself and saves the paths that come by. Messages arrive
in any order or not at all.
-/
namespace FavorX.Discovery
open FiniteMaps Shed RouteTable Texts
open Localstore (proximity)

structure UnderlayResp where
  dest : Bytes
  underlay : Bytes
  signature : Bytes
  deriving DecidableEq

structure RouteReq where
  dest : Bytes
  alpha : Int
  paths : List PbPath
  uType : Int
  uList : List UnderlayResp := []
  deriving DecidableEq

structure RouteResp where
  dest : Bytes
  paths : List PbPath
  uType : Int
  uList : List UnderlayResp := []
  deriving DecidableEq

inductive Msg
  | req (r : RouteReq)
  | resp (r : RouteResp)
  deriving DecidableEq

structure Packet where
  src : Address
  dst : Address
  msg : Msg
  deriving DecidableEq

def uTypeZero : Int := 0
def uTypeTarget : Int := 1

structure Info where
  underlay : Bytes
  overlay : Address
  signature : Bytes
  deriving DecidableEq

structure PendCallResItem where
  src : Address
  createTime : Int
  resCh : Option Nat
  deriving DecidableEq

/-- Who waits for a response about a target, and which requests are under way. -/
structure PendCallResTab where
  respList : Map Hash (List PendCallResItem) := ∅
  reqList : Map (List Char) Int := ∅

def getPendingReqKey (target next : Address) : List Char := encodeToString target ++ encodeToString next

def PendCallResTab.delete (pend : PendCallResTab) (target next : Address) : PendCallResTab where
  respList := pend.respList.erase (getTargetKey target)
  reqList := pend.reqList.erase (getPendingReqKey target next)

/-- Remember a caller. A request that is under way already need not be sent. -/
def PendCallResTab.add (clock : Nat → Int) (pend : PendCallResTab) (target src next : Address) (resCh : Option Nat) :
    Bool × PendCallResTab :=
  let pending : PendCallResItem := { src := src, createTime := clock 0, resCh := resCh }
  let res := (pend.respList.lookup (getTargetKey target)).getD []
  let respList := pend.respList.insert (getTargetKey target) (res ++ [pending])
  let reqKey := getPendingReqKey target next
  match pend.reqList.lookup reqKey with
  | some _ => (true,{ pend with respList := respList })
  | none => (false,{ respList := respList, reqList := pend.reqList.insert reqKey (clock 1) })

/-- The callers that wait for a target, who are then forgotten. -/
def PendCallResTab.get (pend : PendCallResTab) (target next : Address) : List PendCallResItem × PendCallResTab :=
  match pend.respList.lookup (getTargetKey target) with
  | some res => (res,pend.delete target next)
  | none => ([],pend)

def milliseconds (d : Int) : Int := d.tdiv 1000000

def PendCallResTab.gcReqLog (clock : List Char → Int) (expire : Int) (order : List (List Char)) (pend : PendCallResTab) :
    PendCallResTab :=
  order.foldl (fun pend key =>
    match pend.reqList.lookup key with
    | none => pend
    | some t =>
      if milliseconds expire ≤ milliseconds (clock key - t) then { pend with reqList := pend.reqList.erase key } else pend)
    pend

/-- What is left of the callers of a target: those from the first one on that
    has not expired, unless that is the first of all or there is none. -/
def gcItems (clock : Nat → Int) (expire : Int) (item : List PendCallResItem) : Option (List PendCallResItem) :=
  let fresh (i : Nat) (v : PendCallResItem) : Bool := milliseconds (clock i - v.createTime) < milliseconds expire
  match item with
  | [] => some item
  | first :: _ =>
    if fresh 0 first then some item
    else
      match (List.range item.length).find? (fun k => (item[k]?.map (fresh (k + 1))).getD false) with
      | none => none
      | some 0 => none
      | some expireK => some (item.drop expireK)

def PendCallResTab.gcResItems (clock : Hash → Nat → Int) (expire : Int) (order : List Hash) (pend : PendCallResTab) :
    PendCallResTab :=
  order.foldl (fun pend key =>
    match pend.respList.lookup key with
    | none => pend
    | some item => { pend with respList := update pend.respList key (gcItems (clock key) expire item) })
    pend

/-- A request whose handler waits until the underlay of its target is found. -/
structure Waiting where
  peer : Address
  req : RouteReq
  nowPaths : List Path

structure Service where
  routeTable : Table
  pendingCalls : PendCallResTab := {}
  addressbook : Map Address Info := ∅
  waiting : List Waiting := []

abbrev Service.self (s : Service) : Address := s.routeTable.self

/-- What a node sees of its connections at some time: the neighbourhood depth, the
    connected peers by bin, the neighbours, all peers, and random choices. -/
structure Kad where
  depth : Nat
  binPeers : Nat → List Address
  neighbors : List Address
  peers : List Address
  randomSubset : List Address → Int → List Address

section
variable (cfg : Config) (parseAddress : UnderlayResp → Option Info)

def skipPeers (src skipPeers : List Address) : List Address := src.filter (fun v => v ∉ skipPeers)

def getNeighbor (kad : Kad) (self target : Address) (alpha : Int) (skip : List Address) : List Address :=
  let alpha := if alpha ≤ 0 then (cfg.neighborAlpha : Int) else alpha
  let po := proximity self target
  let now := if po < kad.depth then skipPeers (kad.binPeers po) skip else kad.neighbors.filter (fun address => address ∉ skip)
  kad.randomSubset now alpha

def isNeighbor (kad : Kad) (dest : Address) : Bool := kad.peers.contains dest

def Service.convUnderlayList (s : Service) (uType : Int) (target last : Address) (old : List UnderlayResp) :
    List UnderlayResp :=
  if uType = uTypeTarget then
    if target = last then
      match s.addressbook.lookup target with
      | some addr => [{ dest := target, underlay := addr.underlay, signature := addr.signature }]
      | none => old
    else old
  else []

def saveUnderlay (uList : List UnderlayResp) (addressbook : Map Address Info) : Map Address Info :=
  uList.foldl (fun book v =>
    match parseAddress v with
    | none => book
    | some addr => book.insert addr.overlay addr)
    addressbook

/-- Send a request to the next nodes, unless it is under way to them. -/
def sendReqs (req : RouteReq) (src : Address) (ch : Option Nat) :
    (clock : Nat → Int) → List Address → Service → Service × List Packet
  | _, [], s => (s,[])
  | clock, v :: next, s =>
    let (has,pend) := s.pendingCalls.add clock req.dest src v ch
    let (s,sent) := sendReqs req src ch (fun i => clock (i + 2)) next { s with pendingCalls := pend }
    (s,if has then sent else { src := s.self, dst := v, msg := .req req } :: sent)

/-- The request that is sent: one to pass on, or a new one. -/
def reqToSend (now : Int) (src target : Address) (req : Option RouteReq) (s : Service) : RouteReq :=
  match req with
  | some req => { req with
      paths := s.routeTable.generatePaths cfg now req.paths
      uList := s.convUnderlayList req.uType target src req.uList }
  | none =>
    { dest := target, alpha := cfg.neighborAlpha, paths := s.routeTable.generatePaths cfg now [], uType := uTypeTarget }

def doRouteReq (clock : Nat → Int) (next : List Address) (src target : Address) (req : Option RouteReq) (ch : Option Nat)
    (s : Service) : Service × List Packet :=
  sendReqs (reqToSend cfg (clock 0) src target req s) src ch (fun i => clock (i + 1)) next s

/-- The response that is sent: one to pass on, one with a path of the table, or one of the target itself. -/
def doRouteResp (now : Int) (target last : Address) (resp : Option RouteResp) (paths : List Path) (uType : Int)
    (s : Service) : RouteResp :=
  match resp with
  | some resp => { resp with
      paths := s.routeTable.generatePaths cfg now resp.paths
      uList := s.convUnderlayList resp.uType target last resp.uList }
  | none =>
    if 0 < paths.length then
      { dest := target, paths := s.routeTable.convertPathsToPbPaths cfg now paths, uType := uType,
        uList := s.convUnderlayList uType target last [] }
    else { dest := target, paths := s.routeTable.generatePaths cfg now [], uType := uType }

/-- Pass a response on to the callers, each once, and wake the callers on this
    node. Every response is made from the one before. -/
def respCallers (target last : Address) :
    (clock : Nat → Int) → List PendCallResItem → (skip : List Address) → RouteResp → Service → List Packet × List Nat
  | _, [], _, _, _ => ([],[])
  | clock, v :: res, skip, resp, s =>
    if v.src ≠ s.self then
      if v.src ∉ skip then
        let resp := doRouteResp cfg (clock 0) target last (some resp) [] 0 s
        let (sent,woken) := respCallers target last (fun i => clock (i + 1)) res (skip ++ [v.src]) resp s
        ({ src := s.self, dst := v.src, msg := .resp resp } :: sent,woken)
      else respCallers target last clock res skip resp s
    else
      let (sent,woken) := respCallers target last clock res skip resp s
      (sent,v.resCh.toList ++ woken)

def respForward (clock : Nat → Int) (target last : Address) (resp : RouteResp) (s : Service) :
    Service × List Packet × List Nat :=
  let (res,pend) := s.pendingCalls.get target last
  let s := { s with pendingCalls := pend }
  (s,respCallers cfg target last clock res [] resp s)

/-- Pass a request on to neighbours that its paths do not name. -/
def forwardReq (clock : Nat → Int) (kad : Kad) (peer : Address) (req : RouteReq) (s : Service) : Service × List Packet :=
  let skip := req.paths.flatMap PbPath.items
  let forward := getNeighbor cfg kad s.self req.dest req.alpha skip
  doRouteReq cfg clock forward peer req.dest (some req) none s

/-- A path of this node to the target goes on from the path of a request. -/
def goesOn (reqPath : List Bytes) (v : Path) : Bool :=
  !(cfg.maxTTL < v.items.length + reqPath.length) && !v.items.any (fun a => reqPath.contains a)

/-- Save the paths and the underlay addresses of a message. -/
def Service.learn (clock : Nat → Int) (paths : List PbPath) (uList : List UnderlayResp) (s : Service) : Service :=
  { s with
    routeTable := s.routeTable.savePaths cfg clock paths
    addressbook := saveUnderlay parseAddress uList s.addressbook }

/-- The paths of the table with which a request can be answered. -/
def Service.nowPaths (s : Service) (req : RouteReq) : List Path :=
  let reqPath := (req.paths.getLast?.map PbPath.items).getD []
  match s.routeTable.get req.dest with
  | .error _ => []
  | .ok paths => paths.filter (goesOn cfg reqPath)

/-- Answer a request whose paths are saved, or pass it on. -/
def answerReq (clock : Nat → Int) (kad : Kad) (peer : Address) (req : RouteReq) (s : Service) : Service × List Packet :=
  let target := req.dest
  if s.self = target then
    (s,[{ src := s.self, dst := peer, msg := .resp (doRouteResp cfg (clock 0) target [] none [] req.uType s) }])
  else if isNeighbor kad target then doRouteReq cfg clock [target] peer target (some req) none s
  else
    let nowPaths := s.nowPaths cfg req
    if 0 < nowPaths.length then
      if req.uType = uTypeTarget ∧ s.addressbook.lookup target = none then
        ({ s with waiting := s.waiting ++ [{ peer := peer, req := req, nowPaths := nowPaths }] },[])
      else
        (s,[{ src := s.self, dst := peer, msg := .resp (doRouteResp cfg (clock 0) target [] none nowPaths req.uType s) }])
    else forwardReq cfg clock kad peer req s

def onRouteReq (clock : Nat → Int) (kad : Kad) (peer : Address) (req : RouteReq) (s : Service) : Service × List Packet :=
  if req.paths.any (fun v => cfg.maxTTL < v.items.length || v.items.contains s.self) then (s,[])
  else
    answerReq cfg (fun i => clock (i + 2 * req.paths.length)) kad peer req
      (s.learn cfg parseAddress clock req.paths req.uList)

/-- The underlay of the target of a waiting request was found, or not. -/
def onUnderlay (clock : Nat → Int) (kad : Kad) (found : Option Info) (w : Waiting) (s : Service) : Service × List Packet :=
  match found with
  | none => forwardReq cfg clock kad w.peer w.req s
  | some addr =>
    let s := { s with addressbook := s.addressbook.insert addr.overlay addr }
    (s,[{ src := s.self, dst := w.peer,
          msg := .resp (doRouteResp cfg (clock 0) w.req.dest [] none w.nowPaths w.req.uType s) }])

def onRouteResp (clock : Nat → Int) (peer : Address) (resp : RouteResp) (s : Service) :
    Service × List Packet × List Nat :=
  let now := resp.paths.filter (fun v => v.items.length ≤ cfg.maxTTL)
  if now.length = 0 then (s,[],[])
  else if now.any (fun v => v.items.contains s.self) then (s,[],[])
  else
    respForward cfg (fun i => clock (i + 2 * now.length)) resp.dest peer { resp with paths := now }
      (s.learn cfg parseAddress clock now resp.uList)

/-- Start to look for a route. The channel is told when a response comes. -/
def findRoute (clock : Nat → Int) (kad : Kad) (target : Address) (ch : Nat) (s : Service) : Service × List Packet :=
  if s.self = target then (s,[])
  else
    let forward := getNeighbor cfg kad s.self target cfg.neighborAlpha [target]
    if 0 < forward.length then doRouteReq cfg clock forward s.self target none (some ch) s else (s,[])

def giveUp (target : Address) (forward : List Address) (s : Service) : Service :=
  { s with pendingCalls := forward.foldl (fun pend v => pend.delete target v) s.pendingCalls }

def delRoute (target : Address) (s : Service) : Service :=
  match s.routeTable.get target with
  | .error _ => s
  | .ok route => { s with routeTable := route.foldl (fun t v => t.delete cfg v) s.routeTable }

/-- What a node does without a message. -/
inductive Action
  | findRoute (clock : Nat → Int) (kad : Kad) (target : Address) (ch : Nat)
  | giveUp (target : Address) (forward : List Address)
  | underlay (clock : Nat → Int) (kad : Kad) (found : Option Info) (i : Nat)
  | gcReqLog (clock : List Char → Int) (expire : Int) (order : List (List Char))
  | gcResItems (clock : Hash → Nat → Int) (expire : Int) (order : List Hash)
  | gcTable (expire : Int) (clock : Nat → Int) (order : List Hash)
  | delRoute (target : Address)
  | updateUsedTime (clock : Nat → Int) (target neighbor : Address)

def Service.act (s : Service) : Action → Service × List Packet
  | .findRoute clock kad target ch => findRoute cfg clock kad target ch s
  | .giveUp target forward => (giveUp target forward s,[])
  | .underlay clock kad found i =>
    match s.waiting[i]? with
    | none => (s,[])
    | some w => onUnderlay cfg clock kad found w { s with waiting := s.waiting.eraseIdx i }
  | .gcReqLog clock expire order => ({ s with pendingCalls := s.pendingCalls.gcReqLog clock expire order },[])
  | .gcResItems clock expire order => ({ s with pendingCalls := s.pendingCalls.gcResItems clock expire order },[])
  | .gcTable expire clock order => ({ s with routeTable := s.routeTable.gc cfg expire clock order },[])
  | .delRoute target => (delRoute cfg target s,[])
  | .updateUsedTime clock target neighbor =>
    ({ s with routeTable := s.routeTable.updateUsedTime clock target neighbor },[])

def Service.handle (clock : Nat → Int) (kad : Kad) (p : Packet) (s : Service) : Service × List Packet :=
  match p.msg with
  | .req r => onRouteReq cfg parseAddress clock kad p.src r s
  | .resp r => let (s,sent,_) := onRouteResp cfg parseAddress clock p.src r s; (s,sent)

structure World where
  nodes : Map Address Service
  packets : List Packet := []

inductive Event
  | act (node : Address) (a : Action)
  | deliver (clock : Nat → Int) (kad : Kad) (i : Nat)
  | lose (i : Nat)

def World.put (w : World) (node : Address) (r : Service × List Packet) : World where
  nodes := w.nodes.insert node r.1
  packets := w.packets ++ r.2

def World.step (w : World) : Event → World
  | .act node a =>
    match w.nodes.lookup node with
    | none => w
    | some s => w.put node (s.act cfg a)
  | .deliver clock kad i =>
    match w.packets[i]? with
    | none => w
    | some p =>
      let w := { w with packets := w.packets.eraseIdx i }
      match w.nodes.lookup p.dst with
      | none => w
      | some s => w.put p.dst (s.handle cfg parseAddress clock kad p)
  | .lose i => { w with packets := w.packets.eraseIdx i }

end

/-- A network before any message: the tables are empty. -/
def Fresh (w : World) : Prop :=
  w.packets = [] ∧ ∀ a s, w.nodes.lookup a = some s →
    ∃ book, s = { routeTable := newRouteTable a {}, addressbook := book }

end FavorX.Discovery

import FavorX.Shed

/-!
The route table of a node. A path is a list of nodes, the target first and the
neighbour that announced it last, kept under the hash of its nodes; for each of its
nodes but the last a route names the path and the neighbour. A new table resumes
from the state store.
-/
namespace FavorX.RouteTable
open FiniteMaps Shed

def Hash := { b : Bytes // b.length = 32 }

instance : DecidableEq Hash := inferInstanceAs (DecidableEq { b : Bytes // b.length = 32 })

/-- The last 32 bytes, with zeros in front of a shorter string. -/
def bytesToHash (b : Bytes) : Hash :=
  ⟨List.replicate (32 - b.length) 0 ++ b.drop (b.length - 32),by simp; omega⟩

theorem bytesToHash_val (h : Hash) : bytesToHash h.val = h := by
  apply Subtype.ext
  simp [bytesToHash,h.property]

theorem val_bytesToHash {b : Bytes} (whole : b.length = 32) : (bytesToHash b).val = b := by
  simp [bytesToHash,whole]

/-- What the tables of a network share. `unixBytes` writes a Unix time. -/
structure Config where
  sha256 : Bytes → Hash
  unixBytes : Int → Bytes
  maxTTL : Nat := 10
  neighborAlpha : Nat := 2

/-- A path as it travels in messages. -/
structure PbPath where
  sign : Bytes
  bodys : List Bytes
  items : List Bytes
  deriving DecidableEq

/-- A path as it is kept. Times are in nanoseconds. -/
structure Path where
  sign : Bytes
  bodys : List Bytes
  items : List Address
  createTime : Int
  usedTime : Int
  deriving DecidableEq

structure TargetRoute where
  neighbor : Address
  pathKey : Hash
  deriving DecidableEq

/-- The two families of keys of the state store: the paths by their hash, and the
    routes by their target, whose text reads back as it was written. -/
structure StateStore where
  paths : Map Hash Path := ∅
  routes : Map Address (List TargetRoute) := ∅

structure Table where
  self : Address
  paths : Map Hash Path := ∅
  routes : Map Hash (List TargetRoute) := ∅
  store : StateStore := {}

inductive Err
  | notFound
  deriving DecidableEq

def newRouteTable (self : Address) (store : StateStore) : Table := { self := self, store := store }

def getTargetKey (target : Address) : Hash := bytesToHash target

def existRoute (route : TargetRoute) (routes : List TargetRoute) : Bool :=
  routes.any (fun v => v.pathKey == route.pathKey && v.neighbor == route.neighbor)

/-- The nodes of a path that it leads to: all but the neighbour at its end. -/
def iterateTarget (items : List Address) : List Address := items.dropLast

def verifyPath (_ : PbPath) : Bool := true

section
variable (cfg : Config)

/-- The hash of the nodes of a path, written one after the other. -/
def generatePathItems (items : List Bytes) : Hash := cfg.sha256 items.flatten

def sign (body : Bytes) (signs : List Bytes) : Bytes := (cfg.sha256 (body ++ signs.flatten)).val

def unixBody (now : Int) : Bytes := cfg.unixBytes (now / 1000000000)

def shortest : Path → List Path → Path
  | best, [] => best
  | best, v :: rest => if v.items.length < best.items.length then shortest v rest else shortest best rest

def Table.convertPathsToPbPaths (now : Int) (t : Table) : List Path → List PbPath
  | [] => []
  | first :: rest =>
    let path := shortest first rest
    let body := unixBody cfg now
    [{ sign := sign cfg body [path.sign], bodys := path.bodys ++ [body], items := path.items ++ [t.self] }]

def Table.generatePaths (now : Int) (t : Table) (paths : List PbPath) : List PbPath :=
  let body := unixBody cfg now
  if paths = [] then [{ sign := sign cfg body [], bodys := [body], items := [t.self] }]
  else paths.map fun v => { sign := sign cfg body [v.sign], bodys := v.bodys ++ [body], items := v.items ++ [t.self] }

/-- What is kept of the old routes next to a new one. -/
def keepRoutes (old : List TargetRoute) : List TargetRoute :=
  if cfg.neighborAlpha < old.length then old.take cfg.neighborAlpha
  else if old.length = cfg.neighborAlpha then old.take (cfg.neighborAlpha - 1)
  else old

/-- Write the routes of a target to the table and to the store. -/
def Table.putRoutes (t : Table) (target : Address) (routes : List TargetRoute) : Table :=
  { t with
    routes := t.routes.insert (getTargetKey target) routes
    store := { t.store with routes := t.store.routes.insert target routes } }

def Table.addRoute (route : TargetRoute) (t : Table) (target : Address) : Table :=
  let old := (t.routes.lookup (getTargetKey target)).getD []
  if 0 < old.length then
    if existRoute route old then t else t.putRoutes target (route :: keepRoutes cfg old)
  else t.putRoutes target [route]

def Table.savePath (createTime usedTime : Int) (p : PbPath) (t : Table) : Table :=
  if !verifyPath p then t
  else if p.items.length < 2 then t
  else
    let pathKey := generatePathItems cfg p.items
    let path : Path := { sign := p.sign, bodys := p.bodys, items := p.items, createTime := createTime, usedTime := usedTime }
    let saved := { t with
      paths := t.paths.insert pathKey path
      store := { t.store with paths := t.store.paths.insert pathKey path } }
    (iterateTarget p.items).foldl (Table.addRoute cfg ⟨p.items.getLastD [],pathKey⟩) saved

def Table.savePaths : (clock : Nat → Int) → List PbPath → Table → Table
  | _, [], t => t
  | clock, path :: paths, t => Table.savePaths (fun i => clock (i + 2)) paths (t.savePath cfg (clock 0) (clock 1) path)

def Table.get (t : Table) (target : Address) : Except Err (List Path) :=
  match t.routes.lookup (getTargetKey target) with
  | none => .error .notFound
  | some routes =>
    let paths := routes.filterMap (fun v => t.paths.lookup v.pathKey)
    if paths = [] then .error .notFound else .ok paths

/-- The neighbours with a route to a target, each once and in no certain order. -/
def Table.getNextHop (t : Table) (target : Address) (skips : List Address) : List Address :=
  match t.routes.lookup (getTargetKey target) with
  | none => []
  | some routes => ((routes.map TargetRoute.neighbor).filter (fun v => v ∉ skips)).dedup

/-- Mark the paths of some routes as used. The clock is read twice for a path. -/
def touchPaths : (clock : Nat → Int) → List TargetRoute → Map Hash Path → Map Hash Path
  | _, [], paths => paths
  | clock, v :: routes, paths =>
    match paths.lookup v.pathKey with
    | none => touchPaths clock routes paths
    | some p =>
      touchPaths (fun i => clock (i + 2)) routes
        (if 0 < clock 0 - p.usedTime then paths.insert v.pathKey { p with usedTime := clock 1 } else paths)

def Table.updateUsedTime (clock : Nat → Int) (t : Table) (target neighbor : Address) : Table :=
  match t.routes.lookup (getTargetKey target) with
  | none => t
  | some routes => { t with paths := touchPaths clock (routes.filter (fun v => v.neighbor = neighbor)) t.paths }

/-- Remove the routes of a target over a path, from the table only. -/
def Table.dropRoute (pathKey : Hash) (t : Table) (target : Address) : Table :=
  match t.routes.lookup (getTargetKey target) with
  | none => t
  | some routes =>
    let routesNow := routes.filter (fun v => v.pathKey ≠ pathKey)
    if routesNow.length < routes.length then { t with routes := t.routes.insert (getTargetKey target) routesNow } else t

def Table.delete (path : Path) (t : Table) : Table :=
  let pathKey := generatePathItems cfg path.items
  let removed := { t with
    paths := t.paths.erase pathKey
    store := { t.store with paths := t.store.paths.erase pathKey } }
  (iterateTarget path.items).foldl (Table.dropRoute pathKey) removed

/-- A path was not used for longer than a duration, both in milliseconds. -/
def expired (now expire : Int) (path : Path) : Bool := expire.tdiv 1000000 < (now - path.usedTime).tdiv 1000000

/-- Delete what has expired. The paths are visited in some order, and the clock
    is read for each of them. -/
def Table.gc (expire : Int) : (clock : Nat → Int) → (order : List Hash) → Table → Table
  | _, [], t => t
  | clock, key :: order, t =>
    match t.paths.lookup key with
    | none => Table.gc expire (fun i => clock (i + 1)) order t
    | some path =>
      Table.gc expire (fun i => clock (i + 1)) order (if expired (clock 0) expire path then t.delete cfg path else t)

/-- Read the paths of the store, in the order in which it yields their keys. -/
def Table.resumePaths : List Hash → Table → Table
  | [], t => t
  | key :: order, t =>
    match t.store.paths.lookup key with
    | none => Table.resumePaths order t
    | some path =>
      Table.resumePaths order
        (if path.items.length ≤ cfg.maxTTL then { t with paths := t.paths.insert (bytesToHash key.val) path } else t)

/-- Read the routes of the store, in the order in which it yields their targets. -/
def Table.resumeRoutes : List Address → Table → Table
  | [], t => t
  | target :: order, t =>
    match t.store.routes.lookup target with
    | none => Table.resumeRoutes order t
    | some routes => Table.resumeRoutes order { t with routes := t.routes.insert (bytesToHash target) routes }

variable (route : TargetRoute)

theorem addRoute_eq (t : Table) {target : Address} :
    t.addRoute cfg route target =
      let old := (t.routes.lookup (getTargetKey target)).getD []
      if existRoute route old then t else t.putRoutes target (route :: keepRoutes cfg old) := by
  unfold Table.addRoute
  generalize (t.routes.lookup (getTargetKey target)).getD [] = old
  cases old with
  | nil => simp [existRoute,keepRoutes]
  | cons r old => simp

theorem addRoute_paths {t : Table} {target : Address} :
    (t.addRoute cfg route target).self = t.self ∧ (t.addRoute cfg route target).paths = t.paths ∧
      (t.addRoute cfg route target).store.paths = t.store.paths := by
  rw [addRoute_eq]
  dsimp only
  split <;> exact ⟨rfl,rfl,rfl⟩

theorem addRoutes_paths (targets : List Address) (t : Table) :
    (targets.foldl (Table.addRoute cfg route) t).self = t.self ∧
      (targets.foldl (Table.addRoute cfg route) t).paths = t.paths ∧
      (targets.foldl (Table.addRoute cfg route) t).store.paths = t.store.paths := by
  induction targets generalizing t with
  | nil => exact ⟨rfl,rfl,rfl⟩
  | cons a rest ih =>
    obtain ⟨self,paths,store⟩ := ih (t.addRoute cfg route a)
    obtain ⟨self',paths',store'⟩ := addRoute_paths cfg route
    exact ⟨self.trans self',paths.trans paths',store.trans store'⟩

theorem dropRoute_paths (key : Hash) (t : Table) (target : Address) :
    (t.dropRoute key target).self = t.self ∧ (t.dropRoute key target).paths = t.paths ∧
      (t.dropRoute key target).store = t.store := by
  unfold Table.dropRoute
  split
  · exact ⟨rfl,rfl,rfl⟩
  · dsimp only
    split <;> exact ⟨rfl,rfl,rfl⟩

theorem dropRoutes_paths (key : Hash) (targets : List Address) (t : Table) :
    (targets.foldl (Table.dropRoute key) t).self = t.self ∧ (targets.foldl (Table.dropRoute key) t).paths = t.paths ∧
      (targets.foldl (Table.dropRoute key) t).store = t.store := by
  induction targets generalizing t with
  | nil => exact ⟨rfl,rfl,rfl⟩
  | cons a rest ih =>
    obtain ⟨self,paths,store⟩ := ih (t.dropRoute key a)
    obtain ⟨self',paths',store'⟩ := dropRoute_paths key t a
    exact ⟨self.trans self',paths.trans paths',store.trans store'⟩

theorem delete_paths (path : Path) (t : Table) :
    (t.delete cfg path).self = t.self ∧ (t.delete cfg path).paths = t.paths.erase (generatePathItems cfg path.items) ∧
      (t.delete cfg path).store = { t.store with paths := t.store.paths.erase (generatePathItems cfg path.items) } :=
  dropRoutes_paths _ _ _

end

def sampleConfig : Config where
  sha256 b := bytesToHash [UInt8.ofNat b.length]
  unixBytes _ := []

end FavorX.RouteTable

import FavorX.Multicast

/-!
The connected peers of groups (`pkg/multicast`). The service drops the entry of a group when its
slice gets empty; `joinGroup` and `observeGroup` do not put it back. A peer that leaves is gone from
every group exactly as long as no neighbour is added that way (`left_everywhere_iff`).
-/
namespace FavorX.GroupPeers
open Shed (Address)
open Depth (PSlice)
open Multicast (GType)

/-! ### Removal from a slice -/

/-- The last element takes the place of the one that goes. -/
def cut (peers : List Address) (i : Nat) : List Address :=
  let newLength := peers.length - 1
  let cpy := peers.take newLength
  if i = newLength then cpy
  else
    match peers[newLength]? with
    | some lastItem => cpy.set i lastItem
    | none => cpy

def remove (s : PSlice) (addr : Address) : PSlice :=
  match (s.bin (s.po addr)).findIdx? (· = addr) with
  | none => s
  | some i =>
    { s with
      peers := s.peers.set (s.po addr) (cut (s.bin (s.po addr)) i)
      bins := by rw [List.length_set]; exact s.bins
      room := by rw [List.length_set]; exact s.room }

/-! ### The code -/

structure ConfigNodeGroup where
  gType : GType
  keepConnectedPeers : Int
  keepPingPeers : Int
  nodes : List Address

/-- A group points to the slice of its connected peers, which it may share with the
    service. The other two slices are its own. -/
structure Group where
  gid : Address
  connectedPeers : Nat
  keepPeers : PSlice
  knownPeers : PSlice
  option : ConfigNodeGroup

/-- The slices in memory by their pointers, and the two maps. -/
structure Service where
  self : Address
  heap : Nat → PSlice
  next : Nat
  connectedPeers : Address → Option Nat
  groups : Address → Option Group

inductive Err where
  | groupNotFound
  | alreadyInGroup
  deriving DecidableEq

theorem one_room : 1 ≤ 256 := by simp

def newSlice (self : Address) : PSlice := PSlice.new 1 self Nat.one_pos one_room

def new (self : Address) : Service where
  self := self
  heap _ := newSlice self
  next := 0
  connectedPeers _ := none
  groups _ := none

namespace Service
variable (s : Service)

def modify (ptr : Nat) (f : PSlice → PSlice) : Service :=
  { s with heap := Function.update s.heap ptr (f (s.heap ptr)) }

def setGroup (gid : Address) (g : Option Group) : Service := { s with groups := Function.update s.groups gid g }

def setConnected (gid : Address) (conn : Option Nat) : Service :=
  { s with connectedPeers := Function.update s.connectedPeers gid conn }

def alloc : Nat × Service :=
  (s.next,{ s with heap := Function.update s.heap s.next (newSlice s.self), next := s.next + 1 })

def newGroup (gid : Address) (o : ConfigNodeGroup) : Group × Service :=
  let o := { o with keepConnectedPeers := max o.keepConnectedPeers 0, keepPingPeers := max o.keepPingPeers 0 }
  let (conn,s') :=
    match s.connectedPeers gid with
    | some conn => (conn,s)
    | none => s.alloc
  ({ gid := gid, connectedPeers := conn, keepPeers := newSlice s.self, knownPeers := newSlice s.self, option := o },s')

/-- A connected peer is neither kept nor only known in any group. -/
def unkeep (p : Address) : Service :=
  { s with
    groups := fun gid => (s.groups gid).map (fun gr =>
      { gr with keepPeers := remove gr.keepPeers p, knownPeers := remove gr.knownPeers p }) }

/-- The slice of the service for a group, put back from the group if it was dropped. -/
def connect (gid : Address) : Nat × Service :=
  match s.connectedPeers gid with
  | some conn => (conn,s)
  | none =>
    match s.groups gid with
    | some g => (g.connectedPeers,s.setConnected gid (some g.connectedPeers))
    | none => (s.alloc.1,s.alloc.2.setConnected gid (some s.alloc.1))

def connectedAddToGroup (gid : Address) (peers : List Address) : Service :=
  peers.foldl (fun s' p => (s'.modify (s.connect gid).1 (·.add [p])).unkeep p) (s.connect gid).2

def connectedRemoveFromGroup (gid : Address) (peers : List Address) : Service :=
  match s.connectedPeers gid with
  | none => s
  | some conn =>
    let s := s.modify conn (fun slice => peers.foldl remove slice)
    if (s.heap conn).length = 0 then s.setConnected gid none else s

/-- `Range` chooses the order of the entries. What is done to each is what
    `connectedRemoveFromGroup` does. -/
def leaveConnectedAll (order : List Address) (peers : List Address) : Service :=
  order.foldl (fun s gid => s.connectedRemoveFromGroup gid peers) s

/-- Add one of the nodes that the caller names: a neighbour to the connected peers of the group. -/
def addNode (isNeighbor : Address → Bool) (gid v : Address) : Service :=
  if v = s.self then s
  else
    match s.groups gid with
    | none => s
    | some g =>
      if isNeighbor v then s.modify g.connectedPeers (·.add [v])
      else s.setGroup gid (some { g with knownPeers := g.knownPeers.add [v] })

def addNodes (isNeighbor : Address → Bool) (gid : Address) (nodes : List Address) : Service :=
  nodes.foldl (fun s v => s.addNode isNeighbor gid v) s

def ensureGroup (gid : Address) (option : ConfigNodeGroup) : Service :=
  match s.groups gid with
  | some _ => s
  | none => (s.newGroup gid option).2.setGroup gid (some (s.newGroup gid option).1)

def observeGroup (gid : Address) (option : ConfigNodeGroup) (isNeighbor : Address → Bool) : Service :=
  (s.ensureGroup gid { option with gType := .observe }).addNodes isNeighbor gid option.nodes

def observeGroupCancel (gid : Address) : Except Err Service :=
  match s.groups gid with
  | none => .error .groupNotFound
  | some g => .ok (if g.option.gType = .observe then s.setGroup gid none else s)

def setJoined (gid : Address) : Service :=
  s.setGroup gid ((s.groups gid).map (fun g => { g with option := { g.option with gType := .join } }))

def isJoined (gid : Address) : Bool := (s.groups gid).any (fun g => g.option.gType = .join)

def joinGroup (gid : Address) (option : ConfigNodeGroup) (isNeighbor : Address → Bool) : Except Err Service :=
  if s.isJoined gid then .error .alreadyInGroup
  else .ok (((s.ensureGroup gid option).setJoined gid).addNodes isNeighbor gid option.nodes)

end Service

/-! ### Runs -/

/-- The calls, with the neighbours of the moment and the order of `Range`. -/
inductive Call where
  | joinGroup (gid : Address) (option : ConfigNodeGroup) (isNeighbor : Address → Bool)
  | observeGroup (gid : Address) (option : ConfigNodeGroup) (isNeighbor : Address → Bool)
  | observeGroupCancel (gid : Address)
  | connectedAddToGroup (gid : Address) (peers : List Address)
  | connectedRemoveFromGroup (gid : Address) (peers : List Address)
  | leaveConnectedAll (order peers : List Address)

def perform (s : Service) : Call → Service
  | .joinGroup gid option isNeighbor => (s.joinGroup gid option isNeighbor).toOption.getD s
  | .observeGroup gid option isNeighbor => s.observeGroup gid option isNeighbor
  | .observeGroupCancel gid => (s.observeGroupCancel gid).toOption.getD s
  | .connectedAddToGroup gid peers => s.connectedAddToGroup gid peers
  | .connectedRemoveFromGroup gid peers => s.connectedRemoveFromGroup gid peers
  | .leaveConnectedAll order peers => s.leaveConnectedAll order peers

/-- `Range` visits every entry once. -/
def Possible (s : Service) : Call → Prop
  | .leaveConnectedAll order _ => order.Nodup ∧ ∀ gid, gid ∈ order ↔ (s.connectedPeers gid).isSome
  | _ => True

def neighbours (s : Service) (option : ConfigNodeGroup) (isNeighbor : Address → Bool) : List Address :=
  option.nodes.filter (fun v => v ≠ s.self ∧ isNeighbor v)

/-- The peers that a call adds to the connected peers of a group. -/
def added (s : Service) : Call → List Address
  | .joinGroup gid option isNeighbor => if s.isJoined gid then [] else neighbours s option isNeighbor
  | .observeGroup _ option isNeighbor => neighbours s option isNeighbor
  | .connectedAddToGroup _ peers => peers
  | _ => []

/-- The peers that have left and were not added since. -/
def leavers (left : Set Address) (s : Service) (c : Call) : Set Address :=
  match c with
  | .leaveConnectedAll _ peers => left ∪ { p | p ∈ peers }
  | c => left \ { p | p ∈ added s c }

def held (slice : PSlice) : List Address := slice.peers.flatten

/-- Peers that left are in no group, and a group with connected peers shares its slice with the service. -/
structure Consistent (left : Set Address) (s : Service) : Prop where
  gone : ∀ p ∈ left, ∀ gid g, s.groups gid = some g → p ∉ held (s.heap g.connectedPeers)
  shared : ∀ gid g, s.groups gid = some g → (s.heap g.connectedPeers).length ≠ 0 →
    s.connectedPeers gid = some g.connectedPeers

def Runs : Service → List Call → Prop
  | _, [] => True
  | s, c :: cs => Possible s c ∧ Runs (perform s c) cs

def Throughout : Set Address → Service → List Call → Prop
  | left, s, [] => Consistent left s
  | left, s, c :: cs => Consistent left s ∧ Throughout (leavers left s c) (perform s c) cs

/-- Whoever joins or observes a group adds neighbours only where the service has the slice of the group. -/
def Fits (s : Service) : Call → Prop
  | .joinGroup gid option isNeighbor =>
    s.isJoined gid ∨ neighbours s option isNeighbor = [] ∨ (s.connectedPeers gid).isSome
  | .observeGroup gid option isNeighbor => neighbours s option isNeighbor = [] ∨ (s.connectedPeers gid).isSome
  | _ => True

def AllFit : Service → List Call → Prop
  | _, [] => True
  | s, c :: cs => Fits s c ∧ AllFit (perform s c) cs

/-! ### Slices with one bin -/

def Simple (slice : PSlice) : Prop := ∃ peers, slice.peers = [peers] ∧ peers.Nodup

theorem simple_new {self : Address} : Simple (newSlice self) := ⟨[],rfl,List.nodup_nil⟩

variable {slice : PSlice}

theorem po_simple {peers : List Address} (one : slice.peers = [peers]) (addr : Address) : slice.po addr = 0 := by
  simp only [PSlice.po,PSlice.maxBins,one,List.length_singleton]
  split <;> omega

theorem length_eq (slice : PSlice) : slice.length = (held slice).length := by
  rw [PSlice.length,held,List.length_flatten]

theorem cut_perm {peers : List Address} {i : Nat} {addr : Address} (at_i : peers[i]? = some addr) :
    (addr :: cut peers i).Perm peers := by
  obtain ⟨bound,here⟩ := List.getElem?_eq_some_iff.mp at_i
  obtain rfl | ⟨front,last,rfl⟩ := List.eq_nil_or_concat' peers
  · exact absurd bound (Nat.not_lt_zero i)
  have length : (front ++ [last]).length - 1 = front.length := by simp
  simp only [cut,length,List.take_left',List.getElem?_concat_length]
  by_cases final : i = front.length
  · subst final
    rw [if_pos rfl]
    rw [List.getElem_concat_length rfl] at here
    rw [here]
    exact (List.perm_append_singleton addr front).symm
  rw [if_neg final]
  have inside : i < front.length := by
    rw [List.length_append] at bound
    omega
  rw [List.getElem_append_left inside] at here
  calc (addr :: front.set i last).Perm (addr :: last :: front.eraseIdx i) :=
        (List.set_perm_cons_eraseIdx inside last).cons addr
    List.Perm _ (last :: addr :: front.eraseIdx i) := List.Perm.swap last addr _
    List.Perm _ (last :: front) := (here ▸ List.getElem_cons_eraseIdx_perm inside).cons last
    List.Perm _ (front ++ [last]) := (List.perm_append_singleton last front).symm

theorem remove_perm (simple : Simple slice) {addr : Address} :
    Simple (remove slice addr) ∧ ∀ p, p ∈ held (remove slice addr) ↔ p ≠ addr ∧ p ∈ held slice := by
  obtain ⟨peers,one,nodup⟩ := simple
  have bin : slice.bin 0 = peers := by simp [PSlice.bin,one]
  simp only [remove,po_simple one,bin,held]
  cases found : peers.findIdx? (· = addr) with
  | none =>
    refine ⟨⟨peers,one,nodup⟩,fun p => ?_⟩
    have absent : ∀ q ∈ peers, q ≠ addr := by simpa using found
    simp only [one,List.flatten_cons,List.flatten_nil,List.append_nil]
    exact ⟨fun member => ⟨absent p member,member⟩,fun both => both.2⟩
  | some i =>
    obtain ⟨bound,here,-⟩ := List.findIdx?_eq_some_iff_getElem.mp found
    have perm : (addr :: cut peers i).Perm peers :=
      cut_perm (List.getElem?_eq_some_iff.mpr ⟨bound,of_decide_eq_true here⟩)
    have distinct := List.nodup_cons.mp (perm.nodup_iff.mpr nodup)
    simp only [one,List.set_cons_zero,List.flatten_cons,List.flatten_nil,List.append_nil]
    refine ⟨⟨cut peers i,rfl,distinct.2⟩,fun p => ?_⟩
    rw [← perm.mem_iff,List.mem_cons]
    constructor
    · intro member
      exact ⟨fun same => distinct.1 (same ▸ member),Or.inr member⟩
    · rintro ⟨other,same | member⟩
      · exact absurd same other
      · exact member

theorem removes_perm {peers : List Address} (simple : Simple slice) :
    Simple (peers.foldl remove slice) ∧ ∀ p, p ∈ held (peers.foldl remove slice) ↔ p ∉ peers ∧ p ∈ held slice := by
  induction peers generalizing slice with
  | nil => exact ⟨simple,fun p => by simp⟩
  | cons addr peers ih =>
    obtain ⟨simple',members⟩ := remove_perm simple
    obtain ⟨final,all⟩ := ih simple'
    refine ⟨final,fun p => ?_⟩
    rw [List.foldl_cons,all,members,List.mem_cons]
    tauto

theorem add_perm (simple : Simple slice) (addr : Address) :
    Simple (slice.add [addr]) ∧ ∀ p, p ∈ held (slice.add [addr]) ↔ p = addr ∨ p ∈ held slice := by
  obtain ⟨peers,one,nodup⟩ := simple
  have bin : slice.bin 0 = peers := by simp [PSlice.bin,one]
  have known : slice.existsPeer addr = peers.contains addr := by rw [PSlice.existsPeer,po_simple one,bin]
  by_cases member : addr ∈ peers
  · have same : slice.add [addr] = slice := by simp [PSlice.add,known,member]
    rw [same]
    refine ⟨⟨peers,one,nodup⟩,fun p => ⟨Or.inr,?_⟩⟩
    rintro (rfl | inside)
    · simpa [held,one] using member
    · exact inside
  have grown : (slice.add [addr]).peers = [peers ++ [addr]] := by
    simp [PSlice.add,known,member,PSlice.append,po_simple one,one]
  refine ⟨⟨peers ++ [addr],grown,?_⟩,fun p => ?_⟩
  · rw [List.nodup_append_comm]
    exact List.nodup_cons.mpr ⟨member,nodup⟩
  · simp only [held,grown,one,List.flatten_cons,List.flatten_nil,List.append_nil,List.mem_append,List.mem_singleton]
    exact or_comm

/-! ### Owners of slices -/

/-- A group ID has a slice, by an entry of the service or by its group. -/
def Owns (s : Service) (gid : Address) (ptr : Nat) : Prop :=
  s.connectedPeers gid = some ptr ∨ ∃ g, s.groups gid = some g ∧ g.connectedPeers = ptr

/-- A group ID has one slice and shares it with no other; what is not empty has an entry. -/
structure Sound (left : Set Address) (s : Service) : Prop where
  same : ∀ gid ptr ptr', Owns s gid ptr → Owns s gid ptr' → ptr = ptr'
  apart : ∀ gid gid' ptr, Owns s gid ptr → Owns s gid' ptr → gid = gid'
  bounded : ∀ gid ptr, Owns s gid ptr → ptr < s.next
  simple : ∀ ptr, Simple (s.heap ptr)
  gone : ∀ p ∈ left, ∀ gid ptr, Owns s gid ptr → p ∉ held (s.heap ptr)
  shared : ∀ gid ptr, Owns s gid ptr → held (s.heap ptr) ≠ [] → s.connectedPeers gid = some ptr

variable {left left' : Set Address} {s : Service}

theorem Sound.consistent (sound : Sound left s) : Consistent left s where
  gone p member gid g here := sound.gone p member gid g.connectedPeers (Or.inr ⟨g,here,rfl⟩)
  shared gid g here filled := by
    rw [length_eq] at filled
    exact sound.shared gid g.connectedPeers (Or.inr ⟨g,here,rfl⟩) (fun empty => filled (by rw [empty,List.length_nil]))

theorem Sound.fewer (sound : Sound left s) (sub : left' ⊆ left) : Sound left' s :=
  { sound with gone := fun p member => sound.gone p (sub member) }

theorem sound_new (self : Address) : Sound ∅ (new self) := by
  have nobody : ∀ gid ptr, ¬Owns (new self) gid ptr := by simp [Owns,new]
  exact {
    same := fun gid ptr _ owns => absurd owns (nobody gid ptr)
    apart := fun gid _ ptr owns => absurd owns (nobody gid ptr)
    bounded := fun gid ptr owns => absurd owns (nobody gid ptr)
    simple := fun _ => simple_new
    gone := fun _ member => absurd member (Set.notMem_empty _)
    shared := fun gid ptr owns => absurd owns (nobody gid ptr) }

theorem heap_modify (s : Service) (ptr ptr' : Nat) (f : PSlice → PSlice) :
    (s.modify ptr f).heap ptr' = if ptr' = ptr then f (s.heap ptr) else s.heap ptr' :=
  Function.update_apply s.heap ptr _ ptr'

variable {gid : Address} {isNeighbor : Address → Bool}

variable {option : ConfigNodeGroup}

section
variable {left : Set Address} {s s' : Service}

section
variable (sound : Sound left s)
include sound

/-- Owners may go and slices lose peers, as long as what is not empty keeps its entry. -/
theorem Sound.drain (simple : ∀ ptr, Simple (s'.heap ptr)) (less : ∀ ptr, held (s'.heap ptr) ⊆ held (s.heap ptr))
    (next : s'.next = s.next) (entries : ∀ gid ptr, s.connectedPeers gid = some ptr → held (s'.heap ptr) ≠ [] →
      s'.connectedPeers gid = some ptr) (sub : ∀ gid ptr, Owns s' gid ptr → Owns s gid ptr) : Sound left s' where
  same gid ptr ptr' owns owns' := sound.same gid ptr ptr' (sub _ _ owns) (sub _ _ owns')
  apart gid gid' ptr owns owns' := sound.apart gid gid' ptr (sub _ _ owns) (sub _ _ owns')
  bounded gid ptr owns := next ▸ sound.bounded gid ptr (sub _ _ owns)
  simple := simple
  gone p member gid ptr owns inside := sound.gone p member gid ptr (sub _ _ owns) (less ptr inside)
  shared gid ptr owns filled := by
    have before : held (s.heap ptr) ≠ [] := fun empty => filled (List.subset_nil.mp (empty ▸ less ptr))
    exact entries gid ptr (sound.shared gid ptr (sub _ _ owns) before) filled

theorem Sound.regroup {groups : Address → Option Group}
    (kept : ∀ gid g, groups gid = some g → ∃ g', s.groups gid = some g' ∧ g'.connectedPeers = g.connectedPeers) :
    Sound left { s with groups := groups } := by
  refine sound.drain sound.simple (fun _ => List.Subset.refl _) rfl (fun _ _ entry _ => entry) (fun gid ptr owns => ?_)
  obtain entry | ⟨g,here,rfl⟩ := owns
  · exact Or.inl entry
  · exact Or.inr (kept gid g here)

theorem Sound.fresh (gid : Address) (without : ∀ ptr, ¬Owns s gid ptr)
    (heap : s'.heap = Function.update s.heap s.next (newSlice s.self)) (next : s'.next = s.next + 1)
    (entries : ∀ gid', gid' ≠ gid → s'.connectedPeers gid' = s.connectedPeers gid')
    (sub : ∀ gid' ptr, Owns s' gid' ptr → Owns s gid' ptr ∨ gid' = gid ∧ ptr = s.next) : Sound left s' := by
  have old : ∀ gid' ptr, Owns s gid' ptr → s'.heap ptr = s.heap ptr := by
    intro gid' ptr owns
    rw [heap,Function.update_of_ne (Nat.ne_of_lt (sound.bounded gid' ptr owns))]
  have new : held (s'.heap s.next) = [] := by rw [heap,Function.update_self]; rfl
  constructor
  case same =>
    intro gid' ptr ptr' owns owns'
    rcases sub _ _ owns with before | ⟨rfl,rfl⟩ <;> rcases sub _ _ owns' with before' | ⟨same,rfl⟩
    · exact sound.same gid' ptr ptr' before before'
    · exact absurd (same ▸ before) (without ptr)
    · exact absurd before' (without ptr')
    · rfl
  case apart =>
    intro gid₁ gid₂ ptr owns owns'
    rcases sub _ _ owns with before | ⟨rfl,rfl⟩ <;> rcases sub _ _ owns' with before' | ⟨same,here⟩
    · exact sound.apart gid₁ gid₂ ptr before before'
    · exact absurd here (Nat.ne_of_lt (sound.bounded gid₁ ptr before))
    · exact absurd rfl (Nat.ne_of_lt (sound.bounded gid₂ s.next before'))
    · exact same.symm
  case bounded =>
    intro gid' ptr owns
    rw [next]
    rcases sub _ _ owns with before | ⟨-,rfl⟩
    · exact Nat.lt_succ_of_lt (sound.bounded gid' ptr before)
    · exact Nat.lt_succ_self _
  case simple =>
    intro ptr
    rw [heap,Function.update_apply]
    split
    · exact simple_new
    · exact sound.simple ptr
  case gone =>
    intro p member gid' ptr owns
    rcases sub _ _ owns with before | ⟨-,rfl⟩
    · rw [old gid' ptr before]
      exact sound.gone p member gid' ptr before
    · rw [new]
      exact List.not_mem_nil
  case shared =>
    intro gid' ptr owns filled
    rcases sub _ _ owns with before | ⟨-,rfl⟩
    · rw [old gid' ptr before] at filled
      have other : gid' ≠ gid := fun same => without ptr (same ▸ before)
      rw [entries gid' other]
      exact sound.shared gid' ptr before filled
    · exact absurd new filled

theorem Sound.add {ptr : Nat} (entry : s.connectedPeers gid = some ptr) (v : Address) :
    Sound (left \ {v}) (s.modify ptr (·.add [v])) := by
  obtain ⟨simple,members⟩ := add_perm (sound.simple ptr) v
  constructor
  case same => exact sound.same
  case apart => exact sound.apart
  case bounded => exact sound.bounded
  case simple =>
    intro ptr'
    rw [heap_modify]
    split
    · exact simple
    · exact sound.simple ptr'
  case gone =>
    rintro p ⟨member,other⟩ gid' ptr' owns
    have before := sound.gone p member gid' ptr' owns
    rw [heap_modify]
    split
    · next here =>
      subst here
      rw [members]
      exact not_or.mpr ⟨other,before⟩
    · exact before
  case shared =>
    intro gid' ptr' owns filled
    by_cases here : ptr' = ptr
    · subst here
      rw [sound.apart gid' gid ptr' owns (Or.inl entry)]
      exact entry
    · rw [heap_modify,if_neg here] at filled
      exact sound.shared gid' ptr' owns filled

/-! ### Calls -/

theorem Sound.ensure (gid : Address) (option : ConfigNodeGroup) : Sound left (s.ensureGroup gid option) := by
  cases known : s.groups gid with
  | some g => simpa only [Service.ensureGroup,known] using sound
  | none =>
    simp only [Service.ensureGroup,known,Service.newGroup]
    cases entry : s.connectedPeers gid with
    | some conn =>
      refine sound.drain sound.simple (fun _ => List.Subset.refl _) rfl (fun _ _ entry _ => entry) ?_
      rintro gid' ptr (entry' | ⟨g,here,rfl⟩)
      · exact Or.inl entry'
      simp only [Service.setGroup,Function.update_apply] at here
      split at here
      · next same => subst same; cases here; exact Or.inl entry
      · exact Or.inr ⟨g,here,rfl⟩
    | none =>
      refine sound.fresh gid ?_ rfl rfl (fun _ _ => rfl) ?_
      · simp [Owns,known,entry]
      rintro gid' ptr (entry' | ⟨g,here,rfl⟩)
      · exact Or.inl (Or.inl entry')
      simp only [Service.setGroup,Function.update_apply] at here
      split at here
      · next same => cases here; exact Or.inr ⟨same,rfl⟩
      · exact Or.inl (Or.inr ⟨g,here,rfl⟩)

theorem Sound.setGroup {g : Option Group}
    (kept : ∀ g₁, g = some g₁ → ∃ g', s.groups gid = some g' ∧ g'.connectedPeers = g₁.connectedPeers) :
    Sound left (s.setGroup gid g) := by
  refine sound.regroup (fun gid' g₁ here => ?_)
  rw [Function.update_apply] at here
  split at here
  · next same => subst same; exact kept g₁ here
  · exact ⟨g₁,here,rfl⟩

theorem Sound.setJoined (gid : Address) : Sound left (s.setJoined gid) := by
  refine sound.setGroup (fun g₁ here => ?_)
  obtain ⟨g,known,rfl⟩ := Option.map_eq_some_iff.mp here
  exact ⟨g,known,rfl⟩

theorem Sound.addNode (isNeighbor : Address → Bool) (gid v : Address)
    (fits : v ≠ s.self → isNeighbor v → (s.connectedPeers gid).isSome) :
    Sound { p ∈ left | ¬(p = v ∧ v ≠ s.self ∧ isNeighbor v) } (s.addNode isNeighbor gid v) := by
  have fewer : { p ∈ left | ¬(p = v ∧ v ≠ s.self ∧ isNeighbor v) } ⊆ left := fun p member => member.1
  simp only [Service.addNode]
  by_cases own : v = s.self
  · rw [if_pos own]
    exact sound.fewer fewer
  rw [if_neg own]
  cases known : s.groups gid with
  | none => exact sound.fewer fewer
  | some g =>
    by_cases neighbour : isNeighbor v
    · simp only [neighbour,if_true]
      obtain ⟨ptr,entry⟩ := Option.isSome_iff_exists.mp (fits own neighbour)
      have pointer : ptr = g.connectedPeers := sound.same gid _ _ (Or.inl entry) (Or.inr ⟨g,known,rfl⟩)
      refine (sound.add (pointer ▸ entry) v).fewer ?_
      rintro p ⟨member,other⟩
      exact ⟨member,fun same => other ⟨same,own,trivial⟩⟩
    dsimp only
    rw [if_neg neighbour]
    refine (sound.setGroup (fun g₁ here => ?_)).fewer fewer
    cases here
    exact ⟨g,known,rfl⟩

end

theorem addNode_frame (s : Service) {isNeighbor : Address → Bool} (gid v : Address) :
    (s.addNode isNeighbor gid v).self = s.self ∧
      (s.addNode isNeighbor gid v).connectedPeers = s.connectedPeers := by
  simp only [Service.addNode]
  by_cases own : v = s.self
  · simp [own]
  rw [if_neg own]
  cases s.groups gid with
  | none => exact ⟨rfl,rfl⟩
  | some g => dsimp only; split <;> exact ⟨rfl,rfl⟩

theorem addNodes_frame (s : Service) (isNeighbor : Address → Bool) (gid : Address) (nodes : List Address) :
    (s.addNodes isNeighbor gid nodes).connectedPeers = s.connectedPeers := by
  induction nodes generalizing s with
  | nil => rfl
  | cons v nodes ih => exact (ih _).trans (addNode_frame s gid v).2

section
variable (sound : Sound left s)
include sound

theorem Sound.addNodes (isNeighbor : Address → Bool) (gid : Address) (nodes : List Address)
    (fits : (∀ v ∈ nodes, ¬(v ≠ s.self ∧ isNeighbor v)) ∨ (s.connectedPeers gid).isSome) :
    Sound { p ∈ left | ¬(p ∈ nodes ∧ p ≠ s.self ∧ isNeighbor p) } (s.addNodes isNeighbor gid nodes) := by
  induction nodes generalizing left s with
  | nil => exact sound.fewer (fun p member => member.1)
  | cons v nodes ih =>
    obtain ⟨self,entries⟩ := addNode_frame s gid v
    have first := sound.addNode isNeighbor gid v (fun own neighbour =>
      fits.resolve_left (fun none => none v List.mem_cons_self ⟨own,neighbour⟩))
    have rest := ih first (by
      rw [self,entries]
      exact fits.imp_left (fun none u member => none u (List.mem_cons_of_mem v member)))
    refine rest.fewer ?_
    rintro p ⟨member,other⟩
    rw [self]
    refine ⟨⟨member,?_⟩,fun later => other ⟨List.mem_cons_of_mem v later.1,later.2⟩⟩
    rintro ⟨rfl,here⟩
    exact other ⟨List.mem_cons_self,here⟩

theorem Sound.connect (gid : Address) :
    Sound left (s.connect gid).2 ∧ (s.connect gid).2.connectedPeers gid = some (s.connect gid).1 := by
  cases entry : s.connectedPeers gid with
  | some conn => simpa only [Service.connect,entry,and_true] using sound
  | none =>
    cases known : s.groups gid with
    | some g =>
      simp only [Service.connect,entry,known]
      refine ⟨sound.drain sound.simple (fun _ => List.Subset.refl _) rfl ?_ ?_,Function.update_self ..⟩
      · intro gid' ptr entry' _
        have other : gid' ≠ gid := by
          rintro rfl
          rw [entry] at entry'
          cases entry'
        exact (Function.update_of_ne other ..).trans entry'
      rintro gid' ptr (entry' | owned)
      · simp only [Service.setConnected,Function.update_apply] at entry'
        split at entry'
        · next same => subst same; cases entry'; exact Or.inr ⟨g,known,rfl⟩
        · exact Or.inl entry'
      · exact Or.inr owned
    | none =>
      simp only [Service.connect,entry,known]
      refine ⟨sound.fresh gid ?_ rfl rfl (fun gid' other => Function.update_of_ne other ..) ?_,
        Function.update_self ..⟩
      · simp [Owns,known,entry]
      rintro gid' ptr (entry' | owned)
      · simp only [Service.setConnected,Service.alloc,Function.update_apply] at entry'
        split at entry'
        · next same => cases entry'; exact Or.inr ⟨same,rfl⟩
        · exact Or.inl (Or.inl entry')
      · exact Or.inl (Or.inr owned)

theorem Sound.unkeep (p : Address) : Sound left (s.unkeep p) := by
  refine sound.regroup (fun gid g here => ?_)
  obtain ⟨g',known,rfl⟩ := Option.map_eq_some_iff.mp here
  exact ⟨g',known,rfl⟩

theorem Sound.addAll {conn : Nat} (entry : s.connectedPeers gid = some conn) (peers : List Address) :
    Sound (left \ { p | p ∈ peers }) (peers.foldl (fun s' p => (s'.modify conn (·.add [p])).unkeep p) s) := by
  induction peers generalizing left s with
  | nil => exact sound.fewer Set.sdiff_subset
  | cons v peers ih =>
    refine (ih ((sound.add entry v).unkeep v) entry).fewer ?_
    rintro p ⟨member,other⟩
    exact ⟨⟨member,fun same => other (same ▸ List.mem_cons_self)⟩,fun later => other (List.mem_cons_of_mem v later)⟩

end

theorem remove_spec (simple : ∀ ptr, Simple (s.heap ptr)) {conn : Nat} {peers : List Address}
    (entry : s.connectedPeers gid = some conn) : let s' := s.connectedRemoveFromGroup gid peers
    (∀ ptr, Simple (s'.heap ptr)) ∧
      (∀ ptr p, p ∈ held (s'.heap ptr) ↔ p ∈ held (s.heap ptr) ∧ (ptr = conn → p ∉ peers)) ∧
      s'.next = s.next ∧ s'.groups = s.groups ∧
      ∀ gid', s'.connectedPeers gid' =
        if gid' = gid ∧ held (s'.heap conn) = [] then none else s.connectedPeers gid' := by
  obtain ⟨simple',members⟩ := removes_perm (simple conn)
  have heap : (s.connectedRemoveFromGroup gid peers).heap =
      (s.modify conn (fun slice => peers.foldl remove slice)).heap := by
    simp only [Service.connectedRemoveFromGroup,entry]
    split <;> rfl
  refine ⟨fun ptr => ?_,fun ptr p => ?_,?_,?_,fun gid' => ?_⟩
  · rw [heap,heap_modify]
    split
    · exact simple'
    · exact simple ptr
  · rw [heap,heap_modify]
    split
    · next here => rw [members,here]; tauto
    · next other => simp [other]
  · simp only [Service.connectedRemoveFromGroup,entry]
    split <;> rfl
  · simp only [Service.connectedRemoveFromGroup,entry]
    split <;> rfl
  simp only [Service.connectedRemoveFromGroup,entry,length_eq,List.length_eq_zero_iff]
  by_cases empty : held ((s.modify conn (fun slice => peers.foldl remove slice)).heap conn) = []
  · simp only [empty,if_true,and_true,Service.setConnected,Function.update_apply]
    rfl
  · simp only [empty,if_false,and_false]
    rfl

theorem remove_none {peers : List Address} (entry : s.connectedPeers gid = none) :
    s.connectedRemoveFromGroup gid peers = s := by
  simp only [Service.connectedRemoveFromGroup,entry]

theorem Sound.connectedRemove (sound : Sound left s) (gid : Address) (peers : List Address) :
    Sound left (s.connectedRemoveFromGroup gid peers) ∧
      ∀ gid' ptr, Owns (s.connectedRemoveFromGroup gid peers) gid' ptr → Owns s gid' ptr := by
  cases entry : s.connectedPeers gid with
  | none =>
    rw [remove_none entry]
    exact ⟨sound,fun _ _ => id⟩
  | some conn =>
    obtain ⟨simple,members,next,groups,entries⟩ := remove_spec sound.simple entry
    have sub : ∀ gid' ptr, Owns (s.connectedRemoveFromGroup gid peers) gid' ptr → Owns s gid' ptr := by
      rintro gid' ptr (kept | ⟨g,known,rfl⟩)
      · rw [entries] at kept
        split at kept
        · cases kept
        · exact Or.inl kept
      · exact Or.inr ⟨g,groups ▸ known,rfl⟩
    refine ⟨sound.drain simple (fun ptr p inside => ((members ptr p).mp inside).1) next ?_ sub,sub⟩
    intro gid' ptr before filled
    rw [entries,if_neg,before]
    rintro ⟨rfl,empty⟩
    rw [entry] at before
    cases before
    exact filled empty

/-- Peers that the slices of the entries yet to come may still hold are in no other slice. -/
theorem Sound.leave (sound : Sound left s) (order peers : List Address)
    (elsewhere : ∀ p ∈ peers, ∀ gid ptr, Owns s gid ptr → p ∈ held (s.heap ptr) → gid ∈ order) :
    Sound (left ∪ { p | p ∈ peers }) (s.leaveConnectedAll order peers) := by
  induction order generalizing s with
  | nil =>
    refine { sound with gone := ?_ }
    rintro p (member | member) gid ptr owns
    · exact sound.gone p member gid ptr owns
    · exact fun inside => absurd (elsewhere p member gid ptr owns inside) List.not_mem_nil
  | cons gid order ih =>
    obtain ⟨sound',sub⟩ := sound.connectedRemove gid peers
    refine ih sound' (fun p member gid' ptr owns inside => ?_)
    have owned := sub gid' ptr owns
    change p ∈ held ((s.connectedRemoveFromGroup gid peers).heap ptr) at inside
    cases entry : s.connectedPeers gid with
    | none =>
      rw [remove_none entry] at inside
      refine (List.mem_cons.mp (elsewhere p member gid' ptr owned inside)).resolve_left ?_
      rintro rfl
      have kept := sound.shared gid' ptr owned (List.ne_nil_of_mem inside)
      rw [entry] at kept
      cases kept
    | some conn =>
      obtain ⟨-,members,-⟩ := remove_spec sound.simple entry
      obtain ⟨before,other⟩ := (members ptr p).mp inside
      refine (List.mem_cons.mp (elsewhere p member gid' ptr owned before)).resolve_left ?_
      rintro rfl
      exact other (sound.same gid' ptr conn owned (Or.inl entry)) member

theorem ensure_frame (s : Service) {gid : Address} (option : ConfigNodeGroup) :
    (s.ensureGroup gid option).self = s.self ∧ (s.ensureGroup gid option).connectedPeers = s.connectedPeers ∧
      ∃ g, (s.ensureGroup gid option).groups gid = some g := by
  cases known : s.groups gid with
  | some g => simp only [Service.ensureGroup,known,true_and]; exact ⟨g,rfl⟩
  | none =>
    simp only [Service.ensureGroup,known,Service.newGroup]
    cases s.connectedPeers gid with
    | some conn | none => exact ⟨rfl,rfl,_,Function.update_self ..⟩

theorem mem_neighbours {p : Address} :
    p ∈ neighbours s option isNeighbor ↔ p ∈ option.nodes ∧ p ≠ s.self ∧ isNeighbor p := by
  simp [neighbours]

theorem Sound.open (ready : Sound left s') (self : s'.self = s.self) (entries : s'.connectedPeers = s.connectedPeers)
    (fits : neighbours s option isNeighbor = [] ∨ (s.connectedPeers gid).isSome) :
    Sound (left \ { p | p ∈ neighbours s option isNeighbor }) (s'.addNodes isNeighbor gid option.nodes) := by
  have none : neighbours s option isNeighbor = [] → ∀ v ∈ option.nodes, ¬(v ≠ s'.self ∧ isNeighbor v) := by
    intro empty v member neighbour
    have inside : v ∈ neighbours s option isNeighbor := mem_neighbours.mpr ⟨member,self ▸ neighbour⟩
    rw [empty] at inside
    exact List.not_mem_nil inside
  refine (ready.addNodes isNeighbor gid option.nodes (fits.imp none (fun some => entries ▸ some))).fewer ?_
  rintro p ⟨member,other⟩
  exact ⟨member,fun added => other (mem_neighbours.mpr (self ▸ added))⟩

theorem sound_perform (sound : Sound left s) {c : Call} (possible : Possible s c) (fits : Fits s c) :
    Sound (leavers left s c) (perform s c) := by
  cases c with
  | joinGroup gid option isNeighbor =>
    simp only [leavers,added,perform,Service.joinGroup]
    by_cases joined : s.isJoined gid
    · simp only [joined,if_true]
      exact sound.fewer Set.sdiff_subset
    · simp only [joined,Bool.false_eq_true,if_false]
      obtain ⟨self,entries,-⟩ := ensure_frame s option
      exact ((sound.ensure gid option).setJoined gid).open self entries (fits.resolve_left joined)
  | observeGroup gid option isNeighbor =>
    obtain ⟨self,entries,-⟩ := ensure_frame s { option with gType := .observe }
    exact (sound.ensure gid { option with gType := .observe }).open self entries fits
  | observeGroupCancel gid =>
    refine Sound.fewer ?_ Set.sdiff_subset
    simp only [perform,Service.observeGroupCancel]
    cases s.groups gid with
    | none => exact sound
    | some g =>
      simp only [Except.toOption,Option.getD_some]
      split
      · exact sound.setGroup (fun _ here => nomatch here)
      · exact sound
  | connectedAddToGroup gid peers =>
    obtain ⟨opened,entry⟩ := sound.connect gid
    exact opened.addAll entry peers
  | connectedRemoveFromGroup gid peers => exact (sound.connectedRemove gid peers).1.fewer Set.sdiff_subset
  | leaveConnectedAll order peers =>
    refine sound.leave order peers (fun p _ gid ptr owns inside => ?_)
    rw [possible.2,sound.shared gid ptr owns (List.ne_nil_of_mem inside)]
    rfl

/-! ### Neighbours without an entry -/

theorem addNodes_filled (simple : ∀ ptr, Simple (s.heap ptr)) {isNeighbor : Address → Bool} {gid : Address}
    {nodes : List Address} {g : Group} (known : s.groups gid = some g) :
    ∃ g', (s.addNodes isNeighbor gid nodes).groups gid = some g' ∧
      ∀ p, p ∈ held (s.heap g.connectedPeers) ∨ (p ∈ nodes ∧ p ≠ s.self ∧ isNeighbor p) →
        p ∈ held ((s.addNodes isNeighbor gid nodes).heap g'.connectedPeers) := by
  induction nodes generalizing s g with
  | nil => exact ⟨g,known,fun p here => here.resolve_right (fun more => absurd more.1 List.not_mem_nil)⟩
  | cons v nodes ih =>
    rw [Service.addNodes,List.foldl_cons]
    by_cases own : v = s.self
    · obtain ⟨g',known',filled⟩ := ih simple known
      simp only [Service.addNode,own,if_true]
      refine ⟨g',known',fun p here => filled p (here.imp_right ?_)⟩
      rintro ⟨member,other,neighbour⟩
      exact ⟨(List.mem_cons.mp member).resolve_left (fun same => other same),other,neighbour⟩
    by_cases neighbour : isNeighbor v
    · obtain ⟨simple',members⟩ := add_perm (simple g.connectedPeers) v
      have step : s.addNode isNeighbor gid v = s.modify g.connectedPeers (·.add [v]) := by
        simp [Service.addNode,own,known,neighbour]
      rw [step]
      have simples : ∀ ptr, Simple ((s.modify g.connectedPeers (·.add [v])).heap ptr) := by
        intro ptr
        rw [heap_modify]
        split
        · exact simple'
        · exact simple ptr
      obtain ⟨g',known',filled⟩ := ih simples known
      refine ⟨g',known',fun p here => filled p ?_⟩
      rw [heap_modify,if_pos rfl,members]
      rcases here with inside | ⟨member,other⟩
      · exact Or.inl (Or.inr inside)
      · exact (List.mem_cons.mp member).imp Or.inl (fun later => ⟨later,other⟩)
    have step : s.addNode isNeighbor gid v =
        s.setGroup gid (some { g with knownPeers := g.knownPeers.add [v] }) := by
      simp only [Service.addNode,own,if_false,known,neighbour]
      rfl
    rw [step]
    obtain ⟨g',known',filled⟩ := ih (s := s.setGroup gid (some { g with knownPeers := g.knownPeers.add [v] })) simple
      (Function.update_self ..)
    refine ⟨g',known',fun p here => filled p (here.imp_right ?_)⟩
    rintro ⟨member,other,near⟩
    refine ⟨(List.mem_cons.mp member).resolve_left ?_,other,near⟩
    rintro rfl
    exact neighbour near

/-- A group that got a neighbour is in the service only if its ID had an entry. -/
theorem open_fits (ready : Sound left s') (self : s'.self = s.self) (entries : s'.connectedPeers = s.connectedPeers)
    {g : Group} (known : s'.groups gid = some g) (after : Consistent left' (s'.addNodes isNeighbor gid option.nodes)) :
    neighbours s option isNeighbor = [] ∨ (s.connectedPeers gid).isSome := by
  by_contra neither
  obtain ⟨some,absent⟩ := not_or.mp neither
  obtain ⟨p,member⟩ := List.exists_mem_of_ne_nil _ some
  obtain ⟨g',known',filled⟩ := addNodes_filled ready.simple known
  have inside := filled p (Or.inr (self ▸ mem_neighbours.mp member))
  have entry := after.shared gid g' known' (by
    rw [length_eq]
    exact fun empty => List.ne_nil_of_mem inside (List.length_eq_zero_iff.mp empty))
  rw [addNodes_frame,entries] at entry
  exact absent (by rw [entry]; rfl)

theorem fits_of_consistent (sound : Sound left s) {c : Call} (after : Consistent left' (perform s c)) : Fits s c := by
  cases c with
  | joinGroup gid option isNeighbor =>
    refine or_iff_not_imp_left.mpr (fun fresh => ?_)
    simp only [perform,Service.joinGroup,fresh] at after
    obtain ⟨self,entries,g,known⟩ := ensure_frame s option
    refine open_fits (g := { g with option := { g.option with gType := .join } })
      ((sound.ensure gid option).setJoined gid) self entries ?_ after
    simp [Service.setJoined,Service.setGroup,known]
  | observeGroup gid option isNeighbor =>
    obtain ⟨self,entries,g,known⟩ := ensure_frame s { option with gType := .observe }
    exact open_fits (sound.ensure gid { option with gType := .observe }) self entries known after
  | observeGroupCancel gid => trivial
  | connectedAddToGroup gid peers => trivial
  | connectedRemoveFromGroup gid peers => trivial
  | leaveConnectedAll order peers => trivial

end

theorem Throughout.start {calls : List Call} (all : Throughout left s calls) : Consistent left s := by
  cases calls with
  | nil => exact all
  | cons c cs => exact all.1

theorem throughout_iff (sound : Sound left s) (calls : List Call) (runs : Runs s calls) :
    Throughout left s calls ↔ AllFit s calls := by
  induction calls generalizing left s with
  | nil => exact iff_of_true sound.consistent trivial
  | cons c cs ih =>
    constructor
    · rintro ⟨-,rest⟩
      have fits := fits_of_consistent sound rest.start
      exact ⟨fits,(ih (sound_perform sound runs.1 fits) runs.2).mp rest⟩
    · rintro ⟨fits,rest⟩
      exact ⟨sound.consistent,(ih (sound_perform sound runs.1 fits) runs.2).mpr rest⟩

/-- In a run from a new service, peers that leave are in no group until they are added
    again, and the service has the slice of every group with connected peers, exactly when
    no call adds a neighbour to a group whose ID has no entry. -/
theorem left_everywhere_iff (self : Address) (calls : List Call) (runs : Runs (new self) calls) :
    Throughout ∅ (new self) calls ↔ AllFit (new self) calls :=
  throughout_iff (sound_new self) calls runs

/-- A peer that was connected to a joined group leaves. -/
theorem left_everywhere_joined :
    let calls : List Call := [.joinGroup [9] ⟨.join,0,0,[]⟩ (fun _ => true),.connectedAddToGroup [9] [[1]],
      .leaveConnectedAll [[9]] [[1]]]
    Runs (new [0]) calls ∧ Throughout ∅ (new [0]) calls := by
  intro calls
  have entries : ∀ gid : Address, gid ∈ [[9]] ↔
      (Function.update (fun _ => none) [9] (some 0) gid : Option Nat).isSome := by
    intro gid
    by_cases same : gid = [9] <;> simp [same]
  have runs : Runs (new [0]) calls := ⟨trivial,trivial,⟨by simp,entries⟩,trivial⟩
  exact ⟨runs,(left_everywhere_iff [0] calls runs).mpr ⟨Or.inr (Or.inl rfl),trivial,trivial,trivial⟩⟩

/-- A group that is joined together with a neighbour keeps this peer when it leaves. -/
theorem joined_neighbour_stays :
    let calls : List Call := [.joinGroup [9] ⟨.join,0,0,[[1]]⟩ (fun _ => true),.leaveConnectedAll [] [[1]]]
    let last := calls.foldl perform (new [0])
    Runs (new [0]) calls ∧ (∃ g, last.groups [9] = some g ∧ [1] ∈ held (last.heap g.connectedPeers)) ∧
      ¬Throughout ∅ (new [0]) calls := by
  have runs : Runs (new [0]) [.joinGroup [9] ⟨.join,0,0,[[1]]⟩ (fun _ => true),.leaveConnectedAll [] [[1]]] :=
    ⟨trivial,⟨List.nodup_nil,fun gid => iff_of_false List.not_mem_nil Bool.false_ne_true⟩,trivial⟩
  refine ⟨runs,⟨_,rfl,by decide⟩,?_⟩
  rw [throughout_iff (sound_new [0]) _ runs]
  rintro ⟨joined | none | entry,-⟩
  · exact absurd joined (by decide)
  · exact absurd none (by decide)
  · exact absurd entry (by decide)

end FavorX.GroupPeers

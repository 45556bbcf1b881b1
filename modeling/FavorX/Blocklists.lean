import FavorX.Shed

/-!
The peers that are blocked. An entry whose time is over is deleted when it is asked for, and until then it still
counts when the peer is blocked again. Where no peer is blocked again over such an entry, a peer is blocked exactly
until the end of its current block (`blocked_iff`).
-/
namespace FavorX.Blocklists
open FiniteMaps
open Shed (Address)

structure Entry where
  timestamp : Int
  duration : Int

abbrev Blocklist := Map Address Entry

/-- Without a duration an entry is never over. -/
def Entry.ended (now : Int) (e : Entry) : Bool := e.duration < now - e.timestamp ∧ e.duration ≠ 0

/-- `Exists`. -/
def isBlocked (overlay : Address) (now : Int) (b : Blocklist) : Bool × Blocklist :=
  match b.lookup overlay with
  | none => (false,b)
  | some e => if e.ended now then (false,b.erase overlay) else (true,b)

def add (overlay : Address) (duration now : Int) (b : Blocklist) : Blocklist :=
  let d := ((b.lookup overlay).map Entry.duration).getD (-1)
  b.insert overlay ⟨now,if duration < d ∧ duration ≠ 0 ∨ d = 0 then d else duration⟩

def left (now : Int) (e : Option Entry) : Option Entry := e.filter (!·.ended now)

/-- The peers that are listed, with their entries. -/
def peers (now : Int) (b : Blocklist) (overlay : Address) : Option Entry := left now (b.lookup overlay)

inductive Call where
  | add (overlay : Address) (duration : Int)
  | remove (overlay : Address)
  | isBlocked (overlay : Address)
  | peers

def Call.changes : Call → Bool
  | .add .. | .remove _ => true
  | _ => false

def perform (b : Blocklist) (now : Int) : Call → Blocklist
  | .add overlay duration => add overlay duration now b
  | .remove overlay => b.erase overlay
  | .isBlocked overlay => (isBlocked overlay now b).2
  | .peers => b

/-- The block of a peer after a call: the time of the last `add` and the largest duration, 0 above all others. -/
def extend (overlay : Address) (block : Option Entry) (now : Int) : Call → Option Entry
  | .add other duration =>
    if other ≠ overlay then block
    else
      match block with
      | none => some ⟨now,duration⟩
      | some e =>
        if e.duration ≠ 0 ∧ e.timestamp + e.duration < now then some ⟨now,duration⟩
        else some ⟨now,if e.duration = 0 ∨ duration = 0 then 0 else max e.duration duration⟩
  | .remove other => if other = overlay then none else block
  | _ => block

abbrev Calls := List (Int × Call)

def run (calls : Calls) (b : Blocklist) : Blocklist := calls.foldl (fun b c => perform b c.1 c.2) b

def current (overlay : Address) (calls : Calls) (block : Option Entry) : Option Entry :=
  calls.foldl (fun block c => extend overlay block c.1 c.2) block

/-- No peer is blocked over an entry of it whose time is over. -/
def Fits (b : Blocklist) (now : Int) : Call → Prop
  | .add overlay _ => ∀ e, b.lookup overlay = some e → e.ended now = false
  | _ => True

def AllFit : Blocklist → Calls → Prop
  | _,[] => True
  | b,(now,c) :: calls => Fits b now c ∧ AllFit (perform b now c) calls

variable {b : Blocklist} {overlay : Address} {block : Option Entry} {now t : Int} {calls : Calls}

theorem left_left (later : now ≤ t) (e : Option Entry) : left t (left now e) = left t e := by
  cases e with
  | none => rfl
  | some e =>
    simp only [left,Option.filter,Entry.ended]
    grind

section
variable (agree : left now (b.lookup overlay) = left now block)
include agree

theorem left_add {duration : Int} (fits : Fits b now (.add overlay duration)) :
    left now ((add overlay duration now b).lookup overlay) =
      left now (extend overlay block now (.add overlay duration)) := by
  cases stored : b.lookup overlay with
  | none =>
    -- a block that the list does not know is over
    cases block <;> simp_all [left,Option.filter,Entry.ended,add,extend] <;> grind
  | some e =>
    have live := fits e stored
    have same : block = some e := by
      cases block <;> simp_all [left,Option.filter]
    simp only [Entry.ended,decide_eq_false_iff_not] at live
    simp only [add,extend,stored,same,Finmap.lookup_insert,Option.map_some,Option.getD_some]
    grind

theorem left_perform {c : Call} (fits : Fits b now c) :
    left now ((perform b now c).lookup overlay) = left now (extend overlay block now c) := by
  cases c with
  | add other duration =>
    by_cases same : other = overlay
    · subst same
      exact left_add agree fits
    · simp only [perform,add,lookup_insert_eq,Ne.symm same,if_false,extend,if_pos same]
      exact agree
  | remove other =>
    simp only [perform,extend,lookup_erase_eq,eq_comm (a := overlay)]
    split
    · rfl
    · exact agree
  | isBlocked other =>
    simp only [perform,isBlocked,extend]
    split
    · exact agree
    · next e stored =>
      split
      · next ended =>
        rw [lookup_erase_eq]
        split
        · next same =>
          subst same
          rw [← agree,stored]
          simp [left,Option.filter,ended]
        · exact agree
      · exact agree
  | peers => exact agree

theorem peers_run (ordered : List.IsChain (· ≤ ·) (now :: calls.map Prod.fst ++ [t])) (fits : AllFit b calls) :
    peers t (run calls b) overlay = left t (current overlay calls block) := by
  induction calls generalizing now b block with
  | nil =>
    have later : now ≤ t := by simpa using ordered
    simp only [peers,run,current,List.foldl_nil]
    rw [← left_left later,agree,left_left later]
  | cons c calls ih =>
    obtain ⟨later,ordered⟩ := List.isChain_cons_cons.mp ordered
    refine ih (left_perform ?_ fits.1) ordered fits.2
    rw [← left_left later,agree,left_left later]

end

theorem isBlocked_peers : (isBlocked overlay t b).1 = (peers t b overlay).isSome := by
  simp only [isBlocked,peers,left]
  cases b.lookup overlay with
  | none => rfl
  | some e => cases ended : e.ended t <;> simp [Option.filter,ended]

theorem current_changes : current overlay (calls.filter (·.2.changes)) block = current overlay calls block := by
  simp only [current,List.foldl_filter]
  congr
  funext block c
  cases c.2 <;> simp [Call.changes,extend]

/-- A peer is blocked until its current block ends, and asking for peers in between does not change that. -/
theorem blocked_iff (start : Int) (ordered : List.IsChain (· ≤ ·) (start :: calls.map Prod.fst ++ [t]))
    (fits : AllFit ∅ calls) :
    ((isBlocked overlay t (run calls ∅)).1 = true ↔
      ∃ e, current overlay calls none = some e ∧ (e.duration = 0 ∨ t ≤ e.timestamp + e.duration)) ∧
    ∀ more : Calls, more.filter (·.2.changes) = calls.filter (·.2.changes) →
      List.IsChain (· ≤ ·) (start :: more.map Prod.fst ++ [t]) → AllFit ∅ more →
      (isBlocked overlay t (run more ∅)).1 = (isBlocked overlay t (run calls ∅)).1 := by
  have empty : left start ((∅ : Blocklist).lookup overlay) = left start none := by simp
  constructor
  · rw [isBlocked_peers,peers_run empty ordered fits]
    cases current overlay calls none with
    | none => simp [left]
    | some e =>
      simp [left,Option.filter,Entry.ended]
      grind
  · intro more same ordered' fits'
    rw [isBlocked_peers,isBlocked_peers,peers_run empty ordered fits,peers_run empty ordered' fits',
      ← current_changes,same,current_changes]

theorem blocked_once : (isBlocked [] 3 (run [(1,.add [] 2)] ∅)).1 = true := by
  have fits : AllFit ∅ [(1,.add [] 2)] := ⟨by simp [Fits],trivial⟩
  exact (blocked_iff 0 (by decide) fits).1.mpr ⟨⟨1,2⟩,rfl,by decide⟩

/-- A block of one time unit that follows on a block that was over lasts as long as the first one did. -/
theorem block_prolonged : let calls : Calls := [(0,.add [] 5),(6,.add [] 1)]
    (isBlocked [] 8 (run calls ∅)).1 = true ∧ current [] calls none = some ⟨6,1⟩ := by
  refine ⟨?_,rfl⟩
  rw [isBlocked_peers]
  simp [run,perform,add,peers,left,Option.filter,Entry.ended]

end FavorX.Blocklists

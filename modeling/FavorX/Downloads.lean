import FavorX.Announcements

/-!
When a node takes a file for downloaded. A chunk that is retrieved before the length of the file is
known announces only the length up to itself, so a file can count as downloaded after its first
chunk (`isDownload_first`); with the length from the first chunk on, only after all
(`isDownload_complete`).
-/
namespace FavorX.Downloads
open FiniteMaps Shed Bits Presence Announcements

structure ChunkInfo where
  addr : Address
  chunkStore : Chunkstore := {}

abbrev Result := Except Err Unit × ChunkInfo

def andThen (r : Result) (f : ChunkInfo → Result) : Result :=
  match r.1 with
  | .ok () => f r.2
  | .error _ => r

def updateService (rootCid : Address) (index len : Int) (overlay : Address) (ci : ChunkInfo) : Result :=
  let r := ci.chunkStore.put 0 .service rootCid [⟨overlay,index,len,[]⟩]
  (r.1,{ ci with chunkStore := r.2 })

/-- A chunk that some source is already known for is not recorded again. -/
def updateSource (rootCid : Address) (index len : Int) (sourceOverlay : Address) (ci : ChunkInfo) : Result :=
  let sources := (ci.chunkStore.get .source rootCid).getD ∅
  if sources.any (fun _ s => index < s.bit.len && s.bit.get index == .ok true) then (.ok (),ci)
  else
    let r := ci.chunkStore.put 0 .source rootCid [⟨sourceOverlay,index,len,[]⟩]
    (r.1,{ ci with chunkStore := r.2 })

def onTransferred (rootCid : Address) (index : Int) (overlay : Address) (ci : ChunkInfo) : Result :=
  updateService rootCid index (index + 1) overlay ci

/-- The length of the file comes with the context, as zero when it is not known. -/
def onRetrieved (rootLen : Int) (rootCid : Address) (index : Int) (overlay : Address) (ci : ChunkInfo) : Result :=
  let length := if rootLen = 0 then index + 1 else rootLen
  andThen (updateService rootCid index length ci.addr ci) (updateSource rootCid index (index + 1) overlay)

def uploadFrom (rootCid : Address) (length : Int) : Nat → Nat → ChunkInfo → Result
  | 0, _, ci => (.ok (),ci)
  | n + 1, i, ci =>
    andThen (updateService rootCid i length ci.addr ci) (fun ci =>
      andThen (updateSource rootCid i length ci.addr ci) (uploadFrom rootCid length n (i + 1)))

def onFileUpload (rootCid : Address) (length : Int) (ci : ChunkInfo) : Result :=
  uploadFrom rootCid length length.toNat 0 ci

def isDownload (rootCid : Address) (ci : ChunkInfo) : Bool :=
  let c := ci.chunkStore.getByOverlay .service rootCid ci.addr
  match BitVector.newFromBytes c.b c.len with
  | .error _ => false
  | .ok bv => bv.equals

/-- A vector that has no byte too many is full exactly when all bits below its
    length are set. -/
theorem equals_iff {bv : BitVector} (sized : Sized bv) :
    bv.equals = true ↔ ∀ i : Nat, (i : Int) < bv.len → bitAt bv.b i = true := by
  obtain ⟨positive,length⟩ := sized
  obtain ⟨n,len⟩ := Int.eq_ofNat_of_zero_le positive.le
  have rest : bv.len.tmod 8 = ((n % 8 : Nat) : Int) := by
    rw [Int.tmod_eq_emod_of_nonneg (by omega)]
    omega
  rw [len,Int.toNat_natCast] at length
  have last : ∀ i, (List.range (n % 8)).all (fun (k : Nat) => bv.b.getD i 0 &&& mask k != 0) = true ↔
      ∀ k < n % 8, (bv.b.getD i 0).toNat.testBit k = true := by
    intro i
    rw [List.all_eq_true]
    constructor
    · intro all k small
      have masked := all k (List.mem_range.mpr small)
      rw [mask_natCast,and_unit,Nat.mod_eq_of_lt (by omega)] at masked
      exact masked
    intro all k member
    have small := List.mem_range.mp member
    rw [mask_natCast,and_unit,Nat.mod_eq_of_lt (by omega)]
    exact all k small
  have parts : bv.equals = true ↔ ∀ i < (n + 7) / 8, if n % 8 ≠ 0 ∧ i = (n + 7) / 8 - 1 then
      ∀ k < n % 8, (bv.b.getD i 0).toNat.testBit k = true else
      ∀ k < 8, (bv.b.getD i 0).toNat.testBit k = true := by
    simp only [BitVector.equals,rest,length,List.all_eq_true,List.mem_range]
    apply forall₂_congr
    intro i _
    by_cases ends : n % 8 ≠ 0 ∧ i = (n + 7) / 8 - 1
    · have ends' : ((n % 8 : Nat) : Int) ≠ 0 ∧ i = (n + 7) / 8 - 1 := ⟨by omega,ends.2⟩
      rw [if_pos ends,if_pos ends']
      exact last i
    · have ends' : ¬ (((n % 8 : Nat) : Int) ≠ 0 ∧ i = (n + 7) / 8 - 1) := fun both => ends ⟨by omega,both.2⟩
      rw [if_neg ends,if_neg ends',beq_iff_eq]
      exact eq_full_iff _
  rw [parts]
  constructor
  · intro all i below
    have here := all (i / 8) (by omega)
    split at here
    · exact here (i % 8) (by omega)
    · exact here (i % 8) (by omega)
  intro all i inside
  have at_ : ∀ k < 8, 8 * i + k < n → (bv.b.getD i 0).toNat.testBit k = true := by
    intro k small below
    have bit := all (8 * i + k) (by omega)
    unfold bitAt at bit
    rwa [show (8 * i + k) / 8 = i by omega,show (8 * i + k) % 8 = k by omega] at bit
  split
  · intro k small
    exact at_ k (by omega) (by omega)
  · intro k small
    exact at_ k small (by omega)

inductive Event
  | retrieved (rootLen index : Int) (overlay : Address)
  | transferred (index : Int) (overlay : Address)
  | uploaded (length : Int)

def handle (rootCid : Address) (ci : ChunkInfo) : Event → Result
  | .retrieved rootLen index overlay => onRetrieved rootLen rootCid index overlay ci
  | .transferred index overlay => onTransferred rootCid index overlay ci
  | .uploaded length => onFileUpload rootCid length ci

def run (rootCid : Address) (ci : ChunkInfo) (events : List Event) : ChunkInfo :=
  events.foldl (fun ci e => (handle rootCid ci e).2) ci

/-- The events of a file of some length: indexes are below it, and a length that
    is known is the true one. -/
def Event.Fits (length : Int) : Event → Prop
  | .retrieved rootLen index _ => 0 ≤ index ∧ index < length ∧ (rootLen = 0 ∨ rootLen = length)
  | .transferred index _ => 0 ≤ index ∧ index < length
  | .uploaded n => n = length

/-- An event reports a chunk: it was retrieved, or the whole file was uploaded. -/
def Event.Reports (i : Int) : Event → Prop
  | .retrieved _ index _ => index = i
  | .transferred _ _ => False
  | .uploaded n => 0 ≤ i ∧ i < n

def tells (addr overlay : Address) : Event → List (Int × Int)
  | .retrieved rootLen index _ => if overlay = addr then [(index,if rootLen = 0 then index + 1 else rootLen)] else []
  | .transferred index o => if overlay = o then [(index,index + 1)] else []
  | .uploaded n => if overlay = addr then (List.range n.toNat).map (fun (i : Nat) => ((i : Int),n)) else []

/-- The `service` vectors show what was announced for them, and so do those of
    `source` for announcements of their own. -/
def Shown (told : Address → Address → List (Int × Int)) (ci : ChunkInfo) : Prop :=
  ShowsAll .service told ci.chunkStore ∧ ∃ sources, ShowsAll .source sources ci.chunkStore

/-- The announcements with some more for one vector. -/
def add (told : Address → Address → List (Int × Int)) (root overlay : Address) (more : List (Int × Int)) :
    Address → Address → List (Int × Int) :=
  fun r o => if root = r ∧ overlay = o then told r o ++ more else told r o

variable {told : Address → Address → List (Int × Int)} {ci : ChunkInfo}

theorem shown_congr {told' : Address → Address → List (Int × Int)} (shown : Shown told ci)
    (same : ∀ r o, told r o = told' r o) : Shown told' ci := by
  have equal : told = told' := funext₂ same
  rwa [← equal]

theorem updateService_shown (shown : Shown told ci) (root overlay : Address) {index len : Int} (nonneg : 0 ≤ index)
    (below : index < len) :
    ∃ ci', updateService root index len overlay ci = (.ok (),ci') ∧ ci'.addr = ci.addr ∧
      Shown (add told root overlay [(index,len)]) ci' := by
  obtain ⟨service,sources,source⟩ := shown
  have put := put_shows (by decide) 0 root [⟨overlay,index,len,[]⟩]
    (by simpa using ⟨nonneg,below⟩) service
  refine ⟨{ ci with chunkStore := (ci.chunkStore.put 0 .service root [⟨overlay,index,len,[]⟩]).2 },
    Prod.ext put.1 rfl,rfl,?_,sources,?_⟩
  · intro r o
    have here := put.2 r o
    by_cases root' : root = r
    · by_cases overlay' : overlay = o <;> simpa [add,announce,overlay'] using here
    · simpa [add,announce,root'] using here
  · intro r o
    rw [put_other (by decide)]
    exact source r o

theorem updateSource_shown (shown : Shown told ci) (root overlay : Address) {index len : Int} (nonneg : 0 ≤ index)
    (below : index < len) :
    ∃ ci', updateSource root index len overlay ci = (.ok (),ci') ∧ ci'.addr = ci.addr ∧ Shown told ci' := by
  obtain ⟨service,sources,source⟩ := shown
  unfold updateSource
  simp only
  split
  · exact ⟨ci,rfl,rfl,service,sources,source⟩
  have put := put_shows (by decide) 0 root [⟨overlay,index,len,[]⟩]
    (by simpa using ⟨nonneg,below⟩) source
  refine ⟨{ ci with chunkStore := (ci.chunkStore.put 0 .source root [⟨overlay,index,len,[]⟩]).2 },
    Prod.ext put.1 rfl,rfl,?_,_,put.2⟩
  intro r o
  rw [put_other (by decide)]
  exact service r o

theorem uploadFrom_shown (root : Address) (length : Nat) : ∀ (n i : Nat), i + n = length →
    ∀ {told : Address → Address → List (Int × Int)} {ci : ChunkInfo}, Shown told ci →
      ∃ ci', uploadFrom root length n i ci = (.ok (),ci') ∧ ci'.addr = ci.addr ∧
        Shown (add told root ci.addr ((List.range' i n).map (fun (i : Nat) => ((i : Int),(length : Int))))) ci' := by
  intro n
  induction n with
  | zero =>
    intro i _ told ci shown
    refine ⟨ci,rfl,rfl,shown_congr shown ?_⟩
    simp [add]
  | succ n ih =>
    intro i whole told ci shown
    have nonneg : (0 : Int) ≤ i := by omega
    have below : (i : Int) < length := by omega
    obtain ⟨first,updated,addr,shown⟩ := updateService_shown shown root ci.addr nonneg below
    obtain ⟨second,sourced,addr',shown⟩ := updateSource_shown shown root first.addr nonneg below
    obtain ⟨last,rest,addr'',shown⟩ := ih (i + 1) (by omega) shown
    refine ⟨last,?_,by rw [addr'',addr',addr],shown_congr shown ?_⟩
    · simp only [uploadFrom,updated,andThen,sourced,rest]
    · intro r o
      rw [addr',addr,List.range'_succ]
      by_cases here : root = r ∧ ci.addr = o <;> simp [add,here]

variable {length : Int}

theorem handle_shown (root : Address) {e : Event} (fits : e.Fits length) (shown : Shown told ci) :
    ∃ ci', handle root ci e = (.ok (),ci') ∧ ci'.addr = ci.addr ∧
      Shown (fun r o => told r o ++ if root = r then tells ci.addr o e else []) ci' := by
  cases e with
  | retrieved rootLen index overlay =>
    obtain ⟨nonneg,below,known⟩ := fits
    have reach : index < if rootLen = 0 then index + 1 else rootLen := by
      split
      · omega
      · next other => exact lt_of_lt_of_eq below (known.resolve_left other).symm
    obtain ⟨first,updated,addr,shown⟩ := updateService_shown shown root ci.addr nonneg reach
    obtain ⟨second,sourced,addr',shown⟩ := updateSource_shown shown root overlay nonneg (Int.lt_succ index)
    refine ⟨second,?_,by rw [addr',addr],shown_congr shown ?_⟩
    · simp only [handle,onRetrieved,updated,andThen]
      exact sourced
    intro r o
    by_cases root' : root = r
    · by_cases overlay' : ci.addr = o
      · simp [add,tells,root',overlay']
      · have other : o ≠ ci.addr := fun same => overlay' same.symm
        simp [add,tells,root',overlay',other]
    · simp [add,root']
  | transferred index overlay =>
    obtain ⟨ci',updated,addr,shown⟩ := updateService_shown shown root overlay fits.1 (Int.lt_succ index)
    refine ⟨ci',updated,addr,shown_congr shown ?_⟩
    intro r o
    by_cases root' : root = r
    · by_cases overlay' : overlay = o
      · simp [add,tells,root',overlay']
      · have other : o ≠ overlay := fun same => overlay' same.symm
        simp [add,tells,root',overlay',other]
    · simp [add,root']
  | uploaded n =>
    by_cases positive : 0 ≤ n
    · obtain ⟨m,rfl⟩ := Int.eq_ofNat_of_zero_le positive
      obtain ⟨ci',uploaded,addr,shown⟩ := uploadFrom_shown root m m 0 (by omega) shown
      refine ⟨ci',uploaded,addr,shown_congr shown ?_⟩
      intro r o
      by_cases root' : root = r
      · by_cases overlay' : ci.addr = o
        · simp [add,tells,root',overlay',List.range_eq_range']
        · have other : o ≠ ci.addr := fun same => overlay' same.symm
          simp [add,tells,root',overlay',other]
      · simp [add,root']
    have none : n.toNat = 0 := by omega
    refine ⟨ci,by simp [handle,onFileUpload,none,uploadFrom],rfl,shown_congr shown ?_⟩
    simp [tells,none]

/-- The node knows the length of the file when an event arrives: the event
    carries it, or is about the last chunk, or the node's vector has it already.
    Chunks are sent to others only. -/
def Event.Known (length : Int) (rootCid : Address) (ci : ChunkInfo) : Event → Prop
  | .retrieved rootLen index _ => rootLen = length ∨ index + 1 = length ∨
      (ci.chunkStore.getByOverlay .service rootCid ci.addr).len = length
  | .transferred _ overlay => overlay ≠ ci.addr
  | .uploaded _ => True

def AllKnown (length : Int) (rootCid : Address) : ChunkInfo → List Event → Prop
  | _, [] => True
  | ci, e :: events => e.Known length rootCid ci ∧ AllKnown length rootCid (handle rootCid ci e).2 events

/-- The node's own vector after some events: it shows announcements that reach
    the length of the file and no further, all of chunks that were reported. -/
structure Tracked (root : Address) (length : Int) (past : List Event)
    (told : Address → Address → List (Int × Int)) (ci : ChunkInfo) : Prop where
  shown : Shown told ci
  reached : told root ci.addr ≠ [] → ∃ a ∈ told root ci.addr, a.2 = length
  within : ∀ a ∈ told root ci.addr, a.2 ≤ length
  reported : ∀ a ∈ told root ci.addr, ∃ e ∈ past, e.Reports a.1

variable {root : Address}

theorem announced_len {told : List (Int × Int)} (shown : Shows told (vectorAt ci.chunkStore.service root ci.addr))
    (positive : 0 < length) (len : (ci.chunkStore.getByOverlay .service root ci.addr).len = length) :
    ∃ a ∈ told, a.2 = length := by
  simp only [Chunkstore.getByOverlay,Chunkstore.vectors] at len
  cases found : vectorAt ci.chunkStore.service root ci.addr with
  | none =>
    rw [found] at len
    simp only at len
    omega
  | some e =>
    rw [found] at len shown
    obtain ⟨_,_,_,⟨a,member,equal⟩⟩ := shown
    exact ⟨a,member,equal.trans len⟩

theorem tells_known {past : List Event} (tracked : Tracked root length past told ci) {e : Event}
    (fits : e.Fits length) (known : e.Known length root ci) :
    (∀ a ∈ tells ci.addr ci.addr e, a.2 ≤ length ∧ e.Reports a.1) ∧
      (tells ci.addr ci.addr e ≠ [] → ∃ a ∈ told root ci.addr ++ tells ci.addr ci.addr e, a.2 = length) := by
  cases e with
  | retrieved rootLen index overlay =>
    obtain ⟨nonneg,below,lengths⟩ := fits
    simp only [tells,if_true,List.mem_singleton,forall_eq,Event.Reports,and_true]
    constructor
    · split
      · omega
      · next other => exact le_of_eq (lengths.resolve_left other)
    intro _
    rcases known with carried | last | had
    · refine ⟨_,List.mem_append_right _ (List.mem_singleton_self _),?_⟩
      have other : ¬ rootLen = 0 := by omega
      simp only [other,if_false]
      exact carried
    · refine ⟨_,List.mem_append_right _ (List.mem_singleton_self _),?_⟩
      split
      · exact last
      · next other => exact lengths.resolve_left other
    · obtain ⟨a,member,equal⟩ := announced_len (tracked.shown.1 root ci.addr) (by omega) had
      exact ⟨a,List.mem_append_left _ member,equal⟩
  | transferred index overlay =>
    have other : ¬ ci.addr = overlay := fun same => known same.symm
    simp [tells,other]
  | uploaded n =>
    have whole : n = length := fits
    subst whole
    simp only [tells,if_true,List.mem_map,List.mem_range]
    constructor
    · rintro a ⟨i,small,rfl⟩
      exact ⟨le_rfl,by simp only [Event.Reports]; omega⟩
    intro some
    obtain ⟨a,member⟩ := List.exists_mem_of_ne_nil _ some
    refine ⟨a,List.mem_append_right _ member,?_⟩
    obtain ⟨i,_,rfl⟩ := List.mem_map.mp member
    rfl

theorem tracked_handle {past : List Event} (tracked : Tracked root length past told ci) {e : Event}
    (fits : e.Fits length) (known : e.Known length root ci) :
    (handle root ci e).2.addr = ci.addr ∧
      Tracked root length (past ++ [e]) (fun r o => told r o ++ if root = r then tells ci.addr o e else [])
        (handle root ci e).2 := by
  obtain ⟨ci',handled,addr,shown⟩ := handle_shown root fits tracked.shown
  obtain ⟨each,reaches⟩ := tells_known tracked fits known
  rw [handled]
  refine ⟨addr,shown,?_,?_,?_⟩
  · simp only [addr,if_true]
    intro some
    by_cases silent : tells ci.addr ci.addr e = []
    · rw [silent,List.append_nil] at some ⊢
      exact tracked.reached some
    · exact reaches silent
  · simp only [addr,if_true]
    intro a member
    rcases List.mem_append.mp member with before | now
    · exact tracked.within a before
    · exact (each a now).1
  simp only [addr,if_true]
  intro a member
  rcases List.mem_append.mp member with before | now
  · obtain ⟨e',past',reports⟩ := tracked.reported a before
    exact ⟨e',List.mem_append_left _ past',reports⟩
  · exact ⟨e,by simp,(each a now).2⟩

theorem tracked_run {events : List Event} (fits : ∀ e ∈ events, e.Fits length) {past : List Event}
    (tracked : Tracked root length past told ci) (known : AllKnown length root ci events) :
    ∃ told', Tracked root length (past ++ events) told' (run root ci events) := by
  induction events generalizing past told ci with
  | nil => exact ⟨told,by simpa [run] using tracked⟩
  | cons e events ih =>
    obtain ⟨_,next⟩ := tracked_handle tracked (fits e (List.mem_cons_self ..)) known.1
    have rest := ih (fun e member => fits e (List.mem_cons_of_mem _ member)) next known.2
    rwa [List.append_assoc] at rest

theorem isDownload_full {told : List (Int × Int)} (shown : Shows told (vectorAt ci.chunkStore.service root ci.addr))
    (done : isDownload root ci = true) :
    ∃ e, vectorAt ci.chunkStore.service root ci.addr = some e ∧
      ∀ i : Nat, (i : Int) < e.bit.len → bitAt e.bit.b i = true := by
  simp only [isDownload,Chunkstore.getByOverlay,Chunkstore.vectors] at done
  cases found : vectorAt ci.chunkStore.service root ci.addr with
  | none =>
    rw [found] at done
    simp [BitVector.newFromBytes] at done
  | some e =>
    rw [found] at done shown
    refine ⟨e,rfl,(equals_iff shown.1).mp ?_⟩
    simp only [BitVector.newFromBytes] at done
    split at done
    · cases done
    next bv made =>
    split at made
    · cases made
    split at made
    · cases made
    · cases made
      exact done

/-- Starting from no presence information, when the length of the file is known
    at every event, the file counts as downloaded only after each of its chunks
    was reported. -/
theorem isDownload_complete (addr root : Address) (length : Int) (events : List Event)
    (fits : ∀ e ∈ events, e.Fits length) (known : AllKnown length root { addr := addr } events)
    (done : isDownload root (run root { addr := addr } events) = true) :
    ∀ i, 0 ≤ i → i < length → ∃ e ∈ events, e.Reports i := by
  have start : Tracked root length [] (fun _ _ => []) { addr := addr } := by
    refine ⟨⟨?_,fun _ _ => [],?_⟩,by simp,by simp,by simp⟩
    · intro r o
      simp [Chunkstore.vectors,vectorAt,Shows]
    · intro r o
      simp [Chunkstore.vectors,vectorAt,Shows]
  obtain ⟨told,tracked⟩ := tracked_run fits start known
  have shown := tracked.shown.1 root (run root { addr := addr } events).addr
  obtain ⟨e,found,full⟩ := isDownload_full shown done
  simp only [Chunkstore.vectors] at shown
  rw [found] at shown
  obtain ⟨_,bits,longest,⟨a,member,_⟩⟩ := shown
  obtain ⟨b,inside,equal⟩ := tracked.reached (List.ne_nil_of_mem member)
  intro i nonneg below
  obtain ⟨n,rfl⟩ := Int.eq_ofNat_of_zero_le nonneg
  have long := longest b inside
  obtain ⟨len,said⟩ := (bits n).mp (full n (by omega))
  simpa using tracked.reported _ said

/-- Both chunks of a file of two, the second before its length is known. -/
theorem isDownload_complete_two :
    isDownload [1] (run [1] { addr := [9] } [.retrieved 0 1 [7],.retrieved 2 0 [7]]) = true ∧
      ∀ i, 0 ≤ i → i < 2 → ∃ e ∈ ([.retrieved 0 1 [7],.retrieved 2 0 [7]] : List Event), e.Reports i :=
  ⟨rfl,isDownload_complete [9] [1] 2 _ (by simp [Event.Fits]) (by simp [AllKnown,Event.Known]) rfl⟩

/-- The first chunk of a file of two, retrieved before the length is known, makes
    the file count as downloaded. -/
theorem isDownload_first :
    isDownload [1] (run [1] { addr := [9] } [.retrieved 0 0 [7]]) = true ∧
      (∀ e ∈ ([.retrieved 0 0 [7]] : List Event), e.Fits 2) ∧
      ¬ ∃ e ∈ ([.retrieved 0 0 [7]] : List Event), e.Reports 1 := by
  refine ⟨rfl,?_,?_⟩
  · simp [Event.Fits]
  · simp [Event.Reports]

end FavorX.Downloads

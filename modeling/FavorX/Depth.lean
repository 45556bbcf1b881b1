import FavorX.Localstore

/-!
The depth of the Kademlia (`recalcDepth`) over the slice that keeps peers by proximity. Two scans
see how many peers of each bin pass the filter, but the bin that `ShallowestEmpty` adds is found
without the filter: `recalcDepth` is the depth exactly when no bin with filtered peers only lies in
the way (`recalcDepth_iff`).
-/
namespace FavorX.Depth
open Localstore (proximity)
open Shed (Bytes Address)

/-- A slice of peers: the bins are numbered by a `uint8`, and there is one at least. -/
structure PSlice where
  baseBytes : Bytes
  peers : List (List Address)
  bins : 0 < peers.length
  room : peers.length ≤ 256

/-- A callback returns whether to stop, whether to go to the next bin, and an error. -/
abbrev EachPeerFunc (σ ε : Type) := σ → Address → Nat → σ × Bool × Bool × Option ε

namespace PSlice

def maxBins (s : PSlice) : Nat := s.peers.length

/-- The peers of a bin, and nothing past the last. -/
def bin (s : PSlice) (b : Nat) : List Address := s.peers.getD b []

def new (maxBins : Nat) (base : Address) (bins : 0 < maxBins) (room : maxBins ≤ 256) : PSlice where
  baseBytes := base
  peers := List.replicate maxBins []
  bins := by rwa [List.length_replicate]
  room := by rwa [List.length_replicate]

def po (s : PSlice) (peer : Bytes) : Nat :=
  let po := proximity s.baseBytes peer
  if s.maxBins ≤ po then s.maxBins - 1 else po

def append (s : PSlice) (addr : Address) : PSlice where
  baseBytes := s.baseBytes
  peers := s.peers.modify (s.po addr) (· ++ [addr])
  bins := by rw [List.length_modify]; exact s.bins
  room := by rw [List.length_modify]; exact s.room

def existsPeer (s : PSlice) (addr : Address) : Bool := (s.bin (s.po addr)).contains addr

/-- Which addresses are new is decided before the first is appended. -/
def add (s : PSlice) (addrs : List Address) : PSlice :=
  (addrs.filter (fun addr => !s.existsPeer addr)).foldl append s

def length (s : PSlice) : Nat := (s.peers.map List.length).sum

/-- The shallowest empty bin, and whether there is none. -/
def shallowestEmpty (s : PSlice) : Nat × Bool :=
  match s.peers.findIdx? List.isEmpty with
  | some i => (i % 256,false)
  | none => (0,true)

section
variable {σ ε : Type} (pf : EachPeerFunc σ ε)

/-- Visit the peers of a bin: nothing when the next bin is due, or what the iteration returns. -/
def visit (bin : Nat) : List Address → σ → σ × Option (Option ε)
  | [], s => (s,none)
  | peer :: peers, s =>
    match pf s peer bin with
    | (s',_,_,some err) => (s',some (some err))
    | (s',true,_,none) => (s',some none)
    | (s',false,true,none) => (s',none)
    | (s',false,false,none) => visit bin peers s'

def visitAll : List (List Address × Nat) → σ → σ × Option ε
  | [], s => (s,none)
  | (peers,i) :: bins, s =>
    match visit pf (i % 256) peers s with
    | (s',some r) => (s',r)
    | (s',none) => visitAll bins s'

def eachBin (s : PSlice) (init : σ) : σ × Option ε := visitAll pf s.peers.zipIdx.reverse init

def eachBinRev (s : PSlice) (init : σ) : σ × Option ε := visitAll pf s.peers.zipIdx init

end
end PSlice

def nnLowWatermark : Nat := 3

/-- `New` derives the limits of a bin from the option; without it the defaults stay. -/
def overSaturationPeers (binMaxPeers : Int) : Nat :=
  if 0 < binMaxPeers then
    let m := if binMaxPeers < 5 then 5 else binMaxPeers.toNat
    if m % 5 = 0 then m else m - m % 5 + 5
  else 20

def quickSaturationPeers (binMaxPeers : Int) : Nat :=
  if 0 < binMaxPeers then overSaturationPeers binMaxPeers / 5 else 4

section
variable (quick : Nat) (filter : Address → Bool)

/-- The callback of the first scan, on `shallowestUnsaturated` and `binCount`. -/
def unsaturated : EachPeerFunc (Nat × Nat) Empty := fun (shallowestUnsaturated,binCount) addr bin =>
  if filter addr then ((shallowestUnsaturated,binCount),false,false,none)
  else if bin = shallowestUnsaturated then ((shallowestUnsaturated,binCount + 1),false,false,none)
  else if shallowestUnsaturated < bin ∧ binCount < quick then ((shallowestUnsaturated,binCount),true,false,none)
  else ((bin,1),false,false,none)

/-- The callback of the second scan, on `peersCtr` and `candidate`. -/
def nearest : EachPeerFunc (Nat × Nat) Empty := fun (peersCtr,candidate) addr po =>
  if filter addr then ((peersCtr,candidate),false,false,none)
  else if nnLowWatermark ≤ peersCtr + 1 then ((peersCtr + 1,po),true,false,none)
  else ((peersCtr + 1,candidate),false,false,none)

def recalcDepth (peers : PSlice) (radius : Nat) : Nat :=
  if peers.length ≤ nnLowWatermark then 0
  else
    let (shallowestEmpty,noEmptyBins) := peers.shallowestEmpty
    let found := (peers.eachBinRev (unsaturated quick filter) (0,0)).1.1
    let shallowestUnsaturated := if !noEmptyBins ∧ shallowestEmpty < found then shallowestEmpty else found
    let candidate := (peers.eachBin (nearest filter) (0,0)).1.2
    if candidate < shallowestUnsaturated then
      if radius < candidate then radius else candidate
    else if radius < shallowestUnsaturated then radius
    else shallowestUnsaturated

end

def passing (filter : Address → Bool) (peers : List Address) : Nat := (peers.filter (fun addr => !filter addr)).length

def counts (peers : PSlice) (filter : Address → Bool) : List Nat := peers.peers.map (passing filter)

def cnt (peers : PSlice) (filter : Address → Bool) (b : Nat) : Nat := (counts peers filter).getD b 0

/-- The unfiltered peers of the bins from `d` on. -/
def cntFrom (peers : PSlice) (filter : Address → Bool) (d : Nat) : Nat := ((counts peers filter).drop d).sum

/-- A depth that the radius allows: every shallower bin is saturated, and enough peers are left. -/
def Admits (quick : Nat) (filter : Address → Bool) (peers : PSlice) (radius d : Nat) : Prop :=
  d ≤ radius ∧ (∀ b < d, quick ≤ cnt peers filter b) ∧ nnLowWatermark ≤ cntFrom peers filter d

/-- The depth is the greatest one admitted, and zero with few peers or when none is admitted. -/
def IsDepth (quick : Nat) (filter : Address → Bool) (peers : PSlice) (radius d : Nat) : Prop :=
  ((peers.length ≤ nnLowWatermark ∨ ∀ e, ¬Admits quick filter peers radius e) ∧ d = 0) ∨
    (nnLowWatermark < peers.length ∧ IsGreatest { e | Admits quick filter peers radius e } d)

variable {ks : List Nat} {i : Nat}

variable {su c k m d b : Nat} {peers : PSlice}

section
variable {quick : Nat} {filter : Address → Bool}

/-- The first scan at a bin with `k` unfiltered peers: nothing when the scan stops. -/
def climb (quick bin k : Nat) (cur : Nat × Nat) : Option (Nat × Nat) :=
  if k = 0 then some cur
  else if bin = cur.1 then some (cur.1,cur.2 + k)
  else if cur.1 < bin ∧ cur.2 < quick then none
  else some (bin,k)

@[simp] theorem passing_nil {filter : Address → Bool} : passing filter [] = 0 := rfl

theorem passing_dropped {peer : Address} (peers : List Address) (dropped : filter peer = true) :
    passing filter (peer :: peers) = passing filter peers := by
  simp [passing,dropped]

theorem passing_passed {peer : Address} {peers : List Address} (passed : filter peer = false) :
    passing filter (peer :: peers) = passing filter peers + 1 := by
  simp [passing,passed]

theorem visit_own (bin : Nat) (peers : List Address) (c : Nat) :
    PSlice.visit (unsaturated quick filter) bin peers (bin,c) = ((bin,c + passing filter peers),none) := by
  induction peers generalizing c with
  | nil => rfl
  | cons peer peers ih =>
    cases dropped : filter peer with
    | true => simp [PSlice.visit,unsaturated,dropped,ih,passing_dropped]
    | false => simp [PSlice.visit,unsaturated,dropped,ih,passing_passed,Nat.add_assoc,Nat.add_comm 1]

theorem visit_unsaturated (bin : Nat) (peers : List Address) (cur : Nat × Nat) :
    PSlice.visit (unsaturated quick filter) bin peers cur =
      match climb quick bin (passing filter peers) cur with
      | some next => (next,none)
      | none => (cur,some none) := by
  obtain ⟨su,c⟩ := cur
  induction peers with
  | nil => rfl
  | cons peer peers ih =>
    cases dropped : filter peer with
    | true => simpa [PSlice.visit,unsaturated,dropped,passing_dropped] using ih
    | false =>
      rw [passing_passed dropped]
      by_cases own : bin = su
      · subst own
        simp [PSlice.visit,unsaturated,dropped,climb,visit_own,Nat.add_assoc,Nat.add_comm 1]
      by_cases short : su < bin ∧ c < quick
      · simp [PSlice.visit,unsaturated,dropped,climb,own,short]
      · simp [PSlice.visit,unsaturated,dropped,climb,own,short,visit_own,Nat.add_comm 1]

theorem visit_nearest (bin : Nat) (peers : List Address) (ctr candidate : Nat) (few : ctr < nnLowWatermark) :
    PSlice.visit (nearest filter) bin peers (ctr,candidate) =
      if nnLowWatermark ≤ ctr + passing filter peers then ((nnLowWatermark,bin),some none)
      else ((ctr + passing filter peers,candidate),none) := by
  induction peers generalizing ctr with
  | nil => simpa [PSlice.visit] using few
  | cons peer peers ih =>
    cases dropped : filter peer with
    | true => simpa [PSlice.visit,nearest,dropped,passing_dropped] using ih ctr few
    | false =>
      rw [passing_passed dropped]
      by_cases enough : nnLowWatermark ≤ ctr + 1
      · have last : ctr + 1 = nnLowWatermark := by omega
        have all : nnLowWatermark ≤ ctr + (passing filter peers + 1) := by omega
        simp [PSlice.visit,nearest,dropped,last,all]
      · have next := ih (ctr + 1) (by omega)
        simpa [PSlice.visit,nearest,dropped,enough,Nat.add_assoc,Nat.add_comm 1] using next

/-- The first scan over the bins from `i` on, with the peers that pass in each. -/
def reach (quick : Nat) : Nat → List Nat → Nat × Nat → Nat
  | _, [], cur => cur.1
  | i, k :: ks, cur =>
    match climb quick i k cur with
    | some next => reach quick (i + 1) ks next
    | none => cur.1

/-- The second scan over bins with the peers that pass in each. -/
def dive : List (Nat × Nat) → Nat → Nat
  | [], _ => 0
  | (k,i) :: ks, ctr => if nnLowWatermark ≤ ctr + k then i else dive ks (ctr + k)

def found (quick : Nat) (ks : List Nat) : Nat := reach quick 0 ks (0,0)

def candidate (ks : List Nat) : Nat := dive ks.zipIdx.reverse 0

theorem visitAll_unsaturated (bins : List (List Address)) (i : Nat) (cur : Nat × Nat)
    (small : i + bins.length ≤ 256) :
    (PSlice.visitAll (unsaturated quick filter) (bins.zipIdx i) cur).1.1 =
      reach quick i (bins.map (passing filter)) cur := by
  induction bins generalizing i cur with
  | nil => rfl
  | cons bin bins ih =>
    have fits : i % 256 = i := Nat.mod_eq_of_lt (by simp at small; omega)
    simp only [List.zipIdx_cons,PSlice.visitAll,List.map_cons,reach,visit_unsaturated,fits]
    cases climb quick i (passing filter bin) cur with
    | none => rfl
    | some next => exact ih (i + 1) next (by simp at small; omega)

theorem visitAll_nearest (bins : List (List Address × Nat)) (ctr : Nat) (few : ctr < nnLowWatermark)
    (small : ∀ bin ∈ bins, bin.2 < 256) :
    (PSlice.visitAll (nearest filter) bins (ctr,0)).1.2 =
      dive (bins.map (fun bin => (passing filter bin.1,bin.2))) ctr := by
  induction bins generalizing ctr with
  | nil => rfl
  | cons bin bins ih =>
    obtain ⟨peers,i⟩ := bin
    have fits : i % 256 = i := Nat.mod_eq_of_lt (small (peers,i) List.mem_cons_self)
    simp only [PSlice.visitAll,List.map_cons,dive,fits,visit_nearest _ _ _ _ few]
    by_cases enough : nnLowWatermark ≤ ctr + passing filter peers
    · simp [enough]
    · simp only [enough,if_false]
      exact ih _ (by omega) (fun bin mem => small bin (List.mem_cons_of_mem _ mem))

theorem eachBinRev_unsaturated (peers : PSlice) :
    (peers.eachBinRev (unsaturated quick filter) (0,0)).1.1 = found quick (counts peers filter) :=
  visitAll_unsaturated peers.peers 0 (0,0) (by simpa using peers.room)

theorem eachBin_nearest (peers : PSlice) :
    (peers.eachBin (nearest filter) (0,0)).1.2 = candidate (counts peers filter) := by
  have small : ∀ bin ∈ peers.peers.zipIdx.reverse, bin.2 < 256 := by
    intro bin mem
    have less := List.snd_lt_of_mem_zipIdx (List.mem_reverse.mp mem)
    have room := peers.room
    omega
  rw [PSlice.eachBin,visitAll_nearest _ 0 (by decide) small,candidate,counts,List.map_reverse,List.zipIdx_map]
  rfl

theorem reach_short (before : su < i) (short : c < quick) : reach quick i ks (su,c) = su := by
  induction ks generalizing i with
  | nil => rfl
  | cons k ks ih =>
    have other : i ≠ su := by omega
    by_cases none : k = 0
    · simp [reach,climb,none,ih (Nat.lt_add_right 1 before)]
    · simp [reach,climb,none,other,before,short]

theorem reach_next (before : su < i) (full : quick ≤ c) (any : k ≠ 0) :
    reach quick i (k :: ks) (su,c) = reach quick (i + 1) ks (i,k) := by
  have other : i ≠ su := by omega
  have enough : ¬c < quick := by omega
  simp [reach,climb,any,other,enough]

theorem reach_none {cur : Nat × Nat} : reach quick i (0 :: ks) cur = reach quick (i + 1) ks cur := by
  simp [reach,climb]

theorem reach_first : reach quick 0 (k :: ks) (0,0) = reach quick 1 ks (0,k) := by
  by_cases none : k = 0
  · simp [reach,climb,none]
  · simp [reach,climb,none]

theorem le_reach (before : su < i) : su ≤ reach quick i ks (su,c) := by
  induction ks generalizing i su c with
  | nil => exact Nat.le_refl _
  | cons k ks ih =>
    by_cases short : c < quick
    · rw [reach_short before short]
    by_cases none : k = 0
    · rw [none]
      exact ih (Nat.lt_add_right 1 before)
    · rw [reach_next before (Nat.le_of_not_lt short) none]
      exact Nat.le_trans (Nat.le_of_lt before) (ih (Nat.lt_add_one i))

theorem reach_passes (some : 0 < quick) (before : su < i) (full : quick ≤ c) (fulls : ∀ j < m, quick ≤ ks.getD j 0)
    (any : (ks.drop m).sum ≠ 0) : i + m ≤ reach quick i ks (su,c) := by
  induction ks generalizing i m su c with
  | nil => simp at any
  | cons k ks ih =>
    cases m with
    | zero =>
      by_cases none : k = 0
      · subst none
        rw [reach_none]
        have rest := ih (Nat.lt_add_right 1 before) full (fun j less => absurd less (Nat.not_lt_zero j))
          (by simpa using any)
        omega
      · rw [reach_next before full none]
        exact le_reach (Nat.lt_add_one i)
    | succ m =>
      have first : quick ≤ k := fulls 0 (Nat.succ_pos m)
      rw [reach_next before full (by omega)]
      have rest := ih (Nat.lt_add_one i) first (fun j less => fulls (j + 1) (Nat.succ_lt_succ less))
        (by simpa using any)
      omega

theorem reach_stops (before : su < i) (full : quick ≤ c) (fulls : ∀ j < m, quick ≤ ks.getD j 0)
    (short : ks.getD m 0 < quick) (any : ks.getD m 0 ≠ 0) : reach quick i ks (su,c) = i + m := by
  induction ks generalizing i m su c with
  | nil => simp at any
  | cons k ks ih =>
    cases m with
    | zero =>
      rw [reach_next before full (by simpa using any)]
      exact reach_short (Nat.lt_add_one i) (by simpa using short)
    | succ m =>
      have first : quick ≤ k := fulls 0 (Nat.succ_pos m)
      have less : ks.getD m 0 < quick := by simpa using short
      rw [reach_next before full (by omega)]
      rw [ih (Nat.lt_add_one i) first (fun j less => fulls (j + 1) (Nat.succ_lt_succ less)) less (by simpa using any)]
      omega

theorem reach_populated (before : su < i) :
    reach quick i ks (su,c) = su ∨
      i ≤ reach quick i ks (su,c) ∧ ks.getD (reach quick i ks (su,c) - i) 0 ≠ 0 := by
  induction ks generalizing i su c with
  | nil => exact .inl rfl
  | cons k ks ih =>
    by_cases short : c < quick
    · exact .inl (reach_short before short)
    -- what holds of the bins after `i` holds of them counted from `i`
    have later : ∀ {r : Nat}, i + 1 ≤ r ∧ ks.getD (r - (i + 1)) 0 ≠ 0 → i ≤ r ∧ (k :: ks).getD (r - i) 0 ≠ 0 := by
      intro r ⟨after,any⟩
      have next : r - i = r - (i + 1) + 1 := by omega
      exact ⟨by omega,by rw [next]; exact any⟩
    by_cases none : k = 0
    · subst none
      rcases ih (Nat.lt_add_right 1 before) with same | populated
      · exact .inl same
      · exact .inr (later populated)
    rw [reach_next before (Nat.le_of_not_lt short) none]
    rcases ih (Nat.lt_add_one i) with same | populated
    · rw [same]
      exact .inr ⟨Nat.le_refl i,by simpa using none⟩
    · exact .inr (later populated)

theorem le_found (some : 0 < quick) (fulls : ∀ b < d, quick ≤ ks.getD b 0) (any : (ks.drop d).sum ≠ 0) :
    d ≤ found quick ks := by
  cases ks with
  | nil => simp at any
  | cons k ks =>
    cases d with
    | zero => exact Nat.zero_le _
    | succ d =>
      rw [found,reach_first,Nat.add_comm]
      exact reach_passes some Nat.one_pos (fulls 0 (Nat.succ_pos d)) (fun j less => fulls (j + 1) (Nat.succ_lt_succ less))
        (by simpa using any)

theorem found_eq (fulls : ∀ j < b, quick ≤ ks.getD j 0) (short : ks.getD b 0 < quick) (any : b ≠ 0 → ks.getD b 0 ≠ 0) :
    found quick ks = b := by
  cases ks with
  | nil =>
    cases b with
    | zero => rfl
    | succ b => simp at any
  | cons k ks =>
    rw [found,reach_first]
    cases b with
    | zero => exact reach_short Nat.one_pos short
    | succ b =>
      rw [Nat.add_comm]
      exact reach_stops Nat.one_pos (fulls 0 (Nat.succ_pos b)) (fun j less => fulls (j + 1) (Nat.succ_lt_succ less))
        (by simpa using short) (by simpa using any)

theorem found_populated (quick : Nat) (ks : List Nat) (some : found quick ks ≠ 0) : ks.getD (found quick ks) 0 ≠ 0 := by
  cases ks with
  | nil => exact absurd rfl some
  | cons k ks =>
    rw [found,reach_first] at some ⊢
    obtain ⟨after,any⟩ := (reach_populated Nat.one_pos).resolve_left some
    have next : reach quick 1 ks (0,k) = reach quick 1 ks (0,k) - 1 + 1 := by omega
    rw [next]
    exact any

theorem sum_drop_le (ks : List Nat) (d : Nat) : (ks.drop d).sum ≤ ks.sum := by
  conv_rhs => rw [← List.take_append_drop d ks,List.sum_append]
  exact Nat.le_add_left _ _

theorem dive_few (bins : List (Nat × Nat)) (ctr : Nat) (few : ctr + (bins.map Prod.fst).sum < nnLowWatermark) :
    dive bins ctr = 0 := by
  induction bins generalizing ctr with
  | nil => rfl
  | cons bin bins ih =>
    obtain ⟨k,i⟩ := bin
    simp only [List.map_cons,List.sum_cons] at few
    have short : ¬nnLowWatermark ≤ ctr + k := by omega
    rw [dive,if_neg short]
    exact ih (ctr + k) (by omega)


theorem dive_spec (front back : List Nat) (few : back.sum < nnLowWatermark)
    (enough : nnLowWatermark ≤ (front ++ back).sum) :
    IsGreatest { d | nnLowWatermark ≤ ((front ++ back).drop d).sum } (dive front.zipIdx.reverse back.sum) := by
  induction front using List.reverseRecOn generalizing back with
  | nil => exact absurd enough (Nat.not_le_of_lt few)
  | append_singleton front k ih =>
    have turned : (front ++ [k]).zipIdx.reverse = (k,front.length) :: front.zipIdx.reverse := by
      simp [List.zipIdx_append]
    have moved : front ++ [k] ++ back = front ++ (k :: back) := by simp
    rw [turned,moved,dive,Nat.add_comm back.sum k,← List.sum_cons]
    split
    · next here =>
      constructor
      · simpa using here
      intro d within
      by_contra deeper
      obtain ⟨e,rfl⟩ : ∃ e, d = front.length + (e + 1) := ⟨d - front.length - 1,by omega⟩
      have tail : (front ++ k :: back).drop (front.length + (e + 1)) = back.drop e := by
        rw [List.drop_append,List.drop_of_length_le (by omega),List.nil_append,Nat.add_sub_cancel_left,
          List.drop_succ_cons]
      have within : nnLowWatermark ≤ ((front ++ k :: back).drop (front.length + (e + 1))).sum := within
      rw [tail] at within
      have less := sum_drop_le back e
      omega
    · next short => exact ih (k :: back) (by omega) (by rw [← moved]; exact enough)

theorem candidate_few (few : ks.sum < nnLowWatermark) : candidate ks = 0 := by
  refine dive_few _ 0 ?_
  rw [List.map_reverse,List.sum_reverse,List.zipIdx_map_fst,Nat.zero_add]
  exact few

theorem candidate_spec (enough : nnLowWatermark ≤ ks.sum) :
    IsGreatest { d | nnLowWatermark ≤ (ks.drop d).sum } (candidate ks) := by
  have spec := dive_spec ks [] (by decide) (by rwa [List.append_nil])
  rwa [List.append_nil] at spec

theorem shallowestEmpty_cases (s : PSlice) :
    (∃ i, s.shallowestEmpty = (i,false) ∧ s.bin i = [] ∧ ∀ j < i, s.bin j ≠ []) ∨
      s.shallowestEmpty = (0,true) ∧ ∀ j < s.maxBins, s.bin j ≠ [] := by
  cases is : s.peers.findIdx? List.isEmpty with
  | none =>
    refine .inr ⟨by simp only [PSlice.shallowestEmpty,is],?_⟩
    intro j less empty
    have filled := List.findIdx?_eq_none_iff.mp is
    have mem := filled s.peers[j] (List.getElem_mem less)
    rw [PSlice.bin,List.getD_eq_getElem _ _ less] at empty
    simp [empty] at mem
  | some i =>
    obtain ⟨less,empty,before⟩ := List.findIdx?_eq_some_iff_getElem.mp is
    have fits : i % 256 = i := Nat.mod_eq_of_lt (by have := s.room; omega)
    refine .inl ⟨i,by simp only [PSlice.shallowestEmpty,is,fits],?_,?_⟩
    · rw [PSlice.bin,List.getD_eq_getElem _ _ less]
      exact List.isEmpty_iff.mp empty
    intro j earlier none
    have filled := before j earlier
    rw [PSlice.bin,List.getD_eq_getElem _ _ (by omega)] at none
    simp [none] at filled

theorem cnt_eq (peers : PSlice) (b : Nat) : cnt peers filter b = passing filter (peers.bin b) := by
  rw [cnt,counts,PSlice.bin,← passing_nil,List.getD_map]

theorem bin_of_cnt (filter : Address → Bool) (some : cnt peers filter b ≠ 0) : peers.bin b ≠ [] := by
  intro none
  rw [cnt_eq,none] at some
  exact some rfl

theorem cntFrom_anti (filter : Address → Bool) (peers : PSlice) {d e : Nat} (le : d ≤ e) :
    cntFrom peers filter e ≤ cntFrom peers filter d := by
  obtain ⟨n,rfl⟩ := Nat.exists_eq_add_of_le le
  rw [cntFrom,← List.drop_drop]
  exact sum_drop_le _ n

/-- The bin that both `ShallowestEmpty` and the first scan lead to. -/
def turn (quick : Nat) (filter : Address → Bool) (peers : PSlice) : Nat :=
  let (shallowestEmpty,noEmptyBins) := peers.shallowestEmpty
  let found := found quick (counts peers filter)
  if !noEmptyBins ∧ shallowestEmpty < found then shallowestEmpty else found

theorem recalcDepth_eq (quick : Nat) (filter : Address → Bool) (many : nnLowWatermark < peers.length) (radius : Nat) :
    recalcDepth quick filter peers radius =
      min radius (min (turn quick filter peers) (candidate (counts peers filter))) := by
  rw [recalcDepth,if_neg (Nat.not_le_of_lt many)]
  simp only [eachBinRev_unsaturated,eachBin_nearest]
  change (if candidate (counts peers filter) < turn quick filter peers then _ else
    if radius < turn quick filter peers then radius else turn quick filter peers) = _
  split
  · split <;> omega
  · split <;> omega

/-- The turn is the bin of the scan, unless a bin before it has no peer. -/
theorem turn_cases (quick : Nat) (filter : Address → Bool) (peers : PSlice) :
    turn quick filter peers ≤ found quick (counts peers filter) ∧ (∀ b < turn quick filter peers, peers.bin b ≠ []) ∧
      (turn quick filter peers = found quick (counts peers filter) ∨ peers.bin (turn quick filter peers) = []) := by
  rcases shallowestEmpty_cases peers with ⟨i,is,empty,before⟩ | ⟨is,filled⟩
  · by_cases less : i < found quick (counts peers filter)
    · have here : turn quick filter peers = i := by simp [turn,is,less]
      rw [here]
      exact ⟨Nat.le_of_lt less,before,.inr empty⟩
    · have here : turn quick filter peers = found quick (counts peers filter) := by simp [turn,is,less]
      rw [here]
      exact ⟨Nat.le_refl _,fun b earlier => before b (by omega),.inl rfl⟩
  have here : turn quick filter peers = found quick (counts peers filter) := by simp [turn,is]
  rw [here]
  refine ⟨Nat.le_refl _,?_,.inl rfl⟩
  intro b earlier
  refine filled b (Nat.lt_of_lt_of_le earlier ?_)
  by_contra beyond
  have any := found_populated quick (counts peers filter) (by omega)
  exact bin_of_cnt filter any (List.getD_eq_default _ _ (by simpa [PSlice.maxBins] using Nat.le_of_not_le beyond))

theorem le_turn (some : 0 < quick) (fulls : ∀ b < d, quick ≤ cnt peers filter b) (any : cntFrom peers filter d ≠ 0) :
    d ≤ turn quick filter peers := by
  obtain ⟨-,-,same | empty⟩ := turn_cases quick filter peers
  · rw [same]
    exact le_found some fulls any
  · by_contra less
    have full := fulls _ (Nat.lt_of_not_le less)
    exact bin_of_cnt filter (by omega) empty

theorem hidden_of_lt_turn (fulls : ∀ j < b, quick ≤ cnt peers filter j) (short : cnt peers filter b < quick)
    (before : b < turn quick filter peers) : 0 < b ∧ cnt peers filter b = 0 ∧ peers.bin b ≠ [] := by
  obtain ⟨le,filled,-⟩ := turn_cases quick filter peers
  have skipped : ¬(b ≠ 0 → cnt peers filter b ≠ 0) := by
    intro any
    have stops := found_eq fulls short any
    omega
  simp only [Classical.not_imp,ne_eq,Classical.not_not] at skipped
  exact ⟨Nat.pos_of_ne_zero skipped.1,skipped.2,filled b before⟩

theorem lt_turn_of_hidden (some : 0 < quick) (later : 0 < b) (fulls : ∀ j < b, quick ≤ cnt peers filter j)
    (none : cnt peers filter b = 0) (filled : peers.bin b ≠ []) (any : cntFrom peers filter (b + 1) ≠ 0) :
    b < turn quick filter peers := by
  have all : cntFrom peers filter b ≠ 0 := by
    have less := cntFrom_anti filter peers (show b ≤ b + 1 by omega)
    omega
  have le := le_turn some fulls all
  have other : turn quick filter peers ≠ b := by
    intro here
    obtain ⟨-,-,same | empty⟩ := turn_cases quick filter peers
    · exact found_populated quick (counts peers filter) (by rw [← same]; omega) (by rw [← same,here]; exact none)
    · rw [here] at empty
      exact filled empty
  omega

end

/-- A bin that hides: the shallower ones are saturated, its peers are all filtered, and enough peers are deeper. -/
def Hides (quick : Nat) (filter : Address → Bool) (peers : PSlice) (radius b : Nat) : Prop :=
  0 < b ∧ b < radius ∧ (∀ j < b, quick ≤ cnt peers filter j) ∧ cnt peers filter b = 0 ∧ peers.bin b ≠ [] ∧
    nnLowWatermark ≤ cntFrom peers filter (b + 1)

theorem quickSaturationPeers_pos (binMaxPeers : Int) : 0 < quickSaturationPeers binMaxPeers := by
  simp only [quickSaturationPeers,overSaturationPeers]
  split
  · split <;> split <;> omega
  · decide

section
variable {quick : Nat} {filter : Address → Bool} {peers : PSlice} {radius : Nat}

theorem cntFrom_le_length (filter : Address → Bool) (peers : PSlice) (d : Nat) :
    cntFrom peers filter d ≤ peers.length := by
  have each : ∀ bins : List (List Address), (bins.map (passing filter)).sum ≤ (bins.map List.length).sum := by
    intro bins
    induction bins with
    | nil => exact Nat.le_refl _
    | cons bin bins ih =>
      exact Nat.add_le_add (List.length_filter_le _ bin) ih
  exact Nat.le_trans (sum_drop_le _ d) (each peers.peers)

theorem many_of_hides (some : 0 < quick) (hides : Hides quick filter peers radius b) :
    nnLowWatermark < peers.length := by
  obtain ⟨later,-,fulls,-,-,enough⟩ := hides
  have first : cnt peers filter 0 + cntFrom peers filter 1 = cntFrom peers filter 0 := by
    rw [cnt,cntFrom,cntFrom]
    cases counts peers filter <;> simp
  have full := fulls 0 later
  have less := cntFrom_anti filter peers (show 1 ≤ b + 1 by omega)
  have all := cntFrom_le_length filter peers 0
  omega

theorem isDepth_few (many : nnLowWatermark < peers.length) (few : cntFrom peers filter 0 < nnLowWatermark) :
    IsDepth quick filter peers radius (recalcDepth quick filter peers radius) := by
  refine .inl ⟨.inr ?_,?_⟩
  · rintro d ⟨-,-,enough⟩
    have less := cntFrom_anti filter peers (Nat.zero_le d)
    omega
  · have none : candidate (counts peers filter) = 0 := candidate_few few
    rw [recalcDepth_eq _ _ many]
    omega

theorem isDepth_iff (some : 0 < quick) (many : nnLowWatermark < peers.length)
    (enough : nnLowWatermark ≤ cntFrom peers filter 0) :
    IsDepth quick filter peers radius (recalcDepth quick filter peers radius) ↔
      ∀ b < recalcDepth quick filter peers radius, quick ≤ cnt peers filter b := by
  have spec : IsGreatest _ (candidate (counts peers filter)) := candidate_spec enough
  have here := recalcDepth_eq quick filter many radius
  have least : Admits quick filter peers radius 0 := ⟨Nat.zero_le _,fun b less => absurd less (Nat.not_lt_zero b),enough⟩
  constructor
  · rintro (⟨few | none,-⟩ | ⟨-,⟨-,fulls,-⟩,-⟩)
    · omega
    · exact absurd least (none 0)
    · exact fulls
  intro fulls
  refine .inr ⟨many,⟨by omega,fulls,?_⟩,?_⟩
  · exact Nat.le_trans spec.1 (cntFrom_anti filter peers (by omega))
  intro d ⟨within,saturated,left⟩
  have deep : d ≤ candidate (counts peers filter) := spec.2 left
  have turned : d ≤ turn quick filter peers := le_turn some saturated (by rw [nnLowWatermark] at left; omega)
  omega

theorem saturated_iff (some : 0 < quick) (many : nnLowWatermark < peers.length)
    (enough : nnLowWatermark ≤ cntFrom peers filter 0) :
    (∀ b < recalcDepth quick filter peers radius, quick ≤ cnt peers filter b) ↔
      ∀ b, ¬Hides quick filter peers radius b := by
  have spec : IsGreatest _ (candidate (counts peers filter)) := candidate_spec enough
  have here := recalcDepth_eq quick filter many radius
  constructor
  · rintro saturated b ⟨later,inside,fulls,none,filled,left⟩
    have deep : b + 1 ≤ candidate (counts peers filter) := spec.2 left
    have turned : b < turn quick filter peers :=
      lt_turn_of_hidden some later fulls none filled (by rw [nnLowWatermark] at left; omega)
    have full := saturated b (by omega)
    omega
  intro clear b
  -- the first bin that is not saturated would hide
  induction b using Nat.strong_induction_on with
  | _ b ih =>
    intro less
    by_contra short
    have fulls : ∀ j < b, quick ≤ cnt peers filter j := fun j before => ih j before (by omega)
    obtain ⟨later,none,filled⟩ := hidden_of_lt_turn fulls (Nat.lt_of_not_le short) (by omega)
    have deep : b + 1 ≤ candidate (counts peers filter) := by omega
    exact clear b ⟨later,by omega,fulls,none,filled,Nat.le_trans spec.1 (cntFrom_anti filter peers deep)⟩

end

/-- `recalcDepth` returns the depth exactly when no bin hides behind its filtered peers. -/
theorem recalcDepth_iff (binMaxPeers : Int) (filter : Address → Bool) (peers : PSlice) (radius : Nat) :
    IsDepth (quickSaturationPeers binMaxPeers) filter peers radius
        (recalcDepth (quickSaturationPeers binMaxPeers) filter peers radius) ↔
      ∀ b, ¬Hides (quickSaturationPeers binMaxPeers) filter peers radius b := by
  have some := quickSaturationPeers_pos binMaxPeers
  by_cases many : nnLowWatermark < peers.length
  · by_cases enough : nnLowWatermark ≤ cntFrom peers filter 0
    · exact (isDepth_iff some many enough).trans (saturated_iff some many enough)
    · refine ⟨?_,fun _ => isDepth_few many (Nat.lt_of_not_le enough)⟩
      rintro - b ⟨-,-,-,-,-,left⟩
      exact enough (Nat.le_trans left (cntFrom_anti filter peers (Nat.zero_le _)))
  · have zero : recalcDepth (quickSaturationPeers binMaxPeers) filter peers radius = 0 :=
      if_pos (Nat.le_of_not_lt many)
    refine ⟨fun _ b hides => many (many_of_hides some hides),fun _ => .inl ⟨.inl (Nat.le_of_not_lt many),zero⟩⟩

def threeBins : PSlice :=
  (PSlice.new 32 [0] (by decide) (by decide)).add [[128],[129],[130],[131],[64],[32],[33],[34]]

/-- The only peer of bin one is filtered: the depth is one, and two is returned. -/
theorem depth_too_deep :
    recalcDepth (quickSaturationPeers 0) (· == [64]) threeBins 31 = 2 ∧
      ¬IsDepth (quickSaturationPeers 0) (· == [64]) threeBins 31 2 := by
  have one : cnt threeBins (· == [64]) 1 = 0 := by decide
  refine ⟨by decide,?_⟩
  rintro (⟨-,is⟩ | ⟨-,⟨-,fulls,-⟩,-⟩)
  · exact absurd is (by decide)
  · have full := fulls 1 (by decide)
    rw [one] at full
    exact absurd full (by decide)

end FavorX.Depth

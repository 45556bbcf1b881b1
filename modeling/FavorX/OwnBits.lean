import FavorX.Retrieval

/-!
Whether a node's own presence vectors are true. A bit is set when a chunk is retrieved, before the
chunk is stored, at the root and index that came with the call. A bit is true as long as retrievals
that are reported are for the chunk with that index, or it is there already, and nothing fails after
the report (`own_bits_truthful`).
-/
namespace FavorX.OwnBits
open FiniteMaps Shed Bits Presence Announcements Retrieval
open Downloads hiding onRetrieved onTransferred handle run Event

/-- The chunks of files by root and index. A file has fewer than `2 ^ 63 - 1` of them. -/
structure Tries where
  chunk : Address → Nat → Option Address
  small : ∀ {root b c}, chunk root b = some c → (b : Int) < 2 ^ 63 - 1

def HasBit (ci : ChunkInfo) (root : Address) (b : Nat) : Prop :=
  ∃ e, vectorAt ci.chunkStore.service root ci.addr = some e ∧ bitAt e.bit.b b = true

def Truthful (tries : Tries) (node : Node) : Prop :=
  ∀ {root b}, HasBit node.ci root b → ∃ c, tries.chunk root b = some c ∧ (node.held.lookup c).isSome

theorem set_bits {bv bv' : BitVector} {i : Int} (set : bv.set i true = .ok bv') {j : Nat}
    (bit : bitAt bv'.b j = true) : bitAt bv.b j = true ∨ (j : Int) = i := by
  by_cases inside : -8 < i ∧ i < 8 * bv.b.length
  · by_cases nonneg : 0 ≤ i
    · obtain ⟨n,rfl⟩ := Int.eq_ofNat_of_zero_le nonneg
      obtain ⟨made,run,-,-,bits⟩ := set_inside (show n < 8 * bv.b.length by omega)
      rw [set,Except.ok.injEq] at run
      rw [run,bits,Bool.or_eq_true,decide_eq_true_iff] at bit
      exact bit.imp id (fun same => by rw [same])
    by_cases none : bv.b = []
    · have fails : bv.get i = .error .panicked := by
        simp only [BitVector.get,none]
        split <;> rfl
      rw [BitVector.set,fails] at set
      cases set
    obtain ⟨made,run,-,bits⟩ := set_before none inside.1 (by omega)
    rw [set,Except.ok.injEq] at run
    rw [run,bits] at bit
    exact .inl bit
  · rw [BitVector.set,get_outside inside] at set
    cases set

theorem new_bits {l : Int} {bv : BitVector} (made : BitVector.new l = .ok bv) (j : Nat) : bitAt bv.b j = false := by
  have positive : 0 < l := new_len made ▸ (new_sized made).1
  rw [new_empty positive,Except.ok.injEq] at made
  rw [← made]
  exact bitAt_replicate _ j

variable {r o chunk : Address}

theorem putBit_bits {m : Vectors} {i len : Int} {e : Entry} (put : putBit m r o i len = .ok (some e)) {j : Nat}
    (bit : bitAt e.bit.b j = true) : (∃ e₀, vectorAt m r o = some e₀ ∧ bitAt e₀.bit.b j = true) ∨ (j : Int) = i := by
  refine (putBit_rule (P := fun bv => bitAt bv.b j = true → (∃ e₀, vectorAt m r o = some e₀ ∧ bitAt e₀.bit.b j = true) ∨
    (j : Int) = i) (fun bv made bit => ?_) (fun data bv bv' found old copied bit => ?_) (fun bv bv' old set bit => ?_)
    (fun e₀ found bit => .inl ⟨e₀,found,bit⟩) put).1 bit
  · rw [new_bits made] at bit
    cases bit
  · by_cases fits : data.bit.b.length ≤ bv.b.length
    · obtain ⟨copy,run,-,-,bits⟩ := setBytes_fits fits
      rw [copied,Except.ok.injEq] at run
      rw [run,bits,Bool.or_eq_true] at bit
      exact bit.elim old (fun bit => .inl ⟨data,found,bit⟩)
    · have long : bv.b.length < data.bit.b.length := by omega
      simp only [BitVector.setBytes,long,if_true] at copied
      cases copied
  · exact (set_bits set bit).elim old .inr

variable {root overlay : Address}

variable {ci : ChunkInfo}

theorem updateService_bits {i len : Int} {b : Nat} (bit : HasBit (updateService root i len overlay ci).2 r b) :
    HasBit ci r b ∨ overlay = ci.addr ∧ r = root ∧ (b : Int) = i := by
  rw [updateService_eq] at bit
  cases put : putBit ci.chunkStore.service root overlay i len with
  | error e =>
    rw [put] at bit
    exact .inl bit
  | ok data =>
    rw [put] at bit
    cases data with
    | none => exact .inl bit
    | some e =>
      obtain ⟨e',found,set⟩ := bit
      have read := ci.chunkStore.vectorAt_store .service .service root overlay r ci.addr e
      have found : vectorAt ((ci.chunkStore.store .service root overlay e).vectors .service) r ci.addr = some e' := found
      rw [read] at found
      split at found
      · next here =>
        cases found
        obtain ⟨-,rfl,rfl⟩ := here
        rcases putBit_bits put set with ⟨e₀,old,was⟩ | same
        · exact .inl ⟨e₀,old,was⟩
        · exact .inr ⟨rfl,rfl,same⟩
      · exact .inl ⟨e',found,set⟩

theorem updateSource_bits {i len : Int} {b : Nat} (bit : HasBit (updateSource root i len overlay ci).2 r b) :
    HasBit ci r b := by
  simp only [updateSource] at bit
  split at bit
  · exact bit
  obtain ⟨e,found,set⟩ := bit
  have kept := put_other (show ChunkType.service ≠ .source by decide) 0 root [⟨overlay,i,len,[]⟩] ci.chunkStore
  have found : vectorAt ((ci.chunkStore.put 0 .source root [⟨overlay,i,len,[]⟩]).2.vectors .service) r ci.addr =
    some e := found
  rw [kept] at found
  exact ⟨e,found,set⟩

@[simp] theorem addr_updateSource (root : Address) (i len : Int) (overlay : Address) (ci : ChunkInfo) :
    (updateSource root i len overlay ci).2.addr = ci.addr := by
  simp only [updateSource]
  split <;> rfl

@[simp] theorem addr_onRetrieved (a : Attempt) (root : Address) (index : Int64) (overlay : Address) (ci : ChunkInfo) :
    (onRetrieved a root index overlay ci).2.addr = ci.addr := by
  simp only [onRetrieved]
  split
  · rw [reported_ci]
    rfl
  · rw [reported_ci,addr_updateSource,reported_ci]
    rfl

variable {index : Int64}

theorem onRetrieved_bits {a : Attempt} {b : Nat} (bit : HasBit (onRetrieved a root index overlay ci).2 r b) :
    HasBit ci r b ∨ r = root ∧ (b : Int) = index.toInt := by
  have service : HasBit (updateService root index.toInt (index + 1).toInt ci.addr ci).2 r b := by
    simp only [onRetrieved] at bit
    split at bit
    · rwa [reported_ci] at bit
    · rw [reported_ci,reported_ci] at bit
      exact updateSource_bits bit
  exact (updateService_bits service).imp id And.right

theorem putBit_ok {m : Vectors} (nonneg : 0 ≤ index.toInt) (small : index.toInt < 2 ^ 63 - 1)
    (sized : ∀ e, vectorAt m r o = some e → Sized e.bit) :
    ∃ data, putBit m r o index.toInt (index + 1).toInt = .ok data := by
  have next : (index + 1).toInt = index.toInt + 1 := by rw [toInt_succ,if_neg (by omega)]
  by_cases longer : ∀ e, vectorAt m r o = some e → e.bit.len < (index + 1).toInt
  · obtain ⟨e,put,-⟩ := putBit_longer (show 0 < (index + 1).toInt by omega) (fun e found => ⟨sized e found,longer e found⟩)
    exact ⟨_,put⟩
  simp only [not_forall] at longer
  obtain ⟨e,found,long⟩ := longer
  have fits := sized e found
  have len := fits.2
  have room : e.bit.b ≠ [] := by
    intro none
    rw [none] at len
    simp at len
    omega
  have inside : -8 < index.toInt ∧ index.toInt < 8 * e.bit.b.length := by omega
  obtain ⟨v,read⟩ := get_ok room inside
  simp only [putBit,found,if_neg long,read]
  cases v with
  | true => exact ⟨none,rfl⟩
  | false =>
    obtain ⟨bv,set,-⟩ := set_ok room inside
    exact ⟨some ⟨bv,0⟩,by simp only [bind,Except.bind,set]; rfl⟩

theorem onRetrieved_ok {a : Attempt} (sized : SizedAll ci.chunkStore) (nonneg : 0 ≤ index.toInt)
    (small : index.toInt < 2 ^ 63 - 1) (recorded : a.recorded = true) (sourced : a.sourced = true) :
    (onRetrieved a root index overlay ci).1 = .ok () := by
  have service : (updateService root index.toInt (index + 1).toInt ci.addr ci).1 = .ok () := by
    obtain ⟨data,put⟩ := putBit_ok (m := ci.chunkStore.service) nonneg small
      (sized.vector .service (by decide) _ _)
    rw [updateService_eq,put]
  have source : ∀ {ci' : ChunkInfo}, SizedAll ci'.chunkStore →
      (updateSource root index.toInt (index + 1).toInt overlay ci').1 = .ok () := by
    intro ci' sized
    simp only [updateSource]
    split
    · rfl
    obtain ⟨data,put⟩ := putBit_ok (m := ci'.chunkStore.source) (r := root) (o := overlay) nonneg small
      (sized.vector .source (by decide) _ _)
    rw [put_bit_eq (by decide)]
    simp only [Chunkstore.vectors,put]
  have next := source (sized_updateService sized root index.toInt (index + 1).toInt ci.addr)
  simp only [onRetrieved,reported,service,recorded,if_true,next,sourced]

variable {node : Node}

section
variable (valid : Address → Bytes → Bool) (tries : Tries)

/-- A retrieval that comes to its report is for the chunk with this index and goes on to store it, or that chunk is
there already. An index below zero selects no bit. -/
def Backed (node : Node) (root chunk : Address) (index : Int64) (a : Attempt) : Prop :=
  (∃ data, a.delivery = some data ∧ valid chunk data = true) → a.credited = true → 0 ≤ index.toInt →
    ∃ c, tries.chunk root index.toInt.toNat = some c ∧
      ((node.held.lookup c).isSome ∨ c = chunk ∧ a.recorded = true ∧ a.sourced = true ∧ a.put = true)

/-- The retrievals of a call, one after the other. -/
def AllBacked (root chunk : Address) (index : Int64) : Node → List (Address × Attempt) → Prop
  | _, [] => True
  | node, (link,a) :: rest =>
    Backed valid tries node root chunk index a ∧
      AllBacked root chunk index (retrieveChunk valid node link root chunk index a).2 rest

/-- What a node keeps along a run. -/
structure Sound (node : Node) : Prop where
  sized : SizedAll node.ci.chunkStore
  truthful : Truthful tries node

variable {valid} {tries}

/-- What a retrieval can do: nothing, or report and then store or fail. -/
theorem retrieveChunk_cases {valid : Address → Bytes → Bool} {node : Node} (link root chunk : Address) {index : Int64} (a : Attempt) :
    (retrieveChunk valid node link root chunk index a).2 = node ∨
      ∃ data, a.delivery = some data ∧ valid chunk data = true ∧ a.credited = true ∧
        (retrieveChunk valid node link root chunk index a).2.ci = (onRetrieved a root index link node.ci).2 ∧
        (retrieveChunk valid node link root chunk index a).2.held =
          if (onRetrieved a root index link node.ci).1 = .ok () ∧ a.put = true then node.held.insert chunk data
          else node.held := by
  unfold retrieveChunk
  cases delivered : a.delivery with
  | none => exact .inl rfl
  | some data =>
    simp only
    cases fits : valid chunk data with
    | false => exact .inl rfl
    | true =>
      cases credit : a.credited with
      | false => exact .inl rfl
      | true =>
        refine .inr ⟨data,rfl,fits,rfl,?_⟩
        cases report : (onRetrieved a root index link node.ci).1 with
        | error e => simp
        | ok u => cases put : a.put <;> simp

theorem sound_retrieveChunk (sound : Sound tries node) (link : Address) {a : Attempt}
    (backed : Backed valid tries node root chunk index a) :
    Sound tries (retrieveChunk valid node link root chunk index a).2 := by
  refine ⟨sized_retrieveChunk valid sound.sized link root chunk index a,?_⟩
  rcases retrieveChunk_cases link root chunk a with same | ⟨data,delivered,fits,credit,reports,stores⟩
  · rw [same]
    exact sound.truthful
  intro r b bit
  rw [reports] at bit
  -- chunks stay, and the chunk of the call is there when nothing fails
  have stay : ∀ {c}, (node.held.lookup c).isSome →
      ((retrieveChunk valid node link root chunk index a).2.held.lookup c).isSome := by
    intro c there
    rw [stores]
    split
    · rw [lookup_insert_eq]
      split
      · rfl
      · exact there
    · exact there
  rcases onRetrieved_bits bit with old | ⟨rfl,here⟩
  · obtain ⟨c,is,there⟩ := sound.truthful old
    exact ⟨c,is,stay there⟩
  have place : index.toInt.toNat = b := by omega
  obtain ⟨c,is,there | ⟨rfl,recorded,sourced,put⟩⟩ := backed ⟨data,delivered,fits⟩ credit (by omega)
  · rw [place] at is
    exact ⟨c,is,stay there⟩
  rw [place] at is
  have small := tries.small is
  have ok : (onRetrieved a r index link node.ci).1 = .ok () :=
    onRetrieved_ok sound.sized (by omega) (by omega) recorded sourced
  refine ⟨c,is,?_⟩
  rw [stores,if_pos ⟨ok,put⟩,Finmap.lookup_insert]
  rfl

theorem sound_attempts {list : List (Address × Attempt)} (sound : Sound tries node)
    (backed : AllBacked valid tries root chunk index node list) :
    Sound tries (attempts valid node root chunk index list).2 ∧
      (attempts valid node root chunk index list).2.ci.addr = node.ci.addr := by
  induction list generalizing node with
  | nil => exact ⟨sound,rfl⟩
  | cons first rest ih =>
    obtain ⟨link,a⟩ := first
    have next := sound_retrieveChunk sound link backed.1
    have addr : (retrieveChunk valid node link root chunk index a).2.ci.addr = node.ci.addr := by
      rcases retrieveChunk_cases link root chunk a with same | ⟨-,-,-,-,reports,-⟩
      · rw [same]
      · rw [reports,addr_onRetrieved]
    obtain ⟨restSound,restAddr⟩ := ih next backed.2
    rw [addr] at restAddr
    cases run : retrieveChunk valid node link root chunk index a with
    | mk r node' =>
      rw [run] at next addr restSound restAddr
      cases r with
      | error e => cases e <;> simp only [attempts,run] <;> exact ⟨by assumption,by assumption⟩
      | ok u =>
        simp only [attempts,run]
        cases more : attempts valid node' root chunk index rest with
        | mk r' node'' =>
          rw [more] at restSound restAddr
          cases r' with
          | ok u => exact ⟨restSound,restAddr⟩
          | error e => cases e <;> exact ⟨restSound,restAddr⟩

section
variable (sound : Sound tries node)
include sound

theorem sound_serve {p : Peer} (other : p.address ≠ node.ci.addr) {req : RequestChunk} {out : Served} :
    Sound tries (serve node p req out).2 ∧ (serve node p req out).2.ci.addr = node.ci.addr := by
  refine ⟨⟨sized_serve sound.sized,?_⟩,?_⟩
  · intro r b bit
    simp only [serve] at bit ⊢
    split at bit
    · next fails => simpa [fails] using sound.truthful bit
    next written =>
    split at bit
    · next fails => simpa [written,fails] using sound.truthful bit
    next debited =>
    split at bit
    · next fails => simpa [written,debited,fails] using sound.truthful bit
    next full =>
    simp only [written,debited,full]
    rw [reported_ci] at bit
    rcases updateService_bits bit with old | ⟨same,-,-⟩
    · exact sound.truthful old
    · exact absurd same other
  simp only [serve]
  split
  · rfl
  split
  · rfl
  split
  · rfl
  · rw [reported_ci]
    rfl

/-- A call of the node, or a request of a peer. -/
inductive Event
  | retrieve (root chunk : Address) (index : Int64) (list : List (Address × Attempt))
  | request (a : Arrival)

def happen (valid : Address → Bytes → Bool) (node : Node) : Event → Node
  | .retrieve root chunk index list => (attempts valid node root chunk index list).2
  | .request a => node.receive valid a

/-- The node calls with the index of the chunk; requests come from others and name another target. -/
def Event.Proper (tries : Tries) (addr : Address) : Event → Prop
  | .retrieve root chunk index _ => 0 ≤ index.toInt ∧ tries.chunk root index.toInt.toNat = some chunk
  | .request a => a.req.targetAddr ≠ addr ∧ a.peer.address ≠ addr

/-- The retrievals that an event makes are backed. -/
def Event.Backs (valid : Address → Bytes → Bool) (tries : Tries) (node : Node) : Event → Prop
  | .retrieve root chunk index list => AllBacked valid tries root chunk index node list
  | .request a =>
    node.held.lookup a.req.chunkAddr = none → node.relay = true →
      AllBacked valid tries a.req.rootAddr a.req.chunkAddr a.req.bit node (a.tries.map (fun t => (a.req.targetAddr,t)))

def AllBack (valid : Address → Bytes → Bool) (tries : Tries) : Node → List Event → Prop
  | _, [] => True
  | node, e :: events => e.Backs valid tries node ∧ AllBack valid tries (happen valid node e) events

theorem sound_receive {a : Arrival} (other : a.peer.address ≠ node.ci.addr)
    (backed : (Event.request a).Backs valid tries node) :
    Sound tries (node.receive valid a) ∧ (node.receive valid a).ci.addr = node.ci.addr := by
  simp only [Node.receive,handler]
  cases found : node.held.lookup a.req.chunkAddr with
  | some data => exact sound_serve sound other
  | none =>
    simp only
    split
    · exact ⟨sound,rfl⟩
    split
    · exact ⟨sound,rfl⟩
    next relay =>
    obtain ⟨next,addr⟩ := sound_attempts sound (backed found (by simpa using relay))
    cases run : attempts valid node a.req.rootAddr a.req.chunkAddr a.req.bit
        (a.tries.map (fun t => (a.req.targetAddr,t))) with
    | mk r node' =>
      rw [run] at next addr
      cases r with
      | error e => exact ⟨next,addr⟩
      | ok u =>
        have elsewhere : a.peer.address ≠ node'.ci.addr := addr ▸ other
        obtain ⟨served,same⟩ := sound_serve next elsewhere
        exact ⟨served,same.trans addr⟩

theorem sound_happen {e : Event} (proper : e.Proper tries node.ci.addr) (backed : e.Backs valid tries node) :
    Sound tries (happen valid node e) ∧ (happen valid node e).ci.addr = node.ci.addr := by
  cases e with
  | retrieve root chunk index list => exact sound_attempts sound backed
  | request a => exact sound_receive sound proper.2 backed

end

theorem sound_run (events : List Event) (sound : Sound tries node)
    (proper : ∀ e ∈ events, e.Proper tries node.ci.addr) (backed : AllBack valid tries node events) :
    Sound tries (events.foldl (happen valid) node) := by
  induction events generalizing node with
  | nil => exact sound
  | cons e events ih =>
    obtain ⟨next,addr⟩ := sound_happen sound (proper e List.mem_cons_self) backed.1
    refine ih next (fun e' mem => ?_) backed.2
    rw [addr]
    exact proper e' (List.mem_cons_of_mem _ mem)

end

/-- In every run of calls and requests whose retrievals are backed, a bit of the node's own vectors means that the node
has the chunk. -/
theorem own_bits_truthful (valid : Address → Bytes → Bool) (tries : Tries) (addr : Address) (held : Map Address Bytes)
    (relay : Bool) (events : List Event) (proper : ∀ e ∈ events, e.Proper tries addr)
    (backed : AllBack valid tries ⟨⟨addr,{}⟩,held,relay⟩ events) :
    Truthful tries (events.foldl (happen valid) ⟨⟨addr,{}⟩,held,relay⟩) := by
  refine (sound_run events ⟨sized_run [],?_⟩ proper backed).truthful
  rintro root b ⟨e,found,-⟩
  cases found

def single : Tries where
  chunk root b := if root = [7] ∧ b = 0 then some [8] else none
  small := by
    intro root b c is
    split at is
    · next here => rw [here.2]; decide
    · cases is

def honest : List Event := [.retrieve [7] [8] 0 [([2],⟨some [1],true,true,true,true⟩)]]

theorem own_bits_truthful_single :
    Truthful single (honest.foldl (happen (fun _ _ => true)) ⟨⟨[1],{}⟩,∅,true⟩) :=
  own_bits_truthful (fun _ _ => true) single [1] ∅ true honest
    (by
      intro e mem
      rw [List.mem_singleton.mp mem]
      exact ⟨by decide,by decide⟩)
    ⟨⟨fun _ _ _ => ⟨[8],by decide,.inr ⟨rfl,rfl,rfl,rfl⟩⟩,trivial⟩,trivial⟩

/-- A request for a chunk of another file that claims the root and the index of the chunk. -/
def forged : Arrival where
  peer := ⟨[2],true⟩
  req := ⟨[3],[7],[9],0⟩
  tries := [⟨some [1],true,true,true,true⟩]
  out := ⟨true,true,true⟩

/-- Passing the request on sets the bit of a chunk that the node does not have. -/
theorem forged_bit :
    (Event.request forged).Proper single [1] ∧
      ¬Truthful single (happen (fun _ _ => true) ⟨⟨[1],{}⟩,∅,true⟩ (.request forged)) := by
  refine ⟨⟨by decide,by decide⟩,?_⟩
  intro truthful
  have bit : HasBit (happen (fun _ _ => true) ⟨⟨[1],{}⟩,∅,true⟩ (.request forged)).ci [7] 0 :=
    ⟨⟨⟨1,[1]⟩,0⟩,by decide,by decide⟩
  obtain ⟨c,is,there⟩ := truthful bit
  have file : single.chunk [7] 0 = some [8] := by decide
  rw [file,Option.some.injEq] at is
  subst is
  exact absurd there (by decide)

end FavorX.OwnBits

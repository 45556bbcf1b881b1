import FavorX.Downloads
import FavorX.Restart

/-!
The retrieval of chunks (`retrieveChunk`, `handler`, `onTransferred`). What is delivered must have
the hash that was asked for, is credited, reported in the presence vectors and put into the local
store. The index that comes with a request is not checked: `requests_safe_iff` says for which
indexes nothing panics and no vector grows beyond the file.
-/
namespace FavorX.Retrieval
open FiniteMaps Shed Bits Presence Announcements Downloads

/-- A node: its own vectors, the chunks in its local store, and whether it retrieves for others. -/
structure Node where
  ci : ChunkInfo
  held : Map Address Bytes := ∅
  relay : Bool := true

inductive Fault
  /-- connecting, reserving, opening the stream, writing or reading failed -/
  | unavailable
  | invalidChunk
  | accounting
  | report (e : Err)
  | store
  | notFound
  | panicked
  deriving DecidableEq

/-- How the steps of one retrieval end: what is delivered if something is, and whether the steps after it succeed. -/
structure Attempt where
  delivery : Option Bytes
  credited : Bool
  recorded : Bool
  sourced : Bool
  put : Bool

/-- A report: an error of the chunk store, a panic, or the state store failing after the vector in memory is set. -/
def reported (kept : Bool) (r : Downloads.Result) : Except Fault Unit × ChunkInfo :=
  match r.1 with
  | .error .panicked => (.error .panicked,r.2)
  | .error e => (.error (.report e),r.2)
  | .ok () => if kept then (.ok (),r.2) else (.error .store,r.2)

def onTransferred (rootCid : Address) (index : Int64) (overlay : Address) (ci : ChunkInfo) : Downloads.Result :=
  updateService rootCid index.toInt (index + 1).toInt overlay ci

/-- The length of the file is not part of this context: the vector ends with the chunk. -/
def onRetrieved (a : Attempt) (rootCid : Address) (index : Int64) (overlay : Address) (ci : ChunkInfo) :
    Except Fault Unit × ChunkInfo :=
  let r := reported a.recorded (updateService rootCid index.toInt (index + 1).toInt ci.addr ci)
  match r.1 with
  | .error e => (.error e,r.2)
  | .ok () => reported a.sourced (updateSource rootCid index.toInt (index + 1).toInt overlay r.2)

section
variable (valid : Address → Bytes → Bool)

def retrieveChunk (node : Node) (link rootAddr chunkAddr : Address) (index : Int64) (a : Attempt) :
    Except Fault Unit × Node :=
  match a.delivery with
  | none => (.error .unavailable,node)
  | some data =>
    if !valid chunkAddr data then (.error .invalidChunk,node)
    else if !a.credited then (.error .accounting,node)
    else
      let r := onRetrieved a rootAddr index link node.ci
      match r.1 with
      | .error e => (.error e,{ node with ci := r.2 })
      | .ok () =>
        if a.put then (.ok (),{ node with ci := r.2, held := node.held.insert chunkAddr data })
        else (.error .store,{ node with ci := r.2 })

/-- The retrievals of one call. A retrieval that takes long goes on beside the next ones; the call succeeds when one
of them does. -/
def attempts (node : Node) (rootAddr chunkAddr : Address) (index : Int64) :
    List (Address × Attempt) → Except Fault Unit × Node
  | [] => (.error .notFound,node)
  | (link,a) :: rest =>
    match retrieveChunk valid node link rootAddr chunkAddr index a with
    | (.error .panicked,node') => (.error .panicked,node')
    | (.error _,node') => attempts node' rootAddr chunkAddr index rest
    | (.ok (),node') =>
      match attempts node' rootAddr chunkAddr index rest with
      | (.error .panicked,node'') => (.error .panicked,node'')
      | (_,node'') => (.ok (),node'')

structure Peer where
  address : Address
  full : Bool

structure RequestChunk where
  targetAddr : Address
  rootAddr : Address
  chunkAddr : Address
  bit : Int64

/-- How the steps of serving end: writing the delivery, debiting, and the state store. -/
structure Served where
  written : Bool
  debited : Bool
  kept : Bool

def serve (node : Node) (p : Peer) (req : RequestChunk) (out : Served) : Except Fault Unit × Node :=
  if !out.written then (.error .unavailable,node)
  else if !out.debited then (.error .accounting,node)
  else if !p.full then (.ok (),node)
  else
    let r := reported out.kept (onTransferred req.rootAddr req.bit p.address node.ci)
    (r.1,{ node with ci := r.2 })

/-- A request for a chunk that is not there is passed on to the target that it names. -/
def handler (node : Node) (p : Peer) (req : RequestChunk) (tries : List Attempt) (out : Served) :
    Except Fault Unit × Node :=
  match node.held.lookup req.chunkAddr with
  | some _ => serve node p req out
  | none =>
    if node.ci.addr = req.targetAddr then (.error .notFound,node)
    else if !node.relay then (.error .notFound,node)
    else
      match attempts valid node req.rootAddr req.chunkAddr req.bit (tries.map (fun a => (req.targetAddr,a))) with
      | (.error e,node') => (.error e,node')
      | (.ok (),node') => serve node' p req out

end

/-- The vectors that are put bit by bit have no byte too many. -/
structure SizedAll (cs : Chunkstore) : Prop where
  vector : ∀ t, t ≠ .discover → ∀ r o e, vectorAt (cs.vectors t) r o = some e → Sized e.bit

variable {bv : BitVector}

theorem sized_of_keeps {bv' : BitVector} (sized : Sized bv) (same : bv'.len = bv.len ∧ bv'.b.length = bv.b.length) :
    Sized bv' := sized.same same.1 same.2

variable {l i : Int}

theorem newFromBytes_len {b : Bytes} (made : BitVector.newFromBytes b l = .ok bv) : bv.len = l := by
  unfold BitVector.newFromBytes at made
  split at made
  · cases made
  split at made
  · cases made
  · cases made
    rfl

theorem new_len (made : BitVector.new l = .ok bv) : bv.len = l := by
  simp only [BitVector.new] at made
  split at made
  · split at made
    · cases made
    · exact newFromBytes_len made
  · split at made
    · cases made
    · exact newFromBytes_len made

theorem new_sized (made : BitVector.new l = .ok bv) : Sized bv := by
  have positive : 0 < l := new_len made ▸ (Restart.new_loads made).1
  rw [new_eq positive,Except.ok.injEq] at made
  subst made
  exact ⟨positive,List.length_replicate⟩

theorem put_bit_eq {t : ChunkType} (bits : t ≠ .discover) (cs : Chunkstore) (root overlay : Address) (i len : Int) :
    cs.put 0 t root [⟨overlay,i,len,[]⟩] =
      match putBit (cs.vectors t) root overlay i len with
      | .ok data => (.ok (),data.elim cs (cs.store t root overlay))
      | .error e => (.error e,cs) := by
  have new : cs.newVector 0 t root ⟨overlay,i,len,[]⟩ = putBit (cs.vectors t) root overlay i len :=
    newVector_bits bits cs 0
  rw [Chunkstore.put,Chunkstore.putOne_eq,new]
  cases putBit (cs.vectors t) root overlay i len with
  | ok data => rfl
  | error e => cases e <;> rfl

theorem updateService_eq (root : Address) (i len : Int) (overlay : Address) (ci : ChunkInfo) :
    updateService root i len overlay ci =
      match putBit ci.chunkStore.service root overlay i len with
      | .ok data => (.ok (),{ ci with chunkStore := data.elim ci.chunkStore (ci.chunkStore.store .service root overlay) })
      | .error e => (.error e,ci) := by
  rw [updateService,put_bit_eq (by decide)]
  simp only [Chunkstore.vectors]
  cases putBit ci.chunkStore.service root overlay i len <;> rfl

theorem sized_put {now : Int} {t : ChunkType} {root : Address} {providers : List Provider} {cs : Chunkstore}
    (sized : SizedAll cs) : SizedAll (cs.put now t root providers).2 := by
  refine Chunkstore.put_rule (fun cs p data sized made => ⟨fun u bits r o e found => ?_⟩) providers sized
  rw [Chunkstore.vectorAt_store] at found
  split at found
  · next here =>
    cases found
    rw [here.1] at bits
    rw [newVector_bits bits] at made
    exact (putBit_rule (fun _ => new_sized)
      (fun _ _ _ _ sized copied => sized_of_keeps sized (Restart.setBytes_keeps copied))
      (fun _ _ sized set => sized_of_keeps sized (Restart.set_keeps set)) (sized.vector t bits root p.overlay) made).1
  · exact sized.vector u bits r o e found

theorem sized_run (ops : List Op) : SizedAll (({} : Chunkstore).run ops) := by
  have step : ∀ (op : Op) {cs : Chunkstore}, SizedAll cs → SizedAll (cs.apply op) := by
    intro op cs sized
    cases op with
    | put now t root providers => exact sized_put sized
    | remove t root overlay =>
      refine ⟨fun u bits r o e found => ?_⟩
      rw [Chunkstore.apply,Chunkstore.vectorAt_remove] at found
      split at found
      · cases found
      · exact sized.vector u bits r o e found
    | removeAll t root =>
      refine ⟨fun u bits r o e found => ?_⟩
      rw [Chunkstore.apply,Chunkstore.vectorAt_removeAll] at found
      split at found
      · cases found
      · exact sized.vector u bits r o e found
  have all : ∀ (ops : List Op) {cs : Chunkstore}, SizedAll cs → SizedAll (cs.run ops) := by
    intro ops
    induction ops with
    | nil => exact fun sized => sized
    | cons op ops ih => exact fun sized => ih (step op sized)
  refine all ops ?_
  refine ⟨fun t _ r o e found => ?_⟩
  cases t <;> cases found

theorem sized_updateService {ci : ChunkInfo} (sized : SizedAll ci.chunkStore) (root : Address) (i len : Int)
    (overlay : Address) : SizedAll (updateService root i len overlay ci).2.chunkStore := sized_put sized

theorem reported_ci (kept : Bool) (r : Downloads.Result) : (reported kept r).2 = r.2 := by
  unfold reported
  split
  · rfl
  · rfl
  · split <;> rfl

variable {node : Node}

section
variable (valid : Address → Bytes → Bool)

theorem sized_onRetrieved (a : Attempt) (root : Address) (index : Int64) (overlay : Address) {ci : ChunkInfo}
    (sized : SizedAll ci.chunkStore) : SizedAll (onRetrieved a root index overlay ci).2.chunkStore := by
  simp only [onRetrieved]
  split
  · rw [reported_ci]
    exact sized_updateService sized ..
  · rw [reported_ci,reported_ci]
    simp only [updateSource]
    split
    · exact sized_updateService sized ..
    · exact sized_put (sized_updateService sized ..)

variable (sized : SizedAll node.ci.chunkStore)
include sized

theorem sized_retrieveChunk (link root chunk : Address) (index : Int64) (a : Attempt) :
    SizedAll (retrieveChunk valid node link root chunk index a).2.ci.chunkStore := by
  have next := sized_onRetrieved a root index link sized
  simp only [retrieveChunk]
  split
  · exact sized
  split
  · exact sized
  split
  · exact sized
  split
  · exact next
  · split
    · exact next
    · exact next

theorem sized_attempts (root chunk : Address) (index : Int64) (tries : List (Address × Attempt)) :
    SizedAll (attempts valid node root chunk index tries).2.ci.chunkStore := by
  induction tries generalizing node with
  | nil => exact sized
  | cons try_ tries ih =>
    obtain ⟨link,a⟩ := try_
    have next := sized_retrieveChunk valid sized link root chunk index a
    have rest := ih next
    cases run : retrieveChunk valid node link root chunk index a with
    | mk r node' =>
      rw [run] at next rest
      cases r with
      | error e => cases e <;> simp only [attempts,run] <;> assumption
      | ok u =>
        simp only [attempts,run]
        cases more : attempts valid node' root chunk index tries with
        | mk r' node'' =>
          rw [more] at rest
          cases r' with
          | ok u => exact rest
          | error e => cases e <;> exact rest

theorem sized_serve {p : Peer} {req : RequestChunk} {out : Served} :
    SizedAll (serve node p req out).2.ci.chunkStore := by
  simp only [serve]
  split
  · exact sized
  split
  · exact sized
  split
  · exact sized
  · rw [reported_ci]
    exact sized_updateService sized ..

theorem sized_handler {p : Peer} {req : RequestChunk} {tries : List Attempt} (out : Served) :
    SizedAll (handler valid node p req tries out).2.ci.chunkStore := by
  have next := sized_attempts valid sized req.rootAddr req.chunkAddr req.bit (tries.map (fun a => (req.targetAddr,a)))
  simp only [handler]
  split
  · exact sized_serve sized
  split
  · exact sized
  split
  · exact sized
  split
  · next run =>
    rw [run] at next
    exact next
  · next run =>
    rw [run] at next
    exact sized_serve next

end

theorem toInt_succ (index : Int64) :
    (index + 1).toInt = if index.toInt = 2 ^ 63 - 1 then -2 ^ 63 else index.toInt + 1 := by
  have low := index.le_toInt
  have high := index.toInt_lt
  rw [Int64.toInt_add,Int64.toInt_one]
  split
  · next top =>
    rw [top]
    decide
  · exact Int.bmod_eq_of_le (by omega) (by omega)

theorem get_outside (outside : ¬(-8 < i ∧ i < 8 * bv.b.length)) : bv.get i = .error .panicked := by
  by_cases nonneg : 0 ≤ i
  · obtain ⟨n,rfl⟩ := Int.eq_ofNat_of_zero_le nonneg
    exact get_beyond (by omega)
  obtain ⟨n,rfl⟩ : ∃ n : Nat, i = -(n : Int) := ⟨i.natAbs,by omega⟩
  have left : (-(n : Int)).tdiv 8 < 0 := by
    rw [Int.neg_tdiv,tdiv_eight]
    omega
  simp only [BitVector.get,left,if_true]

section
variable (some : bv.b ≠ [])
include some

theorem get_before (low : -8 < i) (high : i < 0) : bv.get i = .ok false := by
  obtain ⟨n,rfl⟩ : ∃ n : Nat, i = -(n : Int) := ⟨i.natAbs,by omega⟩
  have zero : (-(n : Int)).tdiv 8 = 0 := by
    rw [Int.neg_tdiv,tdiv_eight]
    omega
  have none : mask (-(n : Int)) = 0 := if_pos high
  obtain ⟨x,rest,is⟩ := List.exists_cons_of_ne_nil some
  simp only [BitVector.get,zero,none,is]
  simp

theorem set_before (low : -8 < i) (high : i < 0) :
    ∃ bv', bv.set i true = .ok bv' ∧ bv'.len = bv.len ∧ ∀ j, bitAt bv'.b j = bitAt bv.b j := by
  have none : mask i = 0 := if_pos high
  refine ⟨{ bv with b := bv.b.modify (i.tdiv 8).toNat (· ^^^ mask i) },?_,rfl,?_⟩
  · rw [BitVector.set,get_before some low high]
    rfl
  intro j
  have same : bv.b.modify (i.tdiv 8).toNat (· ^^^ mask i) = bv.b := by
    rw [none]
    simp only [UInt8.xor_zero]
    exact List.modify_id ..
  simp only [same]

theorem get_ok (inside : -8 < i ∧ i < 8 * bv.b.length) : ∃ v, bv.get i = .ok v := by
  by_cases nonneg : 0 ≤ i
  · obtain ⟨n,rfl⟩ := Int.eq_ofNat_of_zero_le nonneg
    exact ⟨_,get_inside (by omega)⟩
  · exact ⟨false,get_before some inside.1 (by omega)⟩

theorem set_ok (inside : -8 < i ∧ i < 8 * bv.b.length) : ∃ bv', bv.set i true = .ok bv' ∧ bv'.len = bv.len := by
  by_cases nonneg : 0 ≤ i
  · obtain ⟨n,rfl⟩ := Int.eq_ofNat_of_zero_le nonneg
    obtain ⟨bv',set,len,-⟩ := set_inside (show n < 8 * bv.b.length by omega)
    exact ⟨bv',set,len⟩
  · obtain ⟨bv',set,len,-⟩ := set_before some inside.1 (by omega)
    exact ⟨bv',set,len⟩

end

/-- A vector of no length: an error, or a panic where its bytes would be negative in number. -/
theorem new_nonpos (nonpos : l ≤ 0) :
    BitVector.new l = if -16 < l ∧ l ≠ -8 then .error .invalidLength else .error .panicked := by
  obtain ⟨n,rfl⟩ : ∃ n : Nat, l = -(n : Int) := ⟨l.natAbs,by omega⟩
  have length : (if (-(n : Int)).tmod 8 = 0 ∧ -(n : Int) ≠ 0 then (-(n : Int)).tdiv 8 else (-(n : Int)).tdiv 8 + 1) =
      if n % 8 = 0 ∧ n ≠ 0 then -((n / 8 : Nat) : Int) else -((n / 8 : Nat) : Int) + 1 := by
    rw [Int.neg_tmod,Int.neg_tdiv,tdiv_eight,Int.tmod_eq_emod_of_nonneg (by omega)]
    split <;> omega
  simp only [BitVector.new,length,BitVector.newFromBytes,nonpos,if_true]
  split <;> split <;> split <;> first | rfl | omega

/-- The indexes that a vector can take: those of a longer vector that is still not longer than the file, those that its
bytes hold and the few before them; and without a vector those that give no length. -/
def Admits (count : Nat) (index : Int64) : Option Entry → Prop
  | none =>
    if 0 < (index + 1).toInt then (index + 1).toInt ≤ count else -16 < (index + 1).toInt ∧ (index + 1).toInt ≠ -8
  | some e =>
    if e.bit.len < (index + 1).toInt then (index + 1).toInt ≤ count
    else -8 < index.toInt ∧ index.toInt < 8 * e.bit.b.length

/-- No panic, and no new vector longer than the file. -/
def Bounded (count : Nat) (before : Option Entry) : Except Err (Option Entry) → Prop
  | .ok none => True
  | .ok (some e) => (∃ e₀, before = some e₀ ∧ e.bit.len = e₀.bit.len) ∨ e.bit.len ≤ count
  | .error e => e ≠ .panicked

def empty (l : Int) : BitVector := ⟨l,List.replicate ((l.toNat + 7) / 8) 0⟩

theorem new_empty (positive : 0 < l) : BitVector.new l = .ok (empty l) := new_eq positive

theorem length_empty (l : Int) : (empty l).b.length = (l.toNat + 7) / 8 := List.length_replicate

theorem putBit_longer {m : Vectors} {r o : Address} {index : Int64} (positive : 0 < (index + 1).toInt)
    (shorter : ∀ e, vectorAt m r o = some e → Sized e.bit ∧ e.bit.len < (index + 1).toInt) :
    ∃ e, putBit m r o index.toInt (index + 1).toInt = .ok (some e) ∧ e.bit.len = (index + 1).toInt := by
  have next := toInt_succ index
  have last : index.toInt = (index + 1).toInt - 1 := by
    split at next <;> omega
  generalize (index + 1).toInt = len at positive shorter last
  obtain ⟨n,is⟩ := Int.eq_ofNat_of_zero_le (show 0 ≤ index.toInt by omega)
  rw [is]
  unfold putBit
  cases found : vectorAt m r o with
  | none =>
    obtain ⟨bv,set,setLen,-⟩ := set_inside (show n < 8 * (empty len).b.length by rw [length_empty]; omega)
    exact ⟨⟨bv,0⟩,by simp only [new_empty positive,bind,Except.bind,set]; rfl,setLen⟩
  | some e =>
    obtain ⟨sized,less⟩ := shorter e found
    obtain ⟨copy,copied,copyLen,copyLength,-⟩ :=
      setBytes_fits (show e.bit.b.length ≤ (empty len).b.length by rw [length_empty,sized.2]; omega)
    obtain ⟨bv,set,setLen,-⟩ := set_inside (show n < 8 * copy.b.length by rw [copyLength,length_empty]; omega)
    refine ⟨⟨bv,0⟩,?_,setLen.trans copyLen⟩
    simp only [less,if_true,new_empty positive,bind,Except.bind,copied,set]
    rfl

theorem putBit_bounded_iff {m : Vectors} {r o : Address} {count : Nat} {index : Int64}
    (sized : ∀ e, vectorAt m r o = some e → Sized e.bit) :
    Bounded count (vectorAt m r o) (putBit m r o index.toInt (index + 1).toInt) ↔ Admits count index (vectorAt m r o) := by
  cases found : vectorAt m r o with
  | none =>
    simp only [Admits]
    split
    · next positive =>
      obtain ⟨e,put,len⟩ := putBit_longer (m := m) (r := r) (o := o) positive (by simp [found])
      rw [put]
      simp [Bounded,len]
    next nonpos =>
    have made := new_nonpos (Int.not_lt.mp nonpos)
    simp only [putBit,found,made]
    by_cases ok : -16 < (index + 1).toInt ∧ (index + 1).toInt ≠ -8
    · rw [if_pos ok]
      exact iff_of_true (show Err.invalidLength ≠ Err.panicked by decide) ok
    · rw [if_neg ok]
      exact iff_of_false (fun bounded => bounded rfl) ok
  | some e =>
    have fits := sized e found
    have room : e.bit.b ≠ [] := by
      intro none
      have len := fits.2
      have positive := fits.1
      rw [none] at len
      simp at len
      omega
    simp only [Admits]
    split
    · next longer =>
      obtain ⟨e',put,len⟩ := putBit_longer
        (show 0 < (index + 1).toInt by have := fits.1; omega)
        (by intro e₁ found'; rw [found] at found'; cases found'; exact ⟨fits,longer⟩)
      rw [put]
      simp only [Bounded,Option.some.injEq,len]
      constructor
      · rintro (⟨e₀,rfl,same⟩ | bound)
        · omega
        · exact bound
      · exact .inr
    next shorter =>
    simp only [putBit,found,if_neg shorter]
    by_cases inside : -8 < index.toInt ∧ index.toInt < 8 * e.bit.b.length
    · refine iff_of_true ?_ inside
      obtain ⟨v,read⟩ : ∃ v, e.bit.get index.toInt = .ok v := get_ok room inside
      rw [read]
      cases v with
      | true => trivial
      | false =>
        obtain ⟨bv,set,len⟩ := set_ok room inside
        simp only [bind,Except.bind,set]
        exact .inl ⟨e,rfl,len⟩
    · rw [get_outside inside]
      exact iff_of_false (fun bounded => bounded rfl) inside

section
variable (valid : Address → Bytes → Bool)

structure Arrival where
  peer : Peer
  req : RequestChunk
  tries : List Attempt
  out : Served

def Node.receive (node : Node) (a : Arrival) : Node := (handler valid node a.peer a.req a.tries a.out).2

def Node.receiveAll (node : Node) (arrivals : List Arrival) : Node := arrivals.foldl (Node.receive valid) node

def Node.vector (node : Node) (a : Arrival) : Option Entry :=
  vectorAt node.ci.chunkStore.service a.req.rootAddr a.peer.address

/-- The chunk is sent, and the peer is one whose chunks are recorded. -/
def Node.Records (node : Node) (a : Arrival) : Prop :=
  (node.held.lookup a.req.chunkAddr).isSome ∧ a.out.written ∧ a.out.debited ∧ a.peer.full

/-- The request is answered or fails with an error, and a vector that is made for it is not longer than the file. -/
def Node.Safe (count : Address → Nat) (node : Node) (a : Arrival) : Prop :=
  (handler valid node a.peer a.req a.tries a.out).1 ≠ .error .panicked ∧
    ∀ e, (node.receive valid a).vector a = some e →
      (∃ e₀, node.vector a = some e₀ ∧ e.bit.len = e₀.bit.len) ∨ e.bit.len ≤ count a.req.rootAddr

theorem handler_held {a : Arrival} (held : (node.held.lookup a.req.chunkAddr).isSome) :
    handler valid node a.peer a.req a.tries a.out = serve node a.peer a.req a.out := by
  obtain ⟨data,found⟩ := Option.isSome_iff_exists.mp held
  simp only [handler,found]

theorem serve_unrecorded {p : Peer} {req : RequestChunk} {out : Served} (not : ¬(out.written ∧ out.debited ∧ p.full)) :
    (serve node p req out).1 ≠ .error .panicked ∧ (serve node p req out).2 = node := by
  simp only [serve]
  split
  · exact ⟨by simp,rfl⟩
  next written =>
  split
  · exact ⟨by simp,rfl⟩
  next debited =>
  split
  · exact ⟨by simp,rfl⟩
  · next full => exact absurd ⟨by simpa using written,by simpa using debited,by simpa using full⟩ not

theorem serve_recorded {node : Node} {a : Arrival} (records : a.out.written ∧ a.out.debited ∧ a.peer.full) :
    let put := putBit node.ci.chunkStore.service a.req.rootAddr a.peer.address a.req.bit.toInt (a.req.bit + 1).toInt
    ((serve node a.peer a.req a.out).1 = .error .panicked ↔ put = .error .panicked) ∧
      (serve node a.peer a.req a.out).2.vector a =
        match put with
        | .ok (some e) => some e
        | _ => node.vector a := by
  obtain ⟨written,debited,full⟩ := records
  have all : serve node a.peer a.req a.out =
      ((reported a.out.kept (onTransferred a.req.rootAddr a.req.bit a.peer.address node.ci)).1,
        { node with ci := (onTransferred a.req.rootAddr a.req.bit a.peer.address node.ci).2 }) := by
    simp [serve,written,debited,full,reported_ci]
  rw [all,onTransferred,updateService_eq]
  cases putBit node.ci.chunkStore.service a.req.rootAddr a.peer.address a.req.bit.toInt (a.req.bit + 1).toInt with
  | error e =>
    cases e <;> simp [reported]
  | ok data =>
    constructor
    · cases a.out.kept <;> simp [reported]
    cases data with
    | none => rfl
    | some e =>
      have stored := Chunkstore.vectorAt_store node.ci.chunkStore .service .service a.req.rootAddr a.peer.address
        a.req.rootAddr a.peer.address e
      exact stored.trans (if_pos ⟨rfl,rfl,rfl⟩)

theorem safe_iff (count : Address → Nat) (sized : SizedAll node.ci.chunkStore) (a : Arrival)
    (held : (node.held.lookup a.req.chunkAddr).isSome) :
    node.Safe valid count a ↔ (node.Records a → Admits (count a.req.rootAddr) a.req.bit (node.vector a)) := by
  have after : node.receive valid a = (serve node a.peer a.req a.out).2 := congrArg Prod.snd (handler_held valid held)
  simp only [Node.Safe,after,handler_held valid held]
  by_cases records : a.out.written ∧ a.out.debited ∧ a.peer.full
  · obtain ⟨panics,vector⟩ := serve_recorded records
    have bounded : Bounded (count a.req.rootAddr) (node.vector a) (putBit node.ci.chunkStore.service a.req.rootAddr
        a.peer.address a.req.bit.toInt (a.req.bit + 1).toInt) ↔ Admits _ a.req.bit (node.vector a) :=
      putBit_bounded_iff (sized.vector .service (by decide) _ _)
    have all : node.Records a := ⟨held,records⟩
    simp only [all,true_implies]
    rw [← bounded,vector,ne_eq,panics]
    -- without a new vector the old one is there with its length
    have same : ∀ e, node.vector a = some e →
        (∃ e₀, node.vector a = some e₀ ∧ e.bit.len = e₀.bit.len) ∨ e.bit.len ≤ count a.req.rootAddr :=
      fun e found => .inl ⟨e,found,rfl⟩
    cases putBit node.ci.chunkStore.service a.req.rootAddr a.peer.address a.req.bit.toInt (a.req.bit + 1).toInt with
    | error e => simpa [Bounded] using fun _ => same
    | ok data =>
      cases data with
      | none => simpa [Bounded] using same
      | some e => simp [Bounded]
  obtain ⟨fine,kept⟩ := serve_unrecorded records
  refine iff_of_true ⟨fine,fun e found => ?_⟩ (fun all => absurd all.2 records)
  rw [kept] at found
  exact .inl ⟨e,found,rfl⟩

theorem sized_receiveAll (sized : SizedAll node.ci.chunkStore) {arrivals : List Arrival} :
    SizedAll (node.receiveAll valid arrivals).ci.chunkStore := by
  induction arrivals generalizing node with
  | nil => exact sized
  | cons a arrivals ih => exact ih (sized_handler valid sized a.out)

end

/-- In a sequence of requests, from any vectors that the calls of the chunk store can have left, all requests for
chunks that are there are safe exactly when the index of each that is recorded is one that the vector can take. -/
theorem requests_safe_iff (valid : Address → Bytes → Bool) (count : Address → Nat) (addr : Address) (ops : List Op)
    (held : Map Address Bytes) (relay : Bool) (arrivals : List Arrival) :
    let start : Node := ⟨⟨addr,({} : Chunkstore).run ops⟩,held,relay⟩
    (∀ n a, arrivals[n]? = some a →
        ((start.receiveAll valid (arrivals.take n)).held.lookup a.req.chunkAddr).isSome →
        (start.receiveAll valid (arrivals.take n)).Safe valid count a) ↔
      ∀ n a, arrivals[n]? = some a → (start.receiveAll valid (arrivals.take n)).Records a →
        Admits (count a.req.rootAddr) a.req.bit ((start.receiveAll valid (arrivals.take n)).vector a) := by
  intro start
  have sized : ∀ n, SizedAll (start.receiveAll valid (arrivals.take n)).ci.chunkStore :=
    fun n => sized_receiveAll valid (sized_run ops)
  constructor
  · intro safe n a here records
    exact (safe_iff valid count (sized n) a records.1).mp (safe n a here records.1) records
  · intro admits n a here there
    exact (safe_iff valid count (sized n) a there).mpr (admits n a here)

def negative : Arrival where
  peer := ⟨[2],true⟩
  req := ⟨[1],[7],[8],-9⟩
  tries := []
  out := ⟨true,true,true⟩

/-- The vector would have a negative number of bytes: the node panics. -/
theorem negative_panics :
    ¬Node.Safe (fun _ _ => true) (fun _ => 1) ⟨⟨[1],{}⟩,(∅ : Map Address Bytes).insert [8] [0],true⟩ negative := by
  intro safe
  exact safe.1 (by decide)

end FavorX.Retrieval

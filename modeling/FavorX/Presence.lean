import FavorX.Shed

/-!
The stores that the local store keeps beside the database: the presence vectors
of the chunk store, which say which chunks of a file a node is known to have,
and the records of the file store. Both live in memory and are mirrored in the
state store.
-/
namespace FavorX.Presence
open FiniteMaps Shed

/-- A bit vector: its length in bits and the bytes that hold them. -/
structure BitVector where
  len : Int
  b : Bytes
  deriving DecidableEq

/-- The bit of a byte that an index selects. Go shifts by the remainder of the
    index as an unsigned number, which for negative indexes shifts the bit out. -/
def mask (i : Int) : UInt8 := if i < 0 then 0 else 1 <<< UInt8.ofNat (i.toNat % 8)

def BitVector.newFromBytes (b : Bytes) (l : Int) : Except Err BitVector :=
  if l ≤ 0 then .error .invalidLength
  else if b.length * 8 < l then .error .invalidLength
  else .ok ⟨l,b⟩

def BitVector.new (l : Int) : Except Err BitVector :=
  let length := if l.tmod 8 = 0 ∧ l ≠ 0 then l.tdiv 8 else l.tdiv 8 + 1
  -- make panics on a negative length
  if length < 0 then .error .panicked
  else newFromBytes (List.replicate length.toNat 0) l

def BitVector.get (bv : BitVector) (i : Int) : Except Err Bool :=
  if i.tdiv 8 < 0 then .error .panicked
  else match bv.b[(i.tdiv 8).toNat]? with
    | none => .error .panicked
    | some x => .ok (x &&& mask i != 0)

def BitVector.set (bv : BitVector) (i : Int) (v : Bool) : Except Err BitVector := do
  let cv ← bv.get i
  if cv = v then pure bv
  else pure { bv with b := bv.b.modify (i.tdiv 8).toNat (· ^^^ mask i) }

def BitVector.setBytes (bv : BitVector) (bs : Bytes) : Except Err BitVector :=
  if bv.b.length < bs.length then .error .invalidLength
  else (List.range (bs.length * 8)).foldlM (fun bv (i : Nat) =>
    match bs[i / 8]? with
    | some x => if x &&& mask i != 0 then bv.set i true else pure bv
    | none => pure bv) bv

/-- Whether all bits are set. Of the last byte only the bits below the length
    count, when the length does not fill it. -/
def BitVector.equals (bv : BitVector) : Bool :=
  let l := bv.b.length
  let length := bv.len.tmod 8
  (List.range l).all (fun i =>
    if length ≠ 0 ∧ i = l - 1 then
      (List.range length.toNat).all (fun (k : Nat) => bv.b.getD i 0 &&& mask k != 0)
    else bv.b.getD i 0 == 0xff)

inductive ChunkType
  | discover
  | service
  | source
  deriving DecidableEq

structure Provider where
  overlay : Address
  bit : Int
  len : Int
  b : Bytes

/-- A vector with the time it was first put, which only `discover` records. -/
structure Entry where
  bit : BitVector
  time : Int := 0
  deriving DecidableEq

abbrev Vectors := Map Address (Map Address Entry)

/-- The chunk store: the three kinds of vectors, the roots that are being
    searched for, and what the state store holds. -/
structure Chunkstore where
  discover : Vectors := ∅
  service : Vectors := ∅
  source : Vectors := ∅
  finder : Map Address Unit := ∅
  stateStore : Map (ChunkType × Address × Address) BitVector := ∅

def Chunkstore.vectors (cs : Chunkstore) : ChunkType → Vectors
  | .discover => cs.discover
  | .service => cs.service
  | .source => cs.source

def Chunkstore.setVectors (cs : Chunkstore) (m : Vectors) : ChunkType → Chunkstore
  | .discover => { cs with discover := m }
  | .service => { cs with service := m }
  | .source => { cs with source := m }

def vectorAt (m : Vectors) (rootCid overlay : Address) : Option Entry := ((m.lookup rootCid).getD ∅).lookup overlay

def putDiscover (m : Vectors) (now : Int) (rootCid overlay : Address) (b : Bytes) (len : Int) : Except Err Entry :=
  match vectorAt m rootCid overlay with
  | some data => do
    if data.bit.len < len then
      let bv ← BitVector.newFromBytes b len
      let bv ← bv.setBytes data.bit.b
      pure { data with bit := bv }
    else
      let bv ← data.bit.setBytes b
      pure { data with bit := bv }
  | none => do
    let bv ← BitVector.newFromBytes b len
    pure ⟨bv,now⟩

/-- What a put of one bit stores, or none when the bit is set already. The
    vectors of `service` and of `source` are put alike. -/
def putBit (m : Vectors) (rootCid overlay : Address) (bit len : Int) : Except Err (Option Entry) :=
  match vectorAt m rootCid overlay with
  | some data => do
    if data.bit.len < len then
      let newbv ← BitVector.new len
      let newbv ← newbv.setBytes data.bit.b
      let newbv ← newbv.set bit true
      pure (some ⟨newbv,0⟩)
    else if ← data.bit.get bit then pure none
    else
      let bv ← data.bit.set bit true
      pure (some ⟨bv,0⟩)
  | none => do
    let newbv ← BitVector.new len
    let newbv ← newbv.set bit true
    pure (some ⟨newbv,0⟩)

def putChunkService (m : Vectors) (rootCid overlay : Address) (bit len : Int) : Except Err (Option Entry) :=
  putBit m rootCid overlay bit len

def putChunkSource (m : Vectors) (rootCid source : Address) (bit len : Int) : Except Err (Option Entry) :=
  putBit m rootCid source bit len

def Chunkstore.putOne (cs : Chunkstore) (now : Int) (t : ChunkType) (reference : Address) (p : Provider) :
    Except Err Chunkstore := do
  let data ← match t with
    | .discover => (putDiscover cs.discover now reference p.overlay p.b p.len).map some
    | .service => putChunkService cs.service reference p.overlay p.bit p.len
    | .source => putChunkSource cs.source reference p.overlay p.bit p.len
  match data with
  | none => pure cs
  | some data =>
    let v := ((cs.vectors t).lookup reference).getD ∅
    pure { cs.setVectors ((cs.vectors t).insert reference (v.insert p.overlay data)) t with
      stateStore := cs.stateStore.insert (t,reference,p.overlay) data.bit }

/-- What new vectors have, and setting bits keeps, the vector that is put has if the stored one has it. -/
theorem putBit_rule {P : BitVector → Prop} {m : Vectors} {r o : Address} {bit len : Int} {e : Entry}
    (new : ∀ bv, BitVector.new len = .ok bv → P bv)
    (copy : ∀ data bv bv', vectorAt m r o = some data → P bv → bv.setBytes data.bit.b = .ok bv' → P bv')
    (set : ∀ bv bv', P bv → bv.set bit true = .ok bv' → P bv') (known : ∀ e, vectorAt m r o = some e → P e.bit)
    (put : putBit m r o bit len = .ok (some e)) : P e.bit ∧ e.time = 0 := by
  unfold putBit at put
  split at put
  · next data found =>
    split at put
    · obtain ⟨bv,made,put⟩ := bind_ok put
      obtain ⟨bv',copied,put⟩ := bind_ok put
      obtain ⟨bv'',done,put⟩ := bind_ok put
      cases put
      exact ⟨set _ _ (copy data _ _ found (new _ made) copied) done,rfl⟩
    obtain ⟨present,_,put⟩ := bind_ok put
    cases present with
    | true => cases put
    | false =>
      obtain ⟨bv,done,put⟩ := bind_ok put
      cases put
      exact ⟨set _ _ (known data found) done,rfl⟩
  obtain ⟨bv,made,put⟩ := bind_ok put
  obtain ⟨bv',done,put⟩ := bind_ok put
  cases put
  exact ⟨set _ _ (new _ made) done,rfl⟩

/-- Put the vectors of all providers. An error does not stop the loop, and the
    error of the last provider is returned; a panic stops it. -/
def Chunkstore.put (cs : Chunkstore) (now : Int) (t : ChunkType) (reference : Address) :
    List Provider → Except Err Unit × Chunkstore
  | [] => (.ok (),cs)
  | p :: providers =>
    match cs.putOne now t reference p with
    | .ok cs' => put cs' now t reference providers
    | .error .panicked => (.error .panicked,cs)
    | .error e => if providers.isEmpty then (.error e,cs) else put cs now t reference providers

/-- The vectors known for a root, none being `storage.ErrNotFound`. -/
def Chunkstore.get (cs : Chunkstore) (t : ChunkType) (reference : Address) : Option (Map Address Entry) :=
  (cs.vectors t).lookup reference

/-- Forget the vectors of a root, here and in the state store. -/
def Chunkstore.removeAll (cs : Chunkstore) (t : ChunkType) (reference : Address) : Chunkstore :=
  match (cs.vectors t).lookup reference with
  | none => cs
  | some v =>
    { cs.setVectors ((cs.vectors t).erase reference) t with
      stateStore := v.foldl (fun m o _ => m.erase (t,reference,o)) (fun _ _ _ _ _ => Finmap.erase_erase) cs.stateStore }

/-- Forget the vector of one overlay, here and in the state store. The root
    stays known even when this was its last vector. -/
def Chunkstore.remove (cs : Chunkstore) (t : ChunkType) (reference overlay : Address) : Chunkstore :=
  match vectorAt (cs.vectors t) reference overlay with
  | none => cs
  | some _ =>
    let v := ((cs.vectors t).lookup reference).getD ∅
    { cs.setVectors ((cs.vectors t).insert reference (v.erase overlay)) t with
      stateStore := cs.stateStore.erase (t,reference,overlay) }

/-- What a query says about a vector. -/
structure Consumer where
  overlay : Address := []
  len : Int := 0
  b : Bytes := []
  time : Int := 0
  deriving DecidableEq

/-- The vector of one overlay. An unknown one is the zero value and no error. -/
def Chunkstore.getByOverlay (cs : Chunkstore) (t : ChunkType) (reference overlay : Address) : Consumer :=
  match vectorAt (cs.vectors t) reference overlay with
  | none => {}
  | some v => ⟨overlay,v.bit.len,v.bit.b,v.time⟩

def Chunkstore.has (cs : Chunkstore) (t : ChunkType) (reference overlay : Address) : Bool :=
  (vectorAt (cs.vectors t) reference overlay).isSome

/-- Whether one of the vectors has a bit, asking them in the given order. -/
def anyHasBit (bit : Int) : List Entry → Except Err Bool
  | [] => .ok false
  | v :: order => do
    if bit < v.bit.len then
      if ← v.bit.get bit then return true
    anyHasBit bit order

/-- What the question for a chunk can return: the vectors of the root are asked
    in some order. -/
def Chunkstore.HasChunk (cs : Chunkstore) (t : ChunkType) (reference : Address) (bit : Int) (r : Except Err Bool) :
    Prop :=
  match (cs.vectors t).lookup reference with
  | none => r = .ok false
  | some s => ∃ order : List (Σ _ : Address, Entry), (order : Multiset _) = s.entries ∧
      anyHasBit bit (order.map Sigma.snd) = r

def Chunkstore.startFinder (cs : Chunkstore) (rootCid : Address) : Chunkstore :=
  { cs with finder := cs.finder.insert rootCid () }

def Chunkstore.cancelFinder (cs : Chunkstore) (rootCid : Address) : Chunkstore :=
  { cs with finder := cs.finder.erase rootCid }

inductive Op
  | put (now : Int) (t : ChunkType) (reference : Address) (providers : List Provider)
  | remove (t : ChunkType) (reference overlay : Address)
  | removeAll (t : ChunkType) (reference : Address)

def Chunkstore.apply (cs : Chunkstore) : Op → Chunkstore
  | .put now t reference providers => (cs.put now t reference providers).2
  | .remove t reference overlay => cs.remove t reference overlay
  | .removeAll t reference => cs.removeAll t reference

def Chunkstore.run (cs : Chunkstore) (ops : List Op) : Chunkstore := ops.foldl Chunkstore.apply cs

/-- What is known about a stored file. -/
structure FileView where
  rootCid : Address
  hash : String
  pinned : Bool
  registered : Bool
  size : Int
  type : String
  name : String
  extension : String
  default : String
  errDefault : String
  mimeType : String
  referenceLink : String
  deriving DecidableEq

structure Filestore where
  files : Map Address FileView := ∅
  stateStore : Map Address FileView := ∅

def Filestore.has (fs : Filestore) (reference : Address) : Bool := (fs.files.lookup reference).isSome

def Filestore.get (fs : Filestore) (reference : Address) : Option FileView := fs.files.lookup reference

def Filestore.put (fs : Filestore) (file : FileView) : Filestore :=
  { files := fs.files.insert file.rootCid file, stateStore := fs.stateStore.insert file.rootCid file }

def Filestore.delete (fs : Filestore) (reference : Address) : Filestore :=
  if fs.has reference then { files := fs.files.erase reference, stateStore := fs.stateStore.erase reference }
  else fs

@[simp] theorem Filestore.get_delete (fs : Filestore) (reference : Address) :
    (fs.delete reference).get reference = none := by
  unfold Filestore.delete
  split
  · exact Finmap.lookup_erase reference fs.files
  · next absent => simpa [Filestore.has,Filestore.get] using absent

theorem Chunkstore.vectors_setVectors (cs : Chunkstore) (m : Vectors) (t u : ChunkType) :
    (cs.setVectors m t).vectors u = if u = t then m else cs.vectors u := by
  cases t <;> cases u <;> rfl

theorem Chunkstore.vectors_stateStore (cs : Chunkstore) (m : Map (ChunkType × Address × Address) BitVector)
    (t : ChunkType) : { cs with stateStore := m }.vectors t = cs.vectors t := by
  cases t <;> rfl

theorem Chunkstore.get_removeAll (cs : Chunkstore) (t u : ChunkType) (reference other : Address) :
    (cs.removeAll t reference).get u other = if u = t ∧ other = reference then none else cs.get u other := by
  unfold Chunkstore.get Chunkstore.removeAll
  split
  · next absent =>
    split
    · next both => rw [both.1,both.2,absent]
    · rfl
  simp only [vectors_stateStore,vectors_setVectors]
  by_cases kind : u = t
  · subst kind
    simp [lookup_erase_eq]
  · simp [kind]

theorem vectorAt_insert (m : Vectors) (reference overlay r o : Address) (data : Entry) :
    vectorAt (m.insert reference (((m.lookup reference).getD ∅).insert overlay data)) r o =
      if r = reference ∧ o = overlay then some data else vectorAt m r o := by
  unfold vectorAt
  by_cases root : r = reference
  · subst root
    simp [lookup_insert_eq]
  · simp [root]

theorem vectorAt_erase (m : Vectors) (reference overlay r o : Address) :
    vectorAt (m.insert reference (((m.lookup reference).getD ∅).erase overlay)) r o =
      if r = reference ∧ o = overlay then none else vectorAt m r o := by
  unfold vectorAt
  by_cases root : r = reference
  · subst root
    simp [lookup_erase_eq]
  · simp [root]

theorem Chunkstore.vectorAt_remove (cs : Chunkstore) (t u : ChunkType) (reference overlay r o : Address) :
    vectorAt ((cs.remove t reference overlay).vectors u) r o =
      if u = t ∧ r = reference ∧ o = overlay then none else vectorAt (cs.vectors u) r o := by
  unfold Chunkstore.remove
  split
  · next absent =>
    split
    · next same => rw [same.1,same.2.1,same.2.2,absent]
    · rfl
  simp only [vectors_stateStore,vectors_setVectors]
  by_cases kind : u = t
  · subst kind
    simp [vectorAt_erase]
  · simp [kind]

theorem Chunkstore.vectorAt_removeAll (cs : Chunkstore) (t u : ChunkType) (reference r o : Address) :
    vectorAt ((cs.removeAll t reference).vectors u) r o =
      if u = t ∧ r = reference then none else vectorAt (cs.vectors u) r o := by
  have found := cs.get_removeAll t u reference r
  unfold Chunkstore.get at found
  unfold vectorAt
  rw [found]
  split <;> simp

/-- The vector that a put stores, or none when nothing is to be stored. -/
def Chunkstore.newVector (cs : Chunkstore) (now : Int) (t : ChunkType) (reference : Address) (p : Provider) :
    Except Err (Option Entry) :=
  match t with
  | .discover => (putDiscover cs.discover now reference p.overlay p.b p.len).map some
  | .service => putChunkService cs.service reference p.overlay p.bit p.len
  | .source => putChunkSource cs.source reference p.overlay p.bit p.len

def Chunkstore.store (cs : Chunkstore) (t : ChunkType) (reference overlay : Address) (data : Entry) : Chunkstore :=
  let v := ((cs.vectors t).lookup reference).getD ∅
  { cs.setVectors ((cs.vectors t).insert reference (v.insert overlay data)) t with
    stateStore := cs.stateStore.insert (t,reference,overlay) data.bit }

variable (cs : Chunkstore)

theorem Chunkstore.putOne_eq (now : Int) (t : ChunkType) (reference : Address) (p : Provider) :
    cs.putOne now t reference p =
      (cs.newVector now t reference p).map (fun data => data.elim cs (cs.store t reference p.overlay)) := by
  have unfolded : cs.putOne now t reference p = (cs.newVector now t reference p >>= fun data =>
      match data with
      | none => pure cs
      | some data => pure (cs.store t reference p.overlay data)) := by
    cases t <;> rfl
  rw [unfolded]
  cases cs.newVector now t reference p with
  | error e => rfl
  | ok data => cases data <;> rfl

variable {cs} in
/-- What every stored vector keeps, a put keeps. -/
theorem Chunkstore.put_rule {P : Chunkstore → Prop} {now : Int} {t : ChunkType} {reference : Address}
    (store : ∀ cs p data, P cs → cs.newVector now t reference p = .ok (some data) → P (cs.store t reference p.overlay data))
    (providers : List Provider) (holds : P cs) : P (cs.put now t reference providers).2 := by
  induction providers generalizing cs with
  | nil => exact holds
  | cons p providers ih =>
    unfold Chunkstore.put
    rw [Chunkstore.putOne_eq]
    cases made : cs.newVector now t reference p with
    | error e =>
      simp only [Except.map]
      split
      · next impossible => cases impossible
      · exact holds
      · split
        · exact holds
        · exact ih holds
    | ok data =>
      cases data with
      | none => exact ih holds
      | some data => exact ih (store cs p data holds made)

@[simp] theorem Chunkstore.stateStore_store (t : ChunkType) (reference overlay : Address) (data : Entry) :
    (cs.store t reference overlay data).stateStore = cs.stateStore.insert (t,reference,overlay) data.bit := rfl

theorem Chunkstore.vectors_store (t u : ChunkType) (reference overlay : Address) (data : Entry) :
    (cs.store t reference overlay data).vectors u = if u = t then
      (cs.vectors t).insert reference ((((cs.vectors t).lookup reference).getD ∅).insert overlay data)
      else cs.vectors u := by
  simp only [Chunkstore.store,vectors_stateStore,vectors_setVectors]

theorem Chunkstore.vectorAt_store (t u : ChunkType) (reference overlay r o : Address) (data : Entry) :
    vectorAt ((cs.store t reference overlay data).vectors u) r o =
      if u = t ∧ r = reference ∧ o = overlay then some data else vectorAt (cs.vectors u) r o := by
  rw [vectors_store]
  by_cases kind : u = t
  · subst kind
    simp [vectorAt_insert]
  · simp [kind]

end FavorX.Presence

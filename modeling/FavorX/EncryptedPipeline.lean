import FavorX.ChunkEncryption

/-!
The pipeline that encrypts. Every chunk is encrypted with a key of its own, and a reference
is the address of a chunk with its key. Every chunk that is stored for a file can be decrypted
with its key to what it was (`encrypted_upload_opens`).
-/
namespace FavorX.EncryptedPipeline
open Shed hiding Err Key
open Localstore hiding gather
open Groups Shapes Joiners ChunkEncryption
open Pipeline (Reference zeroReference chunkSize spanSize branches maxLevel putUint64 Feeder NewChunkFeederWriter)
open TrieWriters (Entry Scheme Takes TakesLeaf leafWrite)

/-- The address of an encrypted chunk and its key. -/
structure EncryptedReference where
  ref : Reference
  key : Key

def EncryptedReference.bytes (r : EncryptedReference) : Bytes := r.ref.1 ++ r.key.1

/-- A chunk that was encrypted: what it was, and what is stored of it. -/
structure Sealed where
  plain : Bytes
  ref : EncryptedReference
  data : Bytes

abbrev EncryptedWriter := TrieWriters.Writer EncryptedReference (List Sealed)

abbrev Fault := TrieWriters.Err ChunkEncryption.Err

section
variable (hash hashFunc : Bytes → Reference) (tape : Nat → Draw)

/-- The short pipeline: encrypt a chunk, hash what that gives and store it. -/
def shortPipeline (data : Bytes) (stored : List Sealed) :
    Except ChunkEncryption.Err (EncryptedReference × List Sealed) := do
  let (key,encryptedSpan,encryptedData) ← EncryptChunk hashFunc (tape stored.length) data
  let c := encryptedSpan ++ encryptedData
  pure (⟨hash c,key⟩,stored ++ [⟨data,⟨hash c,key⟩,c⟩])

def NewHashTrieWriter : EncryptedWriter where
  cursors := fun _ => 0
  buffer := List.replicate ((chunkSize + spanSize) * 9 * 2 / (referenceSize + spanSize))
    ⟨0,⟨zeroReference,⟨List.replicate keyLength 0,List.length_replicate⟩⟩⟩
  full := false
  state := []

/-- Upload a file that comes in several writes: its reference and the chunks stored. -/
def upload (writes : List Bytes) : Except Fault (EncryptedReference × List Sealed) := do
  let write := leafWrite (shortPipeline hash hashFunc tape) EncryptedReference.bytes (branches / 2)
  let sum := TrieWriters.Sum (shortPipeline hash hashFunc tape) EncryptedReference.bytes (branches / 2)
  let (ref,w) ← (do
    let (f,w) ← Feeders.writeAll write writes NewChunkFeederWriter NewHashTrieWriter
    Feeders.Sum write sum f w)
  pure (ref,w.state)

/-- Whatever store has the chunk at its address, the decrypting store over it gives what the
    chunk was. -/
def Sealed.Opens (c : Sealed) : Prop :=
  ∀ {E : Type} (getter : Getter E) (index : Int), getter c.ref.ref.1 index = .ok c.data →
    Get hashFunc getter c.ref.bytes index = .ok c.plain

variable {hashFunc} {stored : List Sealed} {w : EncryptedWriter}

theorem opens_of_decrypts {c : Sealed} (decrypts : decryptChunkData hashFunc c.data c.ref.key = .ok c.plain) :
    c.Opens hashFunc := by
  intro E getter index held
  have addressed : c.ref.ref.1.length = hashSize := c.ref.ref.2
  have sized : c.ref.bytes.length = referenceSize := by
    rw [EncryptedReference.bytes,List.length_append,addressed,c.ref.key.2]
    rfl
  have address : c.ref.bytes.take hashSize = c.ref.ref.1 := List.take_left' addressed
  have key : c.ref.bytes.drop hashSize = c.ref.key.1 := List.drop_left' addressed
  rw [Get,if_neg (by rw [sized]; decide),dif_pos sized,address,held]
  simp only [key]
  exact congrArg (Except.mapError _) decrypts

theorem shortPipeline_opens {n : Nat} {payload : Bytes} (small : n < 2 ^ 64) (fits : payload.length ≤ chunkSize)
    (told : payloadLength n = payload.length) (opens : ∀ c ∈ stored, c.Opens hashFunc) :
    ∃ r stored', shortPipeline hash hashFunc tape (putUint64 n ++ payload) stored = .ok (r,stored') ∧
      ∀ c ∈ stored', c.Opens hashFunc := by
  obtain ⟨span,data,run,back⟩ := decryptChunkData_encrypted small fits told
  refine ⟨_,_,by rw [shortPipeline,run]; rfl,fun c mem => ?_⟩
  rcases List.mem_append.mp mem with mem | mem
  · exact opens c mem
  · rw [List.mem_singleton.mp mem]
    exact opens_of_decrypts back

def unit (h : Nat) : Nat := chunkSize * (branches / 2) ^ h

abbrev Full (h : Nat) : List Nat → Prop := Laid (· = unit h) (fun n => 0 < n ∧ n ≤ unit h)

/-- A reference stands for a number of bytes, and all chunks can be decrypted. The numbers that
    come to a level are full but for the last, and make up some of the file. -/
def scheme (hashFunc : Bytes → Reference) (total : Nat) : Scheme EncryptedReference (List Sealed) Nat where
  branching := branches / 2
  stands := fun e n => e.span = n % 2 ^ 64
  join := List.sum
  kept := fun _ stored => ∀ c ∈ stored, c.Opens hashFunc
  apt := fun l => l.sum ≤ total ∧ (l.length ≤ 1 ∨ ∃ h, Full h l)

theorem spanSum_stands {es : List (Entry EncryptedReference)} {l : List Nat}
    (stand : List.Forall₂ (fun e n => e.span = n % 2 ^ 64) es l) : TrieWriters.spanSum es = l.sum % 2 ^ 64 := by
  have sums : ∀ n, es.foldl (fun sp e => (sp + e.span) % 2 ^ 64) (n % 2 ^ 64) = (n + l.sum) % 2 ^ 64 := by
    induction stand with
    | nil => simp
    | cons same _ ih =>
      intro n
      rw [List.foldl_cons,same,← Nat.add_mod,ih,List.sum_cons,Nat.add_assoc]
  have sum := sums 0
  rwa [Nat.zero_add] at sum

theorem sum_full {h : Nat} {init : List Nat} (wholes : ∀ n ∈ init, n = unit h) (last : Nat) :
    (init ++ [last]).sum = init.length * unit h + last := by
  rw [List.eq_replicate_of_mem wholes]
  simp

theorem sum_gather {b : Nat} (pos : 0 < b) (l : List Nat) : (gather b List.sum l).sum = l.sum := by
  induction l using groups_induction pos with
  | short l less =>
    rw [gather,fulls_short less,rest_short less,List.map_nil,List.nil_append]
    rcases l with _ | ⟨n,_ | ⟨m,more⟩⟩
    · rfl
    · rfl
    · rw [carry_many (by simp),List.sum_singleton]
  | full g l full ih => rw [gather_cons _ pos full,List.sum_cons,ih,List.sum_append]

theorem full_gather {h : Nat} {l : List Nat} (laid : Full h l) : Full (h + 1) (gather (branches / 2) List.sum l) := by
  have next : unit (h + 1) = branches / 2 * unit h := by
    rw [unit,unit,Nat.pow_succ,Nat.mul_comm (_ ^ h),Nat.mul_left_comm]
  have more : unit h ≤ unit (h + 1) := by
    rw [next]
    exact Nat.le_mul_of_pos_left _ (by decide)
  refine laid_gather (by decide) (fun g full wholes => ?_) ?_ (fun n part => ⟨part.1,part.2.trans more⟩) laid
  · rw [List.eq_replicate_of_mem wholes,full,next]
    simp
  rintro g - few ⟨init,last,rfl,wholes,positive,short⟩
  have within : (init.length + 1) * unit h ≤ unit (h + 1) := by
    rw [next]
    exact Nat.mul_le_mul_right _ (by simpa using few)
  rw [Nat.add_mul] at within
  rw [sum_full wholes]
  omega

/-- The short pipeline takes whatever a file of less than 2^63 bytes leads to. -/
theorem takes_scheme {total : Nat} (small : total < 2 ^ 63) :
    Takes (scheme hashFunc total) (shortPipeline hash hashFunc tape) EncryptedReference.bytes where
  wide := show 2 ≤ branches / 2 by decide
  take := by
    rintro before l group es stored ⟨bound,laid⟩ many few stand opens
    change group.length ≤ branches / 2 at few
    obtain ⟨h,init,last,ends,wholes,positive,short⟩ := laid.resolve_left (by rw [List.length_append]; omega)
    have length : (es.flatMap (fun e => e.ref.bytes)).length = group.length * referenceSize := by
      have each : ∀ e ∈ es, e.ref.bytes.length = referenceSize := fun e _ => by
        rw [EncryptedReference.bytes,List.length_append,e.ref.ref.2,e.ref.key.2]
        rfl
      rw [List.length_flatMap,List.map_congr_left each,← stand.length_eq]
      simp
    have sums := spanSum_stands stand
    rw [List.sum_append] at bound
    rw [Nat.mod_eq_of_lt (by omega)] at sums
    obtain rfl | ⟨front,final,rfl⟩ := List.eq_nil_or_concat group
    · simp at many
    rw [List.concat_eq_append] at *
    rw [← List.append_assoc] at ends
    obtain ⟨rfl,same⟩ := List.append_inj' ends rfl
    obtain rfl := List.singleton_inj.mp same
    have sum := sum_full (fun n mem => wholes n (List.mem_append_right l mem)) final
    rw [sums]
    simp only [List.length_append,List.length_singleton] at length many few
    have told : payloadLength (front ++ [final]).sum = (es.flatMap (fun e => e.ref.bytes)).length := by
      rw [length]
      apply payloadLength_laid (by omega) few
      · rw [sum]
        exact Nat.lt_add_of_pos_right positive
      · rw [sum,Nat.add_mul front.length,Nat.one_mul]
        exact Nat.add_le_add_left short _
      · omega
    obtain ⟨r,stored',run,opens⟩ := shortPipeline_opens hash tape (by omega)
      (by rw [length]; exact Nat.mul_le_mul_right referenceSize few) told opens
    exact ⟨r,stored',run,(Nat.mod_eq_of_lt (show (front ++ [final]).sum < 2 ^ 64 by omega)).symm,opens⟩
  gather := by
    rintro l ⟨bound,laid⟩
    have pos : 0 < branches / 2 := by decide
    refine ⟨(sum_gather pos l).trans_le bound,laid.imp (fun few => ?_) fun ⟨h,full⟩ => ⟨h + 1,full_gather full⟩⟩
    refine (length_gather pos l).trans_le (groupCount_le pos (few.trans ?_))
    exact pos
  shorter := by
    rintro l m ⟨bound,laid⟩
    rw [List.sum_append] at bound
    refine ⟨by omega,?_⟩
    rcases laid with few | ⟨h,init,last,ends,wholes,part⟩
    · rw [List.length_append] at few
      exact .inl (by omega)
    obtain rfl | ⟨more,final,rfl⟩ := List.eq_nil_or_concat m
    · exact .inr ⟨h,init,last,by rwa [List.append_nil] at ends,wholes,part⟩
    rw [List.concat_eq_append,← List.append_assoc] at ends
    obtain ⟨rfl,-⟩ := List.append_inj' ends rfl
    obtain rfl | ⟨front,full,rfl⟩ := List.eq_nil_or_concat l
    · simp
    rw [List.concat_eq_append]
    have whole := wholes full (by simp)
    exact .inr ⟨h,front,full,rfl,fun n mem => wholes n (by simp [mem]),by rw [whole]; exact ⟨Nat.mul_pos (by decide)
      (Nat.pow_pos (by decide)),le_rfl⟩⟩

theorem takes_leaf {total : Nat} {data : Bytes} (short : data.length ≤ chunkSize) :
    TakesLeaf (scheme hashFunc total) (shortPipeline hash hashFunc tape) List.length data := by
  intro before stored opens
  have size : chunkSize < 2 ^ 63 := by decide
  obtain ⟨r,stored',run,opens⟩ := shortPipeline_opens hash tape (by omega) short
    (payloadLength_short short) opens
  exact ⟨r,stored',run,by rw [Feeders.leafData,take_putUint64,littleEndian_putUint64]; rfl,opens⟩

end

/-- Whatever keys and fillings are drawn, and however a file is cut into writes, its upload
    succeeds, and every chunk that it encrypts can be decrypted with its key to what it was. The
    length of a file is an `int`. -/
theorem encrypted_upload_opens (hash hashFunc : Bytes → Reference) (tape : Nat → Draw) (writes : List Bytes)
    (small : writes.flatten.length < 2 ^ 63) :
    ∃ ref stored, upload hash hashFunc tape writes = .ok (ref,stored) ∧ ∀ c ∈ stored, c.Opens hashFunc := by
  have start : TrieWriters.Feeds (scheme hashFunc writes.flatten.length) [] NewHashTrieWriter := by
    refine TrieWriters.feeds_nil (show 0 < branches / 2 by decide) (fun _ => rfl) ?_ ?_ rfl
    · simp [scheme,NewHashTrieWriter]
    · rw [NewHashTrieWriter,List.length_replicate]
      exact show maxLevel * (branches / 2) ≤ _ by decide
  have fits : (Feeders.leaves chunkSize writes.flatten).length < (branches / 2) ^ (maxLevel - 1) := by
    have : writes.flatten.length / chunkSize < 2 ^ 63 := (Nat.div_le_self _ _).trans_lt small
    have : (2 : Nat) ^ 63 < (branches / 2) ^ (maxLevel - 1) := by decide
    have := Feeders.length_leaves_le (show 0 < chunkSize by decide) writes.flatten
    omega
  have apt : (scheme hashFunc writes.flatten.length).apt ((Feeders.leaves chunkSize writes.flatten).map List.length) := by
    refine ⟨by rw [← List.length_flatten,Feeders.flatten_leaves (by decide)],?_⟩
    by_cases none : writes.flatten = []
    · left
      rw [List.length_map,none]
      exact Feeders.length_leaves_le (by decide) []
    obtain ⟨init,last,same,wholes,part⟩ := Feeders.laid_leaves (show 0 < chunkSize by decide) none
    refine .inr ⟨0,init.map List.length,last.length,by rw [same,List.map_append]; rfl,?_,by simpa [unit] using part⟩
    intro n mem
    obtain ⟨d,inside,rfl⟩ := List.mem_map.mp mem
    simpa [unit] using wholes d inside
  obtain ⟨root,e,w,-,-,run,opens⟩ := TrieWriters.feed_gathers (takes_scheme hash tape small)
    (fun d mem => takes_leaf hash tape (Feeders.length_of_mem_leaves (by decide) mem)) start (Feeders.leaves_pos (by decide)) fits apt
  refine ⟨e.ref,w.state,?_,opens⟩
  refine (congrArg (· >>= _) ((Feeders.upload_feeds _ _ (by decide) writes NewHashTrieWriter).trans run)).trans ?_
  rfl

theorem encrypted_upload_opens_bytes :
    let tape : Nat → Draw := fun n => ⟨⟨List.replicate keyLength (UInt8.ofNat n),List.length_replicate⟩,UInt8.ofNat⟩
    ∃ ref stored, upload (fun _ => zeroReference) (fun _ => zeroReference) tape [[1,2],[3]] = .ok (ref,stored) ∧
      ∀ c ∈ stored, c.Opens (fun _ => zeroReference) :=
  encrypted_upload_opens _ _ _ [[1,2],[3]] (by decide)

end FavorX.EncryptedPipeline

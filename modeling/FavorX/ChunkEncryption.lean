import FavorX.Shapes

/-!
Encryption of chunks. The data are xored with a keystream and the payload is filled up
with random bytes. How many is not stored: whoever decrypts a chunk works it out from the
span (`payloadLength`, `payloadLength_laid`).
-/
namespace FavorX.ChunkEncryption
open Shed hiding Err
open Localstore hiding gather
open Pipeline hiding Err
open Shapes Joiners

def keyLength : Nat := 32
def referenceSize : Nat := 64

abbrev Key := {k : Bytes // k.length = keyLength}

inductive Err
  | longerThanPadding
  | differentFromPadding
  | panicked

inductive Failure (E : Type)
  | store (e : E)
  | decryption (e : Err)
  | referenceLength

structure Draw where
  key : Key
  fill : Nat → UInt8

structure Encryption where
  key : Key
  padding : Nat
  initCtr : Nat

section
variable (hashFunc : Bytes → Reference)

def segmentKey (e : Encryption) (i : Nat) : Bytes := (hashFunc (hashFunc (e.key.1 ++ leBytes 4 (i + e.initCtr))).1).1

def Transcrypt (e : Encryption) (i : Nat) (bs : Bytes) : Bytes := List.zipWith (· ^^^ ·) bs (segmentKey hashFunc e i)

def transform (e : Encryption) (index : Nat) (bs : Bytes) : Bytes :=
  if bs = [] then []
  else Transcrypt hashFunc e index (bs.take keyLength) ++ transform e (index + 1) (bs.drop keyLength)
termination_by bs.length
decreasing_by
  have := List.length_pos_of_ne_nil ‹bs ≠ []›
  simp only [List.length_drop,keyLength]
  omega

def Encrypt (e : Encryption) (fill : Nat → UInt8) (data : Bytes) : Except Err Bytes :=
  if 0 < e.padding then
    if e.padding < data.length then throw .longerThanPadding
    else pure (transform hashFunc e 0 data ++ (List.range (e.padding - data.length)).map fill)
  else pure (transform hashFunc e 0 data)

def Decrypt (e : Encryption) (data : Bytes) : Except Err Bytes :=
  if 0 < e.padding ∧ data.length ≠ e.padding then throw .differentFromPadding
  else pure (transform hashFunc e 0 data)

def newSpanEncryption (key : Key) : Encryption := ⟨key,0,chunkSize / (hashSize + keyLength)⟩

def newDataEncryption (key : Key) : Encryption := ⟨key,chunkSize,0⟩

def EncryptChunk (draw : Draw) (chunkData : Bytes) : Except Err (Key × Bytes × Bytes) :=
  if chunkData.length < spanSize then throw .panicked
  else do
    let encryptedSpan ← Encrypt hashFunc (newSpanEncryption draw.key) draw.fill (chunkData.take spanSize)
    let encryptedData ← Encrypt hashFunc (newDataEncryption draw.key) draw.fill (chunkData.drop spanSize)
    pure (draw.key,encryptedSpan,encryptedData)

def decrypt (chunkData : Bytes) (key : Key) : Except Err (Bytes × Bytes) :=
  if chunkData.length < spanSize then throw .panicked
  else do
    let decryptedSpan ← Decrypt hashFunc (newSpanEncryption key) (chunkData.take spanSize)
    let decryptedData ← Decrypt hashFunc (newDataEncryption key) (chunkData.drop spanSize)
    pure (decryptedSpan,decryptedData)

/-- The length of the payload of a chunk with this span, in numbers of 64 bits. -/
def payloadLength (length : Nat) : Nat :=
  if chunkSize < length then
    payloadLength ((length + (chunkSize - 1)) % 2 ^ 64 / chunkSize * (hashSize + keyLength) % 2 ^ 64)
  else length
termination_by length
decreasing_by
  have size : chunkSize = 262144 := rfl
  simp only [size,hashSize,keyLength] at *
  omega

def decryptChunkData (chunkData : Bytes) (key : Key) : Except Err Bytes := do
  let (decryptedSpan,decryptedData) ← decrypt hashFunc chunkData key
  let length := payloadLength (littleEndian decryptedSpan)
  pure (decryptedSpan ++ decryptedData.take length)

def Get {E : Type} (getter : Getter E) (addr : Address) (index : Int) : Except (Failure E) Bytes :=
  if addr.length = hashSize then (getter addr index).mapError .store
  else if sized : addr.length = referenceSize then do
    let chunkData ← (getter (addr.take hashSize) index).mapError .store
    let key : Key := ⟨addr.drop hashSize,by rw [List.length_drop,sized]; rfl⟩
    (decryptChunkData hashFunc chunkData key).mapError .decryption
  else throw .referenceLength

variable {hashFunc} (e : Encryption)

theorem length_segmentKey (i : Nat) : (segmentKey hashFunc e i).length = keyLength := (hashFunc _).2

theorem length_transform (index : Nat) (bs : Bytes) : (transform hashFunc e index bs).length = bs.length := by
  induction k : bs.length using Nat.strong_induction_on generalizing index bs with
  | _ k ih =>
    subst k
    rw [transform]
    by_cases none : bs = []
    · simp [none]
    have some := List.length_pos_of_ne_nil none
    have pos : 0 < keyLength := by decide
    rw [if_neg none,List.length_append,ih _ (by rw [List.length_drop]; omega) _ _ rfl,Transcrypt,List.length_zipWith,
      length_segmentKey,List.length_take,List.length_drop]
    omega

theorem getElem?_transform (index : Nat) {bs : Bytes} {j : Nat} (inside : j < bs.length) :
    (transform hashFunc e index bs)[j]? =
      bs[j]?.map (· ^^^ ((segmentKey hashFunc e (index + j / keyLength))[j % keyLength]?).getD 0) := by
  have pos : 0 < keyLength := by decide
  induction k : bs.length using Nat.strong_induction_on generalizing index bs j with
  | _ k ih =>
    have some : bs ≠ [] := List.ne_nil_of_length_pos (by omega)
    have length : (Transcrypt hashFunc e index (bs.take keyLength)).length = min keyLength bs.length := by
      simp [Transcrypt,length_segmentKey]
    rw [transform,if_neg some]
    by_cases first : j < keyLength
    · rw [Nat.div_eq_of_lt first,Nat.mod_eq_of_lt first,List.getElem?_append_left (by omega),Transcrypt]
      simp [inside,length_segmentKey,first]
    rw [List.getElem?_append_right (by omega),length,Nat.min_eq_left (by omega),
      ih _ (by rw [List.length_drop]; omega) _ (by rw [List.length_drop]; omega) rfl,List.getElem?_drop]
    obtain ⟨later,rfl⟩ := Nat.exists_eq_add_of_le' (Nat.not_lt.mp first)
    rw [Nat.add_sub_cancel,Nat.add_div_right _ pos,Nat.add_mod_right,Nat.add_comm keyLength later,Nat.add_assoc,
      Nat.add_comm 1]

/-- Encrypted twice, the data are what they were, and what follows them does not matter. -/
theorem transform_transform (bs filled : Bytes) :
    (transform hashFunc e 0 (transform hashFunc e 0 bs ++ filled)).take bs.length = bs := by
  apply List.ext_getElem?
  intro j
  by_cases inside : j < bs.length
  · rw [List.getElem?_take_of_lt inside,getElem?_transform _ _ (by rw [List.length_append,length_transform]; omega),
      List.getElem?_append_left (by rwa [length_transform]),getElem?_transform _ _ inside]
    simp [inside]
  · rw [List.getElem?_eq_none (by simp; omega),List.getElem?_eq_none (by omega)]

theorem payloadLength_short {length : Nat} (short : length ≤ chunkSize) : payloadLength length = length := by
  rw [payloadLength,if_neg (by omega)]

/-- The number of references of a chunk with at least two of them. All children but the last
    hold as many bytes as a full trie of their level, and the last holds some of that. -/
theorem payloadLength_laid {h n length : Nat} (many : 2 ≤ n) (few : n ≤ branches / 2)
    (more : (n - 1) * (chunkSize * (branches / 2) ^ h) < length)
    (less : length ≤ n * (chunkSize * (branches / 2) ^ h)) (small : length < 2 ^ 63) :
    payloadLength length = n * referenceSize := by
  have size : chunkSize = 262144 := rfl
  have half : branches / 2 = 4096 := rfl
  rw [size,half] at more less
  induction h generalizing length with
  | zero =>
    rw [Nat.pow_zero] at more
    have next : (length + (262144 - 1)) % 2 ^ 64 / 262144 * (hashSize + keyLength) % 2 ^ 64 = n * referenceSize := by
      simp only [hashSize,keyLength,referenceSize]
      omega
    rw [payloadLength,size,if_pos (by omega),next,payloadLength_short (by rw [referenceSize]; omega)]
  | succ h ih =>
    let unit := 4096 ^ h
    have pos : 0 < unit := Nat.pow_pos (by decide)
    have whole : 262144 * 4096 ^ (h + 1) = 262144 * 4096 * unit := by rw [Nat.pow_succ]; ring
    rw [whole] at more less
    -- in units of the level below, the chunk has this many references
    let refs := (length + 262143) / 262144
    have above : (n - 1) * (4096 * unit) < refs := by
      rw [Nat.mul_assoc,Nat.mul_left_comm] at more
      omega
    have below : refs ≤ n * (4096 * unit) := by
      rw [Nat.mul_assoc,Nat.mul_left_comm] at less
      omega
    have next : (length + (262144 - 1)) % 2 ^ 64 / 262144 * (hashSize + keyLength) % 2 ^ 64 = refs * 64 := by
      simp only [hashSize,keyLength,refs]
      omega
    have long : 262144 < length := by
      have one : 1 * (4096 * unit) ≤ (n - 1) * (4096 * unit) := Nat.mul_le_mul_right _ (by omega)
      omega
    rw [payloadLength,size,if_pos long,next]
    apply ih
    · rw [Nat.mul_left_comm] at above ⊢
      change 262144 * ((n - 1) * unit) < refs * 64
      omega
    · rw [Nat.mul_left_comm] at below ⊢
      change refs * 64 ≤ 262144 * (n * unit)
      omega
    · omega

/-- A chunk comes back as it was if its span tells the length of its payload. -/
theorem decryptChunkData_encrypted {draw : Draw} {n : Nat} {payload : Bytes} (small : n < 2 ^ 64)
    (fits : payload.length ≤ chunkSize) (told : payloadLength n = payload.length) :
    ∃ span data, EncryptChunk hashFunc draw (putUint64 n ++ payload) = .ok (draw.key,span,data) ∧
      decryptChunkData hashFunc (span ++ data) draw.key = .ok (putUint64 n ++ payload) := by
  let span := transform hashFunc (newSpanEncryption draw.key) 0 (putUint64 n)
  let data := transform hashFunc (newDataEncryption draw.key) 0 payload ++
    (List.range (chunkSize - payload.length)).map draw.fill
  have spanLength : span.length = spanSize := (length_transform _ _ _).trans length_putUint64
  have dataLength : data.length = chunkSize := by
    simp only [data,List.length_append,length_transform,List.length_map,List.length_range]
    omega
  refine ⟨span,data,?_,?_⟩
  · have long : ¬ (putUint64 n ++ payload).length < spanSize := by simp [length_putUint64]
    have positive : 0 < chunkSize := by decide
    rw [EncryptChunk,if_neg long,drop_putUint64]
    simp [Encrypt,newSpanEncryption,newDataEncryption,positive,Nat.not_lt.mpr fits,span,data]
    rfl
  have long : ¬ (span ++ data).length < spanSize := by simp [spanLength]
  have back : transform hashFunc (newSpanEncryption draw.key) 0 span = putUint64 n := by
    have whole := @transform_transform hashFunc (newSpanEncryption draw.key) (putUint64 n) []
    rw [List.append_nil,List.take_of_length_le (by simp [length_transform])] at whole
    exact whole
  have payloadBack : (transform hashFunc (newDataEncryption draw.key) 0 data).take payload.length = payload :=
    transform_transform _ _ _
  have same : n % 2 ^ 64 = n := Nat.mod_eq_of_lt small
  rw [decryptChunkData,decrypt,if_neg long,List.take_left' spanLength,List.drop_left' spanLength]
  simp [Decrypt,newSpanEncryption,newDataEncryption,dataLength] at back payloadBack ⊢
  simp only [pure,Except.pure,back,littleEndian_putUint64,same,told,payloadBack]

/-- The segments that `transform` encrypts, each with the bytes of the counter in its key. -/
def segments (e : Encryption) (index : Nat) (bs : Bytes) : List (Bytes × Bytes) :=
  if bs = [] then []
  else (bs.take keyLength,leBytes 4 (index + e.initCtr)) :: segments e (index + 1) (bs.drop keyLength)
termination_by bs.length
decreasing_by
  have := List.length_pos_of_ne_nil ‹bs ≠ []›
  simp only [List.length_drop,keyLength]
  omega

theorem transform_segments (index : Nat) (bs : Bytes) :
    transform hashFunc e index bs = (segments e index bs).flatMap
      (fun (segment,ctr) => List.zipWith (· ^^^ ·) segment (hashFunc (hashFunc (e.key.1 ++ ctr)).1).1) := by
  fun_induction segments e index bs with
  | case1 => simp [transform]
  | case2 index bs some ih =>
    rw [transform,if_neg some,ih]
    rfl

theorem counters_eq (index : Nat) (bs : Bytes) :
    (segments e index bs).map Prod.snd =
      (List.range' (index + e.initCtr) ((bs.length + (keyLength - 1)) / keyLength)).map (leBytes 4) := by
  fun_induction segments e index bs with
  | case1 => rfl
  | case2 index bs some ih =>
    have pos := List.length_pos_of_ne_nil some
    have count : (bs.length + (keyLength - 1)) / keyLength = (bs.length - keyLength + (keyLength - 1)) / keyLength + 1 := by
      simp only [keyLength]
      omega
    rw [List.map_cons,ih,List.length_drop,count,List.range'_succ,List.map_cons,Nat.add_right_comm]

theorem leBytes_inj {c c' : Nat} (small : c < 2 ^ 32) (small' : c' < 2 ^ 32) : leBytes 4 c = leBytes 4 c' ↔ c = c' := by
  constructor
  · intro same
    have values := congrArg littleEndian same
    rw [littleEndian_leBytes,littleEndian_leBytes] at values
    omega
  · exact congrArg _

/-- The counters in the keys of the segments of a chunk, those of the span and those of the payload. -/
def counters (key : Key) (span payload : Bytes) : List Bytes :=
  (segments (newSpanEncryption key) 0 span ++ segments (newDataEncryption key) 0 payload).map Prod.snd

theorem counters_cons (key : Key) {span : Bytes} (payload : Bytes) (whole : span.length = spanSize) :
    counters key span payload =
      leBytes 4 4096 :: (List.range' 0 ((payload.length + (keyLength - 1)) / keyLength)).map (leBytes 4) := by
  rw [counters,List.map_append,counters_eq,counters_eq,whole]
  rfl

end

end FavorX.ChunkEncryption

import FavorX.Pipeline
import FavorX.Pools

/-!
The joiner, which reads a part of a file from the chunks of its trie. The section under a reference
is guessed from the number of references and the span (`subtrieSection`). The goroutines of a read
are a pool of tasks; one that slices past the data or loops forever has no outcome.
-/
namespace FavorX.Joiners
open Shed hiding Err
open Localstore hiding gather
open Pipeline hiding Err

/-- The 64-bit signed number that is left of a calculation. -/
def int64 (x : Int) : Int := x.bmod (2 ^ 64)

theorem int64_eq {x : Int} (low : -2 ^ 63 ≤ x) (high : x < 2 ^ 63) : int64 x = x := by
  rw [int64,Int.bmod_eq_of_le (by omega) (by omega)]

inductive Fault (E : Type)
  | store (e : E)
  | malformedTrie

/-- What fetches a chunk by its address and its index in the file. -/
abbrev Getter (E : Type) := Address → Int → Except E Bytes

structure Joiner where
  rootData : Bytes
  span : Int
  index : Int
  refLength : Nat

/-- A goroutine of a read: the chunk to fetch and what to read from it. -/
structure Task where
  address : Address
  index : Int
  lastIndex : Int
  cur : Int
  off : Int
  bufferOffset : Int
  bytesToRead : Int
  subtrieSpanLimit : Int

/-- How a call ends badly. -/
inductive Halt
  | panicked
  | endless
  deriving DecidableEq

/-- What a call does to the read. -/
inductive Outcome (E : Type)
  | failed (fault : Fault E)
  | copied (bufferOffset : Int) (bs : Bytes)
  | spawned (tasks : List Task)

/-- The loop that guesses the size of the sections. After a few turns the size wraps around
    to zero, which ends nothing: the loop that has not ended in 64 turns goes on forever. -/
def branchSizeFrom (refs branching subtrieSize : Int) : Nat → Int → Option Int
  | turns,branchSize =>
    let whatsLeft := int64 (subtrieSize - int64 (branchSize * (refs - 1)))
    if whatsLeft ≤ branchSize then some branchSize
    else match turns with
      | 0 => none
      | turns + 1 => branchSizeFrom refs branching subtrieSize turns (int64 (branchSize * branching))

/-- The size of the section of the reference at `startIdx`. -/
def subtrieSection (data : Bytes) (startIdx refLen : Nat) (subtrieSize : Int) : Option Int := do
  let refs : Int := (data.length / refLen : Nat)
  let branching : Int := (chunkSize / refLen : Nat)
  let branchSize ← branchSizeFrom refs branching subtrieSize 64 chunkSize
  if (startIdx : Int) = (refs - 1) * refLen then pure (int64 (subtrieSize - int64 ((refs - 1) * branchSize)))
  else pure branchSize

section
variable {E : Type} (refLength : Nat)

def readSections (data : Bytes) (index lastIndex subTrieSize : Int) :
    List Nat → Int → Int → Int → Int → Except Halt (List Task)
  | [],_,_,_,_ => pure []
  | cursor :: cursors,cur,off,bufferOffset,bytesToRead => do
    if bytesToRead = 0 then pure []
    else match subtrieSection data cursor refLength subTrieSize with
      | none => throw .endless
      | some sec =>
        if int64 (cur + sec) < off then
          readSections data index lastIndex subTrieSize cursors (int64 (cur + sec)) off bufferOffset bytesToRead
        else if data.length < cursor + refLength then throw .panicked
        else
          let currentReadSize := min (min (int64 (sec - int64 (off - cur))) bytesToRead) sec
          let task : Task := {
            address := (data.drop cursor).take refLength
            index := int64 (lastIndex + 1 + int64 (index * branches) + (cursor / refLength : Nat))
            lastIndex := (data.length / refLength : Nat)
            cur := cur
            off := off
            bufferOffset := bufferOffset
            bytesToRead := currentReadSize
            subtrieSpanLimit := sec }
          let tasks ← readSections data index lastIndex subTrieSize cursors (int64 (cur + sec)) (int64 (cur + sec))
            (int64 (bufferOffset + currentReadSize)) (int64 (bytesToRead - currentReadSize))
          pure (task :: tasks)

/-- The offsets of the references in the data of a chunk; the last one may be cut off. -/
def cursors (data : Bytes) : List Nat :=
  (List.range ((data.length + (refLength - 1)) / refLength)).map (· * refLength)

/-- Read from a chunk into a buffer that has room for `room` bytes. -/
def readAtOffset (room : Int) (data : Bytes) (index lastIndex cur subTrieSize off bufferOffset bytesToRead : Int) :
    Except Halt (Outcome E) :=
  if subTrieSize ≤ data.length then
    let dataOffsetStart := int64 (off - cur)
    let lenDataToCopy := int64 (data.length - dataOffsetStart)
    let dataOffsetEnd :=
      if lenDataToCopy < bytesToRead then int64 (dataOffsetStart + lenDataToCopy) else int64 (dataOffsetStart + bytesToRead)
    if 0 ≤ dataOffsetStart ∧ dataOffsetStart ≤ dataOffsetEnd ∧ dataOffsetEnd ≤ data.length ∧
        0 ≤ bufferOffset ∧ bufferOffset + (dataOffsetEnd - dataOffsetStart) ≤ room then
      pure (.copied bufferOffset ((data.drop dataOffsetStart.toNat).take (dataOffsetEnd - dataOffsetStart).toNat))
    else throw .panicked
  else do
    let tasks ← readSections refLength data index lastIndex subTrieSize (cursors refLength data) cur off bufferOffset
      bytesToRead
    pure (.spawned tasks)

end

section
variable {E : Type} (get : Getter E)

def toSpan (data : Bytes) : Int := toInt64 (littleEndian (data.take spanSize))

def New (address : Address) (index : Int) : Except E Joiner := do
  let chunkData ← get address index
  pure ⟨chunkData.drop spanSize,toSpan chunkData,index,address.length⟩

variable (j : Joiner) (room : Int)

/-- A goroutine: fetch the chunk, check its span and read from it. -/
def runTask (t : Task) : Except Halt (Outcome E) :=
  match get t.address (int64 (t.index + j.index)) with
  | .error e => pure (.failed (.store e))
  | .ok chunkData =>
    let subtrieSpan := toSpan chunkData
    if t.subtrieSpanLimit < subtrieSpan then pure (.failed .malformedTrie)
    else readAtOffset j.refLength room (chunkData.drop spanSize) t.index t.lastIndex t.cur subtrieSpan t.off
      t.bufferOffset t.bytesToRead

def expand (t : Task) : Option (List Task) :=
  match runTask get j room t with
  | .error _ => none
  | .ok (.spawned tasks) => some tasks
  | .ok _ => some []

/-- What the goroutines of a read share, and the indexes of the chunks they fetched. -/
structure Shared (E : Type) where
  buffer : Bytes
  bytesRead : Int := 0
  err : Option (Fault E) := none
  fetched : List Int := []

def copy (buffer : Bytes) (offset : Nat) (bs : Bytes) : Bytes :=
  buffer.take offset ++ bs ++ buffer.drop (offset + bs.length)

def Shared.record (s : Shared E) : Outcome E → Shared E
  | .failed fault => {s with err := s.err <|> some fault}
  | .copied offset bs => {s with buffer := copy s.buffer offset.toNat bs, bytesRead := int64 (s.bytesRead + bs.length)}
  | .spawned _ => s

def effect (t : Task) (s : Shared E) : Shared E :=
  let s := {s with fetched := s.fetched ++ [int64 (t.index + j.index)]}
  match runTask get j room t with
  | .error _ => s
  | .ok outcome => s.record outcome

/-- The first call of a read: the goroutines it starts, and what it copied itself. -/
def start (buffer : Bytes) (off : Int) : Option (List Task × Shared E) :=
  let readLen := min (buffer.length : Int) (int64 (j.span - off))
  match (readAtOffset j.refLength buffer.length j.rootData 0 0 0 j.span off 0 readLen : Except Halt (Outcome E)) with
  | .error _ => none
  | .ok (.spawned tasks) => some (tasks,{buffer := buffer})
  | .ok outcome => some ([],({buffer := buffer} : Shared E).record outcome)

/-- What a read returns. -/
inductive Result (E : Type)
  | eof
  | failed (fault : Fault E)
  | read (n : Int)

/-- A read may return this result and leave this. The buffer is given up to its capacity. -/
inductive ReadAt (buffer : Bytes) (off : Int) : Result E → Shared E → Prop
  | eof (ended : j.span ≤ off) : ReadAt buffer off .eof {buffer := buffer}
  | done {tasks : List Task} {s s' : Shared E} (inside : off < j.span) (started : start j buffer off = some (tasks,s))
    (runs : Pools.Runs (expand get j buffer.length) (effect get j buffer.length) ((tasks : Multiset Task),s) (0,s')) :
    ReadAt buffer off (match s'.err with | some fault => .failed fault | none => .read s'.bytesRead) s'

/-- A read returns, in whatever order its goroutines run. -/
def Returns (buffer : Bytes) (off : Int) : Prop :=
  j.span ≤ off ∨ ∃ tasks, ∃ s : Shared E, start j buffer off = some (tasks,s) ∧
    Pools.Ends (expand get j buffer.length) (tasks : Multiset Task)

end
end FavorX.Joiners

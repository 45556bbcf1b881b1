import FavorX.Groups
import FavorX.Localstore

/-!
The pipeline that turns the bytes of a file into chunks: the feeder cuts the bytes, the hash trie
writer wraps a level into a chunk once it is full, and `Sum` wraps what is left up to one root; a
reference that is alone on its level is carried up. The buffer of the levels is a list of references
here, as every write is one of them. The hash of a chunk is a parameter.
-/
namespace FavorX.Pipeline
open Shed Localstore Groups

def spanSize : Nat := 8
def sectionSize : Nat := 32
def branches : Nat := 128 * 64
def chunkSize : Nat := sectionSize * branches
def maxLevel : Nat := 8

/-- The lowest `k` bytes of a number, the lowest first. -/
def leBytes : Nat → Nat → Bytes
  | 0,_ => []
  | k + 1,n => UInt8.ofNat n :: leBytes k (n / 256)

def putUint64 (n : Nat) : Bytes := leBytes spanSize n

/-- The hash of a chunk, and its address in the store. -/
abbrev Reference := {a : Address // a.length = hashSize}

inductive Err
  | trieFull
  | inconsistentRefs
  | panicked
  deriving DecidableEq

/-- What a level holds for one chunk. -/
structure Entry where
  span : Nat
  ref : Reference

/-- The hash trie writer and the chunks stored so far. -/
structure Writer where
  cursors : Nat → Nat
  buffer : List Entry
  full : Bool
  stored : List Chunk

def zeroReference : Reference := ⟨List.replicate hashSize 0,List.length_replicate⟩

/-- The number of references that the buffer has room for. -/
def bufferRefs : Nat := (chunkSize + spanSize) * 9 * 2 / (hashSize + spanSize)

def NewHashTrieWriter : Writer where
  cursors := fun _ => 0
  buffer := List.replicate bufferRefs ⟨0,zeroReference⟩
  full := false
  stored := []

section
variable (hash : Bytes → Reference) (branching : Nat)

def chunk (data : Bytes) : Chunk := { address := (hash data).1, data := data, sized := (hash data).2 }

/-- The short pipeline: hash the data of a chunk and store it. -/
def shortPipeline (data : Bytes) (w : Writer) : Reference × Writer :=
  (hash data,{w with stored := w.stored ++ [chunk hash data]})

def Writer.moveCursor (w : Writer) (level cursor : Nat) : Writer :=
  {w with cursors := Function.update w.cursors level cursor}

def Writer.append (w : Writer) (level : Nat) (e : Entry) : Writer :=
  {w with buffer := w.buffer.set (w.cursors level) e}.moveCursor level (w.cursors level + 1)

def levelSize (w : Writer) (level : Nat) : Nat :=
  if level = maxLevel then w.cursors level else w.cursors level - w.cursors (level + 1)

/-- Wrap a level into a chunk, whose reference `writeAbove` writes to the level above. -/
def wrapFullLevel (writeAbove : Entry → Writer → Except Err Writer) (level : Nat) (w : Writer) : Except Err Writer :=
  if w.cursors (level + 1) ≤ w.cursors level ∧ w.cursors level ≤ w.buffer.length then do
    let data := (w.buffer.take (w.cursors level)).drop (w.cursors (level + 1))
    let sp := data.foldl (fun sp e => (sp + e.span) % 2 ^ 64) 0
    let hashes := data.flatMap (·.ref.1)
    let (ref,w) := shortPipeline hash (putUint64 sp ++ hashes) w
    let w ← writeAbove ⟨sp,ref⟩ w
    let w := w.moveCursor level (w.cursors (level + 1))
    pure (if level + 1 = maxLevel then {w with full := true} else w)
  else throw .panicked

/-- Write a reference to a level and wrap the level if that fills it. The level is
    given by the number of levels above it; there is none above level 8. -/
def writeToLevel : Nat → Entry → Writer → Except Err Writer
  | above,e,w =>
    let level := maxLevel - above
    if w.cursors level < w.buffer.length then
      let w := w.append level e
      if levelSize w level = branching then
        match above with
        | 0 => throw .panicked
        | above + 1 => wrapFullLevel hash (writeToLevel above) level w
      else pure w
    else throw .panicked

def ChainWrite (e : Entry) (w : Writer) : Except Err Writer :=
  if w.full then throw .trieFull else writeToLevel hash branching (maxLevel - 1) e w

/-- One turn of the loop of `Sum`, at the level with `above + 1` levels above it. -/
def sumLevel (above : Nat) (w : Writer) : Except Err Writer :=
  let level := maxLevel - (above + 1)
  let l := levelSize w level
  if l = 0 then pure w
  else if l = branching then wrapFullLevel hash (writeToLevel hash branching above) level w
  -- a single reference becomes the last one of the level above
  else if l = 1 then pure (w.moveCursor (level + 1) (w.cursors level))
  else wrapFullLevel hash (writeToLevel hash branching above) level w

def sumLevels : Nat → Writer → Except Err Writer
  | 0,w => pure w
  | above + 1,w => do
    let w ← sumLevel hash branching above w
    sumLevels above w

def Sum (w : Writer) : Except Err (Reference × Writer) := do
  let w ← sumLevels hash branching (maxLevel - 1) w
  if levelSize w maxLevel ≠ 1 then throw .inconsistentRefs
  match w.buffer.head? with
  | some e => pure (e.ref,w)
  | none => throw .panicked

/-- The feeder; its buffer is never full. -/
structure Feeder (size : Nat) where
  buffer : Bytes
  room : buffer.length < size
  wrote : Int

/-- The writers after the feeder: hash and store the chunk, then write its
    reference to the trie. -/
def leafWrite (data : Bytes) (w : Writer) : Except Err Writer :=
  let (ref,w) := shortPipeline hash data w
  ChainWrite hash branching ⟨littleEndian (data.take spanSize),ref⟩ w

variable {size : Nat}

/-- The loop of `Write` over the bytes `b`, with what was buffered before them. It
    returns the number of bytes written. -/
def writeLoop (wrote : Int) (buffered b : Bytes) (room : buffered.length < size) (w : Int) (s : Writer) :
    Except Err (Int × Feeder size × Writer) :=
  if ended : b = [] then pure (w,⟨buffered,room,wrote + w⟩,s)
  else if short : buffered.length + b.length < size then pure (w + b.length,⟨b,by omega,wrote⟩,s)
  else do
    let n := min (size - buffered.length) b.length
    let data := buffered ++ b.take n
    let s ← leafWrite hash branching (putUint64 data.length ++ data) s
    writeLoop wrote [] (b.drop n) (by simp only [List.length_nil]; omega) (w + data.length) s
termination_by b.length
decreasing_by
  have := List.length_pos_of_ne_nil ended
  simp only [List.length_drop]
  omega

def Write (b : Bytes) (f : Feeder size) (s : Writer) : Except Err (Int × Feeder size × Writer) :=
  if fits : b.length + f.buffer.length < size then
    pure (b.length,⟨f.buffer ++ b,by simp only [List.length_append]; omega,f.wrote⟩,s)
  else writeLoop hash branching f.wrote f.buffer b f.room (-f.buffer.length) s

/-- Write what is buffered as the last chunk. It returns the number of bytes written. -/
def flush (f : Feeder size) (s : Writer) : Except Err (Int × Writer) :=
  if 0 < f.buffer.length then do
    let d := putUint64 f.buffer.length ++ f.buffer
    let s ← leafWrite hash branching d s
    pure (f.wrote + d.length,s)
  else pure (f.wrote,s)

/-- Flush what is buffered, or the chunk of an empty file, and sum the trie. -/
def feederSum (f : Feeder size) (s : Writer) : Except Err (Reference × Writer) := do
  let (wrote,s) ← flush hash branching f s
  if wrote = 0 then
    let s ← leafWrite hash branching (putUint64 0) s
    Sum hash branching s
  else Sum hash branching s

def writeAll : List Bytes → Feeder size → Writer → Except Err (Feeder size × Writer)
  | [],f,s => pure (f,s)
  | b :: bs,f,s => do
    let (_,f,s) ← Write hash branching b f s
    writeAll bs f s

end

def NewChunkFeederWriter : Feeder chunkSize := ⟨[],by decide,0⟩

/-- Upload a file that comes in several writes: its address and the chunks stored. -/
def upload (hash : Bytes → Reference) (writes : List Bytes) : Except Err (Reference × List Chunk) := do
  let (f,s) ← writeAll hash branches writes NewChunkFeederWriter NewHashTrieWriter
  let (ref,s) ← feederSum hash branches f s
  pure (ref,s.stored)

end FavorX.Pipeline

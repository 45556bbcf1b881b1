import FavorX.TrieWriters

/-!
What the pipeline computes. A trie is what one reference stands for. The writer of the
pipeline is the general one over a short pipeline that stores what it hashes
(`feedSum_general`), and an upload ends with the one trie that gathering the leaves
gives (`upload_spec`).
-/
namespace FavorX.Tries
open Shed hiding Err
open Localstore hiding gather
open Groups Pipeline

/-- A part of a file with its chunks, as one reference stands for it. -/
structure Trie where
  span : Nat
  ref : Reference
  data : Bytes
  chunks : List Chunk

def Trie.entry (t : Trie) : Entry := ⟨t.span,t.ref⟩

section
variable (hash : Bytes → Reference) (branching : Nat)

def leaf (data : Bytes) : Trie :=
  let d := putUint64 data.length ++ data
  ⟨littleEndian (d.take spanSize),hash d,data,[chunk hash d]⟩

def spanSum (ts : List Trie) : Nat := ts.foldl (fun sp t => (sp + t.span) % 2 ^ 64) 0

def nodeData (ts : List Trie) : Bytes := putUint64 (spanSum ts) ++ ts.flatMap (·.ref.1)

def node (ts : List Trie) : Trie :=
  ⟨spanSum ts,hash (nodeData ts),ts.flatMap (·.data),ts.flatMap (·.chunks) ++ [chunk hash (nodeData ts)]⟩

/-- The short pipeline as one with a state of its own. -/
def pipelineFn (data : Bytes) (stored : List Chunk) : Except Empty (Reference × List Chunk) :=
  .ok (hash data,stored ++ [chunk hash data])

/-- The references stand for tries whose chunks are stored. -/
def scheme : TrieWriters.Scheme Reference (List Chunk) Trie where
  branching := branching
  stands := fun e t => e = ⟨t.span,t.ref⟩
  join := node hash
  kept := fun ts stored => stored.Perm (ts.flatMap (·.chunks))
  apt := fun _ => True

variable {hash branching} {w : Writer}

theorem takes_scheme (wide : 2 ≤ branching) : TrieWriters.Takes (scheme hash branching) (pipelineFn hash) (·.1) where
  wide := wide
  take := by
    rintro before l group es stored - - - stand kept
    obtain rfl : es = group.map (fun t => ⟨t.span,t.ref⟩) := by
      clear kept
      induction stand with
      | nil => rfl
      | cons same _ ih => rw [List.map_cons,same,ih]
    have data : putUint64 (TrieWriters.spanSum (group.map (fun t => (⟨t.span,t.ref⟩ : TrieWriters.Entry Reference)))) ++
        (group.map (fun t => (⟨t.span,t.ref⟩ : TrieWriters.Entry Reference))).flatMap (fun e => e.ref.1) = nodeData group := by
      simp only [TrieWriters.spanSum,List.foldl_map,List.flatMap_map]
      rfl
    refine ⟨hash (nodeData group),_,congrArg (pipelineFn hash · stored) data,?_,?_⟩
    · simp only [TrieWriters.spanSum,List.foldl_map]
      rfl
    · have more := kept.append_right [chunk hash (nodeData group)]
      simpa [scheme,node] using more
  gather := fun _ => trivial
  shorter := fun _ => trivial

def Entry.general (e : Entry) : TrieWriters.Entry Reference := ⟨e.span,e.ref⟩

def Writer.general (w : Writer) : TrieWriters.Writer Reference (List Chunk) :=
  ⟨w.cursors,w.buffer.map Entry.general,w.full,w.stored⟩

def Err.general : Err → TrieWriters.Err Empty
  | .trieFull => .trieFull
  | .inconsistentRefs => .inconsistentRefs
  | .panicked => .panicked

def shown {α β : Type} (f : α → β) : Except Err α → Except (TrieWriters.Err Empty) β
  | .ok a => .ok (f a)
  | .error e => .error (Err.general e)

theorem shown_bind {α β γ δ : Type} {f : α → β} {g : γ → δ} {next : α → Except Err γ}
    {next' : β → Except (TrieWriters.Err Empty) δ} (same : ∀ a, next' (f a) = shown g (next a)) (r : Except Err α) :
    (shown f r >>= next') = shown g (r >>= next) := by
  cases r with
  | error e => rfl
  | ok a => exact same a

theorem shown_ok {α β : Type} {f : α → β} {r : Except Err α} {b : β} (ok : shown f r = .ok b) : ∃ a, r = .ok a ∧ f a = b := by
  cases r with
  | error e => cases ok
  | ok a => exact ⟨a,rfl,Except.ok.inj ok⟩

theorem append_general (level : Nat) (e : Entry) :
    (Writer.general w).append level (Entry.general e) = Writer.general (w.append level e) := by
  simp [TrieWriters.Writer.append,TrieWriters.Writer.moveCursor,Writer.general,Writer.append,Writer.moveCursor]

theorem wrapFullLevel_general {next : Entry → Writer → Except Err Writer}
    {next' : TrieWriters.Entry Reference → TrieWriters.Writer Reference (List Chunk) →
      Except (TrieWriters.Err Empty) (TrieWriters.Writer Reference (List Chunk))}
    (same : ∀ e w, next' (Entry.general e) (Writer.general w) = shown Writer.general (next e w)) {level : Nat} :
    TrieWriters.wrapFullLevel (pipelineFn hash) (·.1) next' level (Writer.general w) =
      shown Writer.general (wrapFullLevel hash next level w) := by
  have between : (Writer.general w).between level =
      ((w.buffer.take (w.cursors level)).drop (w.cursors (level + 1))).map Entry.general := by
    rw [List.map_drop,List.map_take]
    rfl
  have length : (Writer.general w).buffer.length = w.buffer.length := List.length_map _
  have cursors : (Writer.general w).cursors = w.cursors := rfl
  rw [TrieWriters.wrapFullLevel,wrapFullLevel,length,between,cursors]
  by_cases ordered : w.cursors (level + 1) ≤ w.cursors level ∧ w.cursors level ≤ w.buffer.length
  · rw [if_pos ordered,if_pos ordered]
    simp only [TrieWriters.spanSum,List.foldl_map,List.flatMap_map]
    change (next' ⟨_,_⟩ _ >>= fun w => pure (w.truncate level)) = _
    refine Eq.trans (congrArg (· >>= _) (same ⟨_,_⟩ {w with stored := w.stored ++ [_]})) (shown_bind (fun w => ?_) _)
    rw [TrieWriters.Writer.truncate]
    split <;> rfl
  · rw [if_neg ordered,if_neg ordered]
    rfl

theorem writeToLevel_general (above : Nat) (e : Entry) {w : Writer} :
    TrieWriters.writeToLevel (pipelineFn hash) (·.1) branching above (Entry.general e) (Writer.general w) =
      shown Writer.general (writeToLevel hash branching above e w) := by
  have length (w : Writer) : (Writer.general w).buffer.length = w.buffer.length := List.length_map _
  have cursors (w : Writer) : (Writer.general w).cursors = w.cursors := rfl
  have size (w : Writer) (level : Nat) : TrieWriters.levelSize (Writer.general w) level = levelSize w level := rfl
  induction above generalizing e w with
  | zero =>
    rw [TrieWriters.writeToLevel,writeToLevel]
    simp only [length,cursors,append_general,size]
    split
    · split <;> rfl
    · rfl
  | succ above ih =>
    rw [TrieWriters.writeToLevel,writeToLevel]
    simp only [length,cursors,append_general,size]
    split
    · split
      · exact wrapFullLevel_general ih
      · rfl
    · rfl

theorem sumLevels_general (above : Nat) (w : Writer) :
    TrieWriters.sumLevels (pipelineFn hash) (·.1) branching above (Writer.general w) =
      shown Writer.general (sumLevels hash branching above w) := by
  induction above generalizing w with
  | zero => rfl
  | succ above ih =>
    have level : TrieWriters.sumLevel (pipelineFn hash) (·.1) branching above (Writer.general w) =
        shown Writer.general (sumLevel hash branching above w) := by
      have size (level : Nat) : TrieWriters.levelSize (Writer.general w) level = levelSize w level := rfl
      rw [TrieWriters.sumLevel,sumLevel]
      simp only [size,wrapFullLevel_general (writeToLevel_general above)]
      split
      · rfl
      · split
        · rfl
        · split <;> rfl
    rw [TrieWriters.sumLevels,level]
    exact shown_bind ih _

theorem Sum_general (w : Writer) : TrieWriters.Sum (pipelineFn hash) (·.1) branching (Writer.general w) =
    shown (fun r => (r.1,Writer.general r.2)) (Pipeline.Sum hash branching w) := by
  rw [TrieWriters.Sum,sumLevels_general]
  refine shown_bind (fun w => ?_) _
  have size : TrieWriters.levelSize (Writer.general w) maxLevel = levelSize w maxLevel := rfl
  have first : (Writer.general w).buffer.head? = w.buffer.head?.map Entry.general := List.head?_map
  simp only [size,first]
  by_cases single : levelSize w maxLevel = 1
  · simp only [single,ne_eq,not_true_eq_false,if_false]
    cases w.buffer.head? <;> rfl
  · simp only [single,ne_eq,not_false_eq_true,if_true]
    rfl

theorem leafWrite_general (data : Bytes) (w : Writer) :
    TrieWriters.leafWrite (pipelineFn hash) (·.1) branching data (Writer.general w) =
      shown Writer.general (leafWrite hash branching data w) := by
  have general : TrieWriters.leafWrite (pipelineFn hash) (·.1) branching data (Writer.general w) =
      if w.full then throw .trieFull else TrieWriters.writeToLevel (pipelineFn hash) (·.1) branching (maxLevel - 1)
        ⟨littleEndian (data.take spanSize),hash data⟩ (Writer.general {w with stored := w.stored ++ [chunk hash data]}) := rfl
  have plain : leafWrite hash branching data w = if w.full then throw .trieFull else
      writeToLevel hash branching (maxLevel - 1) ⟨littleEndian (data.take spanSize),hash data⟩
        {w with stored := w.stored ++ [chunk hash data]} := rfl
  rw [general,plain]
  split
  · rfl
  · exact writeToLevel_general _ ⟨_,_⟩

theorem feed_general (ds : List Bytes) (w : Writer) :
    Feeders.feed (TrieWriters.leafWrite (pipelineFn hash) (·.1) branching) ds (Writer.general w) =
      shown Writer.general (Feeders.feed (leafWrite hash branching) ds w) := by
  induction ds generalizing w with
  | nil => rfl
  | cons d ds ih =>
    rw [Feeders.feed,List.foldlM_cons,leafWrite_general]
    exact shown_bind ih _

/-- Feeding the writer of the pipeline and summing it up is feeding the general one and
    summing that up. -/
theorem feedSum_general {ds : List Bytes} (w : Writer) :
    (Feeders.feed (TrieWriters.leafWrite (pipelineFn hash) (·.1) branching) ds (Writer.general w) >>=
        TrieWriters.Sum (pipelineFn hash) (·.1) branching) =
      shown (fun r => (r.1,Writer.general r.2)) (Feeders.feed (leafWrite hash branching) ds w >>= Pipeline.Sum hash branching) := by
  rw [feed_general]
  exact shown_bind Sum_general _

variable {size : Nat}

theorem writeLoop_eq (wrote : Int) (buffered b : Bytes) (room : buffered.length < size) (n : Int) (w : Writer) :
    writeLoop hash branching wrote buffered b room n w =
      Feeders.writeLoop (leafWrite hash branching) wrote buffered b room n w := by
  induction k : b.length using Nat.strong_induction_on generalizing buffered b n w with
  | _ k ih =>
    rw [writeLoop,Feeders.writeLoop]
    by_cases ended : b = []
    · rw [dif_pos ended,dif_pos ended]
    by_cases short : buffered.length + b.length < size
    · rw [dif_pos short,dif_pos short]
    have next := fun w => ih (b.drop (min (size - buffered.length) b.length)).length (by rw [List.length_drop]; omega) []
      _ (show ([] : Bytes).length < size by simp only [List.length_nil]; omega)
      (n + (buffered ++ b.take (min (size - buffered.length) b.length)).length) w rfl
    simp only [next]
    rfl

theorem writeAll_eq (bs : List Bytes) (f : Feeder size) (w : Writer) :
    writeAll hash branching bs f w = Feeders.writeAll (leafWrite hash branching) bs f w := by
  induction bs generalizing f w with
  | nil => rfl
  | cons b bs ih => simp only [writeAll,Feeders.writeAll,Write,Feeders.Write,writeLoop_eq,ih]

theorem feederSum_eq (f : Feeder size) (w : Writer) :
    feederSum hash branching f w = Feeders.Sum (leafWrite hash branching) (Pipeline.Sum hash branching) f w := by
  rw [feederSum]
  rfl

/-- The leaves of a file: one for every full group of bytes, one for the bytes left
    over, and one for a file without any bytes. -/
def leaves (hash : Bytes → Reference) (size : Nat) (data : Bytes) : List Trie :=
  (fulls size data).map (leaf hash) ++
    if rest size data ≠ [] ∨ data = [] then [leaf hash (rest size data)] else []

end

theorem leaves_eq (hash : Bytes → Reference) (size : Nat) {data : Bytes} :
    leaves hash size data = (Feeders.leaves size data).map (leaf hash) := by
  rw [Feeders.leaves,leaves,List.map_append]
  split <;> rfl

/-- An upload returns the address of the one trie that gathering the leaves of the file
    ends with, and stores the chunks of that trie. -/
theorem upload_spec (hash : Bytes → Reference) (writes : List Bytes) (small : writes.flatten.length < 2 ^ 63) :
    ∃ root stored, gathered branches (node hash) (maxLevel - 1) (leaves hash chunkSize writes.flatten) = [root] ∧
      upload hash writes = .ok (root.ref,stored) ∧ stored.Perm root.chunks := by
  have wide : 2 ≤ branches := by decide
  have fits : (Feeders.leaves chunkSize writes.flatten).length < branches ^ (maxLevel - 1) := by
    have : writes.flatten.length / chunkSize < 2 ^ 63 := (Nat.div_le_self _ _).trans_lt small
    have : (2 : Nat) ^ 63 < branches ^ (maxLevel - 1) := by decide
    have := Feeders.length_leaves_le (show 0 < chunkSize by decide) writes.flatten
    omega
  have start : TrieWriters.Feeds (scheme hash branches) [] (Writer.general NewHashTrieWriter) := by
    refine TrieWriters.feeds_nil (show 0 < branches by decide) (fun _ => rfl) (List.Perm.refl _) ?_ rfl
    rw [Writer.general,List.length_map,NewHashTrieWriter,List.length_replicate]
    exact show maxLevel * branches ≤ bufferRefs by decide
  have leaf : ∀ d ∈ Feeders.leaves chunkSize writes.flatten,
      TrieWriters.TakesLeaf (scheme hash branches) (pipelineFn hash) (leaf hash) d := by
    intro d _ before stored kept
    refine ⟨hash (Feeders.leafData d),_,rfl,rfl,?_⟩
    have more := kept.append_right [chunk hash (Feeders.leafData d)]
    simpa [scheme,Tries.leaf,Feeders.leafData] using more
  obtain ⟨root,e,w,is,stands,run,kept⟩ := TrieWriters.feed_gathers (takes_scheme wide) leaf start
    (Feeders.leaves_pos (by decide)) fits trivial
  obtain ⟨⟨ref,p⟩,ran,shows⟩ := shown_ok ((feedSum_general NewHashTrieWriter).symm.trans run)
  obtain ⟨rfl,rfl⟩ := Prod.mk.inj shows
  refine ⟨root,p.stored,leaves_eq hash chunkSize ▸ is,?_,by simpa [scheme,Writer.general] using kept⟩
  have whole := Feeders.upload_feeds (leafWrite hash branches) (Pipeline.Sum hash branches) NewChunkFeederWriter.room
    writes NewHashTrieWriter
  have joined : upload hash writes = (do
      let r ← Feeders.writeAll (leafWrite hash branches) writes NewChunkFeederWriter NewHashTrieWriter
      Feeders.Sum (leafWrite hash branches) (Pipeline.Sum hash branches) r.1 r.2) >>=
        fun r => pure (r.1,r.2.stored) := by
    simp only [upload,writeAll_eq,feederSum_eq,bind_assoc]
  rw [joined]
  refine (congrArg (· >>= _) (whole.trans ran)).trans ?_
  rw [stands]
  rfl

end FavorX.Tries

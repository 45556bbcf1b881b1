import FavorX.Pipeline

/-!
The chunk feeder over any next writer. However a file is cut into writes, the feeder passes
on the same leaf chunks (`upload_feeds`): one for every full group of bytes, one for the
bytes left over, and one for a file without any bytes.
-/
namespace FavorX.Feeders
open Shed hiding Err
open Groups
open Pipeline (Feeder putUint64 spanSize)

section
variable {W R E : Type} (next : Bytes → W → Except E W) (sum : W → Except E R) {size : Nat}

def leafData (data : Bytes) : Bytes := putUint64 data.length ++ data

theorem room_tail {buffered b : Bytes} (short : buffered.length + b.length < size) : b.length < size := by omega

theorem room_nil {buffered : Bytes} (room : buffered.length < size) : ([] : Bytes).length < size :=
  Nat.zero_lt_of_lt room

theorem room_append {b : Bytes} {f : Feeder size} (fits : b.length + f.buffer.length < size) :
    (f.buffer ++ b).length < size := by
  rwa [List.length_append,Nat.add_comm]

def writeLoop (wrote : Int) (buffered b : Bytes) (room : buffered.length < size) (w : Int) (s : W) :
    Except E (Int × Feeder size × W) :=
  if _ended : b = [] then pure (w,⟨buffered,room,wrote + w⟩,s)
  else if short : buffered.length + b.length < size then pure (w + b.length,⟨b,room_tail short,wrote⟩,s)
  else do
    let n := min (size - buffered.length) b.length
    let data := buffered ++ b.take n
    let s ← next (leafData data) s
    writeLoop wrote [] (b.drop n) (room_nil room) (w + data.length) s
termination_by b.length
decreasing_by
  have := List.length_pos_of_ne_nil _ended
  simp only [List.length_drop]
  omega

def Write (b : Bytes) (f : Feeder size) (s : W) : Except E (Int × Feeder size × W) :=
  if fits : b.length + f.buffer.length < size then
    pure (b.length,⟨f.buffer ++ b,room_append fits,f.wrote⟩,s)
  else writeLoop next f.wrote f.buffer b f.room (-f.buffer.length) s

def flush (f : Feeder size) (s : W) : Except E (Int × W) :=
  if 0 < f.buffer.length then do
    let s ← next (leafData f.buffer) s
    pure (f.wrote + (leafData f.buffer).length,s)
  else pure (f.wrote,s)

def Sum (f : Feeder size) (s : W) : Except E R := do
  let (wrote,s) ← flush next f s
  if wrote = 0 then
    let s ← next (leafData []) s
    sum s
  else sum s

def writeAll : List Bytes → Feeder size → W → Except E (Feeder size × W)
  | [],f,s => pure (f,s)
  | b :: bs,f,s => do
    let (_,f,s) ← Write next b f s
    writeAll bs f s

def feed (ds : List Bytes) (s : W) : Except E W := ds.foldlM (fun s d => next (leafData d) s) s

theorem feed_append (ds es : List Bytes) (s : W) : feed next (ds ++ es) s = feed next ds s >>= feed next es :=
  List.foldlM_append

def leaves (size : Nat) (data : Bytes) : List Bytes :=
  fulls size data ++ if rest size data ≠ [] ∨ data = [] then [rest size data] else []

theorem flatten_leaves (pos : 0 < size) (data : Bytes) : (leaves size data).flatten = data := by
  have flat := flatten_fulls pos data
  rw [leaves]
  split
  · simpa using flat
  · next ended =>
    rw [not_not.mp (not_or.mp ended).1] at flat
    simpa using flat

variable {data : Bytes}

section
variable (pos : 0 < size)
include pos

theorem laid_leaves (some : data ≠ []) :
    Laid (fun d => d.length = size) (fun d => 0 < d.length ∧ d.length ≤ size) (leaves size data) := by
  have wholes : ∀ d ∈ fulls size data, d.length = size := fun d mem => length_of_mem_fulls pos mem
  have flat := flatten_leaves pos data
  rw [leaves] at flat ⊢
  by_cases none : rest size data = []
  · rw [if_neg (by simp [none,some]),List.append_nil] at flat ⊢
    obtain empty | ⟨init,last,same⟩ := List.eq_nil_or_concat (fulls size data)
    · rw [empty] at flat
      exact absurd flat.symm some
    rw [List.concat_eq_append] at same
    rw [same] at wholes ⊢
    have final := wholes last (by simp)
    exact ⟨init,last,rfl,fun d mem => wholes d (by simp [mem]),by rwa [final],final.le⟩
  · rw [if_pos (.inl none)]
    exact ⟨_,_,rfl,wholes,List.length_pos_of_ne_nil none,(rest_lt pos data).le⟩

theorem leaves_pos {data : Bytes} : 0 < (leaves size data).length := by
  by_cases none : data = []
  · rw [leaves,if_pos (.inr none)]
    simp
  · obtain ⟨init,last,same,-⟩ := laid_leaves pos none
    simp [same]

theorem length_leaves_le (data : Bytes) : (leaves size data).length ≤ data.length / size + 1 := by
  rw [leaves,List.length_append,length_fulls pos]
  split <;> simp

theorem length_of_mem_leaves {data d : Bytes} (mem : d ∈ leaves size data) : d.length ≤ size := by
  rcases List.mem_append.mp mem with mem | mem
  · exact (length_of_mem_fulls pos mem).le
  split at mem
  · rw [List.mem_singleton.mp mem]
    exact (rest_lt pos data).le
  · cases mem

end

/-- The feeder once these bytes came in. -/
structure Fed (data : Bytes) (f : Feeder size) : Prop where
  buffer : f.buffer = rest size data
  wrote : 0 ≤ f.wrote
  empty : f.buffer = [] → (f.wrote = 0 ↔ data = [])

/-- The loop of `Write` passes on a leaf for every full group of the bytes and buffers the
    rest. It counts the bytes only if it buffers none. -/
theorem writeLoop_feeds (wrote n : Int) {buffered b : Bytes} (room : buffered.length < size)
    (ready : buffered = [] ∨ size ≤ buffered.length + b.length) :
    ∃ f : Feeder size, (∀ s, writeLoop next wrote buffered b room n s = (do
        let s ← feed next (fulls size (buffered ++ b)) s
        pure (n + buffered.length + b.length,f,s))) ∧
      f.buffer = rest size (buffered ++ b) ∧
      (f.wrote = wrote ∧ f.buffer ≠ [] ∨ f.wrote = wrote + (n + buffered.length + b.length)) := by
  have pos : 0 < size := by omega
  induction k : b.length using Nat.strong_induction_on generalizing buffered b n with
  | _ k ih =>
    subst k
    by_cases ended : b = []
    · subst ended
      have none : buffered = [] := ready.resolve_right (by simp; omega)
      subst none
      refine ⟨⟨[],room,wrote + n⟩,fun s => ?_,(rest_short pos).symm,.inr (by simp)⟩
      rw [writeLoop,fulls_short pos]
      simp [feed]
    by_cases short : buffered.length + b.length < size
    · have none : buffered = [] := ready.resolve_right (by omega)
      subst none
      rw [List.length_nil,Nat.zero_add] at short
      refine ⟨⟨b,short,wrote⟩,fun s => ?_,(rest_short short).symm,.inl ⟨rfl,ended⟩⟩
      rw [writeLoop,dif_neg ended,dif_pos (by simpa using short),List.nil_append,fulls_short short]
      simp [feed]
    have taken : min (size - buffered.length) b.length = size - buffered.length := by omega
    have full : (buffered ++ b.take (size - buffered.length)).length = size := by
      rw [List.length_append,List.length_take]
      omega
    have whole : buffered ++ b = (buffered ++ b.take (size - buffered.length)) ++ b.drop (size - buffered.length) := by
      rw [List.append_assoc,List.take_append_drop]
    obtain ⟨f,run,buffer,counts⟩ := ih (b.drop (size - buffered.length)).length
      (by rw [List.length_drop]; omega) (n + (buffered ++ b.take (size - buffered.length)).length)
      (show ([] : Bytes).length < size from pos) (.inl rfl) rfl
    have count : n + (buffered ++ b.take (size - buffered.length)).length + ([] : Bytes).length +
        (b.drop (size - buffered.length)).length = n + buffered.length + b.length := by
      rw [List.length_drop,List.length_nil]
      omega
    rw [count] at counts
    simp only [count] at run
    refine ⟨f,fun s => ?_,?_,counts⟩
    · rw [whole,fulls_cons pos full,feed,List.foldlM_cons,bind_assoc,writeLoop,dif_neg ended,dif_neg short]
      simp only [taken,run]
      rfl
    · rw [buffer,whole,rest_cons pos full]
      rfl

theorem Write_feeds {f : Feeder size} (fed : Fed data f) (b : Bytes) :
    ∃ f' : Feeder size, (∀ s, Write next b f s = (do
        let s ← feed next (fulls size (f.buffer ++ b)) s
        pure ((b.length : Int),f',s))) ∧ Fed (data ++ b) f' := by
  have pos : 0 < size := by
    have := f.room
    omega
  have left := rest_append pos data b
  rw [← fed.buffer] at left
  by_cases short : b.length + f.buffer.length < size
  · have few : (f.buffer ++ b).length < size := by
      rw [List.length_append]
      omega
    rw [rest_short few] at left
    refine ⟨⟨f.buffer ++ b,few,f.wrote⟩,fun s => by rw [Write,dif_pos short,fulls_short few]; rfl,left.symm,fed.wrote,
      fun none => ?_⟩
    obtain ⟨empty,same⟩ := List.append_eq_nil_iff.mp none
    show f.wrote = 0 ↔ data ++ b = []
    rw [same,List.append_nil]
    exact fed.empty empty
  obtain ⟨f',run,buffer,counts⟩ := writeLoop_feeds next f.wrote (-f.buffer.length) f.room
    (.inr (by omega : size ≤ f.buffer.length + b.length))
  have count : -(f.buffer.length : Int) + f.buffer.length + b.length = b.length := by omega
  simp only [count] at run
  have some : 0 < b.length := by
    have := f.room
    omega
  have wrote := fed.wrote
  refine ⟨f',fun s => by rw [Write,dif_neg short,run],buffer.trans left.symm,?_,fun none => ?_⟩
  · rcases counts with ⟨same,_⟩ | more <;> omega
  have many : data ++ b ≠ [] := List.append_ne_nil_of_right_ne_nil _ (List.ne_nil_of_length_pos some)
  rcases counts with ⟨_,more⟩ | more
  · exact absurd none more
  · exact ⟨fun zero => by omega,fun both => absurd both many⟩

theorem writeAll_feeds {f : Feeder size} (fed : Fed data f) {bs : List Bytes} :
    ∃ f' : Feeder size, (∀ s, writeAll next bs f s = (do
        let s ← feed next (fulls size (f.buffer ++ bs.flatten)) s
        pure (f',s))) ∧ Fed (data ++ bs.flatten) f' := by
  induction bs generalizing data f with
  | nil =>
    refine ⟨f,fun s => ?_,by rwa [List.flatten_nil,List.append_nil]⟩
    rw [List.flatten_nil,List.append_nil,fulls_short f.room]
    rfl
  | cons b bs ih =>
    have pos : 0 < size := by
      have := f.room
      omega
    obtain ⟨g,run,fed'⟩ := Write_feeds next fed b
    obtain ⟨f',runs,final⟩ := ih fed'
    have left : g.buffer = rest size (f.buffer ++ b) := by rw [fed'.buffer,fed.buffer,← rest_append pos]
    refine ⟨f',fun s => ?_,by rwa [List.flatten_cons,← List.append_assoc]⟩
    rw [writeAll,run,List.flatten_cons,← List.append_assoc,fulls_append pos (f.buffer ++ b),← left,feed_append]
    simp only [bind_assoc,pure_bind,runs]

theorem Sum_feeds {f : Feeder size} (fed : Fed data f) (s : W) :
    Sum next sum f s = (do
      let s ← feed next (if rest size data ≠ [] ∨ data = [] then [rest size data] else []) s
      sum s) := by
  rw [Sum,flush,← fed.buffer]
  by_cases none : f.buffer = []
  · rw [if_neg (by simp [none]),none]
    by_cases empty : data = []
    · rw [if_pos (.inr empty)]
      simp [feed,(fed.empty none).mpr empty]
    · have many : f.wrote ≠ 0 := fun zero => empty ((fed.empty none).mp zero)
      simp [feed,empty,many]
  have wrote := fed.wrote
  have many : f.wrote + ((leafData f.buffer).length : Int) ≠ 0 := by
    have := List.length_pos_of_ne_nil none
    rw [leafData,List.length_append]
    omega
  rw [if_pos (List.length_pos_of_ne_nil none),if_pos (.inl none)]
  simp [feed,many]

theorem upload_feeds (pos : 0 < size) (writes : List Bytes) (s : W) : (do
      let (f,s) ← writeAll next writes ⟨[],pos,0⟩ s
      Sum next sum (f : Feeder size) s) = (do
      let s ← feed next (leaves size writes.flatten) s
      sum s) := by
  have start : Fed [] (⟨[],pos,0⟩ : Feeder size) := ⟨(rest_short pos).symm,le_rfl,fun _ => by simp⟩
  obtain ⟨f,run,fed⟩ := writeAll_feeds next start
  rw [run,leaves,feed_append]
  simp [bind_assoc,Sum_feeds next sum fed]

end

end FavorX.Feeders

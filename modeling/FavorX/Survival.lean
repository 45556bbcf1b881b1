import FavorX.RefCounts

/-!
Pins and what they protect. Removing a chunk whose only reference goes takes a pin
off, or deletes the chunk with its last pin. As long as every removal finds more
references to a pinned chunk than it releases, what pins protect stays stored with
its data (`pinned_stored`).
-/
namespace FavorX.Survival
open FiniteMaps Shed Localstore Effects Frames RefCounts
open Batches hiding get put fail

def pins (s : Store) (c : Address) : Nat := (s.pinIndex.lookup c).getD 0

/-! ### Histories -/

/-- A call, or a collection of garbage that comes to these entries of the index. -/
inductive Event
  | call (c : Call)
  | collect (entries : List (GcKey × Nat))

section
variable (cfg : Config) (d : Driver)

/-- The state after an event; none if the call fails or the process ends. -/
def happen : Event → Store × Local → Option (Store × Local)
  | .call c, st =>
    match run d (c.op cfg) st with
    | (.ok _,st') => some st'
    | (.error _,_) => none
  | .collect entries, st =>
    if ∀ e ∈ entries, st.1.gcIndex.lookup e.1 = some e.2 then collectGarbage cfg d entries st else none

/-- How often a put raises the pin counter of a chunk. A request pins a chunk
    only when it is new. -/
def putRaises (mode : ModePut) (chs : List Chunk) (s : Store) (c : Address) : Nat :=
  match mode with
  | .uploadPin => (chs.map (·.address)).count c
  | .requestPin => if (s.retrievalDataIndex.lookup c).isNone ∧ c ∈ chs.map (·.address) then 1 else 0
  | _ => 0

/-- How often an event raises the pin counter of a chunk. -/
def raises (s : Store) (c : Address) : Event → Nat
  | .call (.put mode _ chs) => putRaises mode chs s c
  | .call (.set .pin _ addrs) => addrs.count c
  | _ => 0

/-- How often an event lowers the pin counter of a chunk by unpinning it. -/
def lowers (c : Address) : Event → Nat
  | .call (.set .unpin _ addrs) => addrs.count c
  | _ => 0

/-- How often each chunk was pinned and unpinned, and what it held right after
    the last event that found it without a pin to its name. -/
structure Ledger where
  raised : Address → Nat := fun _ => 0
  lowered : Address → Nat := fun _ => 0
  data : Address → Option Bytes := fun _ => none

/-- The chunk was pinned more often than unpinned. -/
def Ledger.Protects (g : Ledger) (c : Address) : Prop := g.lowered c < g.raised c

instance (g : Ledger) (c : Address) : Decidable (g.Protects c) := inferInstanceAs (Decidable (_ < _))

def Ledger.enter (g : Ledger) (e : Event) (s s' : Store) : Ledger where
  raised c := g.raised c + raises s c e
  lowered c := g.lowered c + lowers c e
  data c := if g.Protects c then g.data c else (s'.retrievalDataIndex.lookup c).map (·.data)

/-- A history, with its ledger; none if something in it fails. -/
def play : List Event → Ledger × (Store × Local) → Option (Ledger × (Store × Local))
  | [], r => some r
  | e :: events, (g,st) =>
    match happen cfg d e st with
    | some st' => play events (g.enter e st.1 st'.1,st')
    | none => none

end

/-! ### What removals find -/

/-- A chunk that is pinned has more references than a list names it. -/
def Spares (addrs : List Address) (s : Store) : Prop :=
  ∀ c ∈ addrs, (s.pinIndex.lookup c).isSome → addrs.count c < references s c

section
variable (cfg : Config)

def chunksOf (root : Address) (s : Store) : Except Err (List Address) :=
  (through medium refused (getAllChunks cfg root) (s,({} : Local))).1

def SparesFile (root : Address) (s : Store) : Prop :=
  ∀ chunks, chunksOf cfg root s = .ok chunks → Spares chunks s

/-- The same for files that are deleted one after the other. -/
def SparesFiles : List Item → Store × Local → Prop
  | [], _ => True
  | item :: items, st => SparesFile cfg item.address st.1 ∧ SparesFiles items (run .wiredtiger (gcFile cfg item) st).2

def SparesPinned : Event → Store × Local → Prop
  | .call (.set .remove _ addrs), st => Spares addrs st.1
  | .call (.deleteFile root), st => SparesFile cfg root st.1
  | .call _, _ => True
  | .collect entries, st => SparesFiles cfg (collects cfg st.1 entries) (startGC st)

/-- Every event of a history finds the references that it needs. -/
def AllSpare : List Event → Store × Local → Prop
  | [], _ => True
  | e :: events, st =>
    SparesPinned cfg e st ∧ ∀ st', happen cfg .wiredtiger e st = some st' → AllSpare events st'

end

/-! ### Stores with pins -/

/-- Pins are positive and on stored chunks, and stored chunks have an address. -/
structure Sound (s : Store) : Prop where
  positive : ∀ c n, s.pinIndex.lookup c = some n → 0 < n
  stored : ∀ c n, s.pinIndex.lookup c = some n → (s.retrievalDataIndex.lookup c).isSome
  named : ∀ c v, s.retrievalDataIndex.lookup c = some v → c ≠ []

/-- From one store to the next no chunk is lost, and its pins move as counted. -/
structure Grown (up down : Address → Nat) (s s' : Store) : Prop where
  sound : Sound s'
  pins : ∀ c, pins s' c + down c = pins s c + up c
  data : ∀ c v, s.retrievalDataIndex.lookup c = some v →
    ∃ v', s'.retrievalDataIndex.lookup c = some v' ∧ v'.data = v.data

variable {s s' : Store}

theorem Sound.congr (holds : Sound s) (data : s'.retrievalDataIndex = s.retrievalDataIndex)
    (pin : s'.pinIndex = s.pinIndex) : Sound s' := by
  refine ⟨?_,?_,?_⟩
  · simpa only [pin] using holds.positive
  · simpa only [pin,data] using holds.stored
  · simpa only [data] using holds.named

theorem grown_same (holds : Sound s) (data : s'.retrievalDataIndex = s.retrievalDataIndex)
    (pin : s'.pinIndex = s.pinIndex) : Grown (fun _ => 0) (fun _ => 0) s s' where
  sound := holds.congr data pin
  pins c := by simp only [pins,pin]
  data c v held := ⟨v,by rw [data,held],rfl⟩

theorem Grown.trans {up up' down down' : Address → Nat} {s'' : Store} (first : Grown up down s s')
    (second : Grown up' down' s' s'') : Grown (fun c => up c + up' c) (fun c => down c + down' c) s s'' where
  sound := second.sound
  pins c := by
    have one := first.pins c
    have two := second.pins c
    omega
  data c v held := by
    obtain ⟨v',held',same⟩ := first.data c v held
    obtain ⟨v'',held'',same'⟩ := second.data c v' held'
    exact ⟨v'',held'',same'.trans same⟩

variable {st st' : Store × Local}

theorem grown_only {α : Type} {parts : List Part} {p : Op α} (only : Only parts p) {r : Except Err α}
    (run : through medium refused p st = (r,st')) (holds : Sound st.1) (data : Part.data ∉ parts)
    (pin : Part.pin ∉ parts) : Grown (fun _ => 0) (fun _ => 0) st.1 st'.1 :=
  grown_same holds (kept_data only run data) (kept_pin only run pin)

theorem grown_indexes (same : SameIndexes st st') {up down : Address → Nat} (grown : Grown up down s st.1) :
    Grown up down s st'.1 :=
  grown.trans (grown_same grown.sound same.data same.pin)

/-! ### Pinning and unpinning -/

def one (a : Address) (c : Address) : Nat := if c = a then 1 else 0

theorem count_cons (a c : Address) (addrs : List Address) : (a :: addrs).count c = one a c + addrs.count c := by
  by_cases here : c = a
  · subst here
    simp [one,Nat.add_comm]
  · simp [one,here,List.count_cons_of_ne (Ne.symm here)]

variable {a : Address}

theorem grown_repinned {up down : Address → Nat} {n : Option Nat} (holds : Sound s)
    (stored : (s.retrievalDataIndex.lookup a).isSome) (data : s'.retrievalDataIndex = s.retrievalDataIndex)
    (pin : s'.pinIndex = update s.pinIndex a n) (positive : n ≠ some 0)
    (moves : n.getD 0 + down a = pins s a + up a) (still : ∀ c, c ≠ a → up c = 0 ∧ down c = 0) :
    Grown up down s s' where
  sound := by
    refine ⟨fun c m held => ?_,fun c m held => ?_,by simpa only [data] using holds.named⟩ <;>
      rw [pin,lookup_update] at held <;> split at held
    · exact Nat.pos_of_ne_zero fun zero => positive (zero ▸ held)
    · exact holds.positive c m held
    · next same => rwa [data,same]
    · rw [data]
      exact holds.stored c m held
  pins c := by
    by_cases here : c = a
    · subst here
      simpa [pins,pin,lookup_update] using moves
    · simp [pins,pin,lookup_update,here,still c here]
  data c v held := ⟨v,by rw [data,held],rfl⟩

theorem grown_unpinned {n : Nat} (holds : Sound s) (pinned : s.pinIndex.lookup a = some n)
    (data : s'.retrievalDataIndex = s.retrievalDataIndex)
    (pin : s'.pinIndex = update s.pinIndex a (if 1 < n then some (n - 1) else none)) : Grown (fun _ => 0) (one a) s s' := by
  have positive := holds.positive a n pinned
  refine grown_repinned holds (holds.stored a n pinned) data pin ?_ ?_ (fun c other => by simp [one,other])
  · split <;> simp
    omega
  · simp only [pins,pinned,one,Option.getD_some]
    split <;> simp <;> omega

variable {item rootItem : Item} {change : Int}

theorem grown_setPin (holds : Sound st.1) (stored : (st.1.retrievalDataIndex.lookup item.address).isSome)
    (fresh : item.pinCounter = 0) (run : through medium refused (setPin item rootItem) st = (.ok change,st')) :
    Grown (one item.address) (fun _ => 0) st.1 st'.1 := by
  obtain ⟨i,_,found,run⟩ := through_bind_ok run
  obtain ⟨_,mid,taken,run⟩ := through_bind_ok run
  obtain ⟨_,_,put,run⟩ := through_bind_ok run
  rw [findPin] at found
  cases found
  cases staged_ok put
  cases run
  have data := kept_data (only_pinRoot rootItem) taken (by decide)
  have pin := kept_pin (only_pinRoot rootItem) taken (by decide)
  refine grown_repinned holds stored data (?_ : _ = update st.1.pinIndex _ (some (pins st.1 item.address + 1))) (by simp)
    (by simp [one]) (fun c other => by simp [one,other])
  simp only [Index.key,Store.write,Index.encode,pin,pins]
  cases st.1.pinIndex.lookup item.address with
  | none => rfl
  | some n => simp [-ite_eq_left_iff,foundPin,fresh]

variable {root : Address} {addrs : List Address} {ch : Chunk} {binIDs : BinIDs}

section
variable (cfg : Config)

theorem grown_setUnpin (holds : Sound st.1)
    (run : through medium refused (setUnpin cfg (addressToItem a) (addressToItem root)) st = (.ok change,st')) :
    Grown (fun _ => 0) (one a) st.1 st'.1 := by
  have pinned : (st.1.pinIndex.lookup a).isSome := by
    obtain ⟨i,_,found,_⟩ := through_bind_ok run
    rw [through_getItem] at found
    cases held : st.1.pinIndex.lookup a with
    | some n => rfl
    | none => simp [addressToItem,held] at found
  obtain ⟨n,held⟩ := Option.isSome_iff_exists.mp pinned
  obtain ⟨v,stored⟩ := Option.isSome_iff_exists.mp (holds.stored a n held)
  rw [setUnpin_run cfg refused_accepting (holds.named a v stored),held] at run
  dsimp only at run
  split at run
  · next more =>
    cases run
    refine grown_unpinned holds held rfl ?_
    rw [if_pos more]
    rfl
  next last =>
  have data := kept_data (staged_unpinRoot cfg _).only run (by decide)
  have pin := kept_pin (staged_unpinRoot cfg _).only run (by decide)
  refine grown_unpinned holds held data ?_
  rw [if_neg last]
  exact pin

/-! ### Putting chunks -/

theorem grown_stored {v' : ChunkValue} (holds : Sound s)
    (data : s'.retrievalDataIndex = update s.retrievalDataIndex ch.address (some v'))
    (same : ∀ v, s.retrievalDataIndex.lookup ch.address = some v → v'.data = v.data) (pin : s'.pinIndex = s.pinIndex) :
    Grown (fun _ => 0) (fun _ => 0) s s' where
  sound := by
    refine ⟨by simpa only [pin] using holds.positive,fun c n held => ?_,fun c v held => ?_⟩
    · rw [pin] at held
      rw [data,lookup_update]
      split
      · rfl
      · exact holds.stored c n held
    rw [data,lookup_update] at held
    split at held
    · next here =>
      rw [here]
      exact Chunk.named ch
    · exact holds.named c v held
  pins c := by simp only [pins,pin]
  data c v held := by
    rw [data,lookup_update]
    split
    · next here =>
      subst here
      exact ⟨v',rfl,same v held⟩
    · exact ⟨v,held,rfl⟩

/-- Besides one chunk, which is there now, the same chunks are stored. -/
def Stores (ch : Chunk) (s s' : Store) : Prop :=
  ∃ v', s'.retrievalDataIndex = update s.retrievalDataIndex ch.address (some v')

theorem Stores.isNone (stores : Stores ch s s') (c : Address) :
    (s'.retrievalDataIndex.lookup c).isNone ↔ (s.retrievalDataIndex.lookup c).isNone ∧ c ≠ ch.address := by
  obtain ⟨v',data⟩ := stores
  rw [data,lookup_update]
  split
  · next here => simp [here]
  · next other => simp [other]

theorem Stores.congr {s'' : Store} (stores : Stores ch s s') (data : s''.retrievalDataIndex = s'.retrievalDataIndex) :
    Stores ch s s'' :=
  stores.imp fun _ same => data.trans same

theorem grown_putUpload {t : Nat} {r : Bool × Item × BinIDs} (holds : Sound st.1)
    (run : through medium refused (putUpload cfg binIDs { chunkToItem ch with type := t }) st = (.ok r,st')) :
    Grown (fun _ => 0) (fun _ => 0) st.1 st'.1 ∧ Stores ch st.1 st'.1 := by
  cases held : st.1.retrievalDataIndex.lookup ch.address with
  | some v =>
    obtain ⟨item,counted⟩ := putUpload_stored cfg refused_accepting held binIDs t
    rw [counted] at run
    cases run
    exact ⟨grown_stored holds rfl (by simp [held,countUp]) rfl,_,rfl⟩
  | none =>
    rw [putUpload_new cfg refused_accepting held] at run
    cases run
    exact ⟨grown_stored holds rfl (by simp [held]) rfl,_,rfl⟩

/-- A chunk that is put on request is pinned if it is new and a pin is asked for. -/
theorem grown_putRequest {t : Nat} {forcePin : Bool} {r : Bool × Int × BinIDs} (holds : Sound st.1)
    (run : through medium refused
      (putRequest cfg binIDs { chunkToItem ch with type := t } (addressToItem root) forcePin) st = (.ok r,st')) :
    Grown (fun c => if forcePin ∧ (st.1.retrievalDataIndex.lookup c).isNone then one ch.address c else 0) (fun _ => 0)
      st.1 st'.1 ∧ Stores ch st.1 st'.1 := by
  cases held : st.1.retrievalDataIndex.lookup ch.address with
  | some v =>
    rw [putRequest_stored cfg refused_accepting held] at run
    cases run
    have raised : (fun c => if forcePin ∧ (st.1.retrievalDataIndex.lookup c).isNone then one ch.address c else 0) =
        fun _ => 0 := by
      funext c
      by_cases here : c = ch.address
      · subst here
        simp [held]
      · simp [one,here]
    rw [raised]
    exact ⟨grown_stored holds rfl (by simp [held,countUp]) rfl,_,rfl⟩
  | none =>
    have new : Grown (fun _ => 0) (fun _ => 0) st.1 (storeNew cfg binIDs ch t st).1 :=
      grown_stored holds rfl (by simp [held]) rfl
    have stores : Stores ch st.1 (storeNew cfg binIDs ch t st).1 := ⟨_,rfl⟩
    rw [putRequest_unstored cfg refused_accepting held] at run
    split at run
    case h_2 => cases run
    case h_1 change mid kept =>
    cases run
    cases forcePin with
    | false =>
      have cached := kept_data (staged_setGC cfg).only kept (by decide)
      refine ⟨?_,stores.congr cached⟩
      simpa using new.trans (grown_only (staged_setGC cfg).only kept new.sound (by decide) (by decide))
    | true =>
      have pinned := kept_data (only_setPin _ _) kept (by decide)
      have stored : ((storeNew cfg binIDs ch t st).1.retrievalDataIndex.lookup ch.address).isSome := by
        simp [storeNew,setData,lookup_update]
      have grown := new.trans (grown_setPin new.sound stored rfl kept)
      refine ⟨?_,stores.congr pinned⟩
      have raised : (fun c => 0 + one (newItem cfg binIDs ch t st).address c) =
          fun c => if (true = true) ∧ (st.1.retrievalDataIndex.lookup c).isNone then one ch.address c else 0 := by
        funext c
        by_cases here : c = ch.address
        · subst here
          simp [held,newItem]
        · simp [one,here,newItem]
      rwa [raised] at grown

theorem grown_putChunk {mode : ModePut} {r : Bool × Int × BinIDs} (holds : Sound st.1)
    (run : through medium refused (putChunk cfg mode root binIDs ch) st = (.ok r,st')) :
    Grown (putRaises mode [ch] st.1) (fun _ => 0) st.1 st'.1 ∧ Stores ch st.1 st'.1 := by
  have requested : ∀ forcePin,
      through medium refused (do
        let r ← putRequest cfg binIDs { chunkToItem ch with type := 1 } (addressToItem root) forcePin
        putTransfer root [ch.address]
        pure (r.1,r.2.1,r.2.2)) st = (.ok r,st') →
      Grown (fun c => if forcePin ∧ (st.1.retrievalDataIndex.lookup c).isNone then one ch.address c else 0)
        (fun _ => 0) st.1 st'.1 ∧ Stores ch st.1 st'.1 := by
    intro forcePin run
    obtain ⟨_,_,request,run⟩ := through_bind_ok run
    obtain ⟨_,_,transfer,run⟩ := through_bind_ok run
    cases run
    obtain ⟨grown,stores⟩ := grown_putRequest cfg holds request
    have data := kept_data (staged_putTransfer _ _).only transfer (by decide)
    have pin := kept_pin (staged_putTransfer _ _).only transfer (by decide)
    exact ⟨grown.trans (grown_same grown.sound data pin),stores.congr data⟩
  cases mode with
  | request => exact requested false run
  | requestPin =>
    have raised : putRaises .requestPin [ch] st.1 =
        fun c => if (true = true) ∧ (st.1.retrievalDataIndex.lookup c).isNone then one ch.address c else 0 := by
      funext c
      simp only [putRaises,one,List.map_cons,List.map_nil,List.mem_singleton,true_and]
      split_ifs <;> simp_all
    rw [raised]
    exact requested true run
  | upload =>
    obtain ⟨_,_,upload,run⟩ := through_bind_ok run
    cases run
    exact grown_putUpload cfg holds upload
  | uploadPin =>
    obtain ⟨_,mid,upload,run⟩ := through_bind_ok run
    obtain ⟨_,_,pinned,run⟩ := through_bind_ok run
    cases run
    obtain ⟨grown,stores⟩ := grown_putUpload cfg holds upload
    have stored : (mid.1.retrievalDataIndex.lookup ch.address).isSome := by
      obtain ⟨v',data⟩ := stores
      simp [data,lookup_update]
    have data := kept_data (only_setPin _ _) pinned (by decide)
    refine ⟨?_,stores.congr data⟩
    have raised : putRaises .uploadPin [ch] st.1 = fun c => 0 + one ch.address c := by
      funext c
      simp only [putRaises,List.map_cons,List.map_nil,count_cons,List.count_nil,Nat.add_comm]
    rw [raised]
    exact grown.trans (grown_setPin grown.sound stored rfl pinned)
  | chain => exact grown_putRequest cfg holds run

theorem putRaises_cons {mode : ModePut} (chs : List Chunk) (stores : Stores ch s s') (c : Address) :
    putRaises mode (ch :: chs) s c = putRaises mode [ch] s c + putRaises mode chs s' c := by
  cases mode with
  | uploadPin =>
    simp only [putRaises,List.map_cons,List.count_cons,List.map_nil,List.count_nil]
    omega
  | requestPin =>
    simp only [putRaises,stores.isNone,List.map_cons,List.mem_cons,List.map_nil,List.not_mem_nil,or_false]
    by_cases here : c = ch.address <;> simp [here]
  | request => rfl
  | upload => rfl
  | chain => rfl

theorem grown_putChunks {mode : ModePut} {chs : List Chunk} {r : List Bool × Int × BinIDs} (holds : Sound st.1)
    (run : through medium refused (putChunks cfg mode root binIDs chs) st = (.ok r,st')) :
    Grown (putRaises mode chs st.1) (fun _ => 0) st.1 st'.1 := by
  induction chs generalizing binIDs st r with
  | nil =>
    have raised : putRaises mode [] st.1 = fun _ => 0 := by
      funext c
      cases mode <;> simp [putRaises]
    rw [raised]
    cases run
    exact grown_same holds rfl rfl
  | cons ch chs ih =>
    obtain ⟨_,_,first,run⟩ := through_bind_ok run
    obtain ⟨_,_,rest,run⟩ := through_bind_ok run
    cases run
    obtain ⟨grown,stores⟩ := grown_putChunk cfg holds first
    rw [funext (putRaises_cons chs stores)]
    exact grown.trans (ih grown.sound rest)

/-! ### Setting pins -/

theorem grown_setAddress {mode : ModeSet} (kind : mode ≠ .remove) (holds : Sound st.1)
    (run : through medium refused (setAddress cfg mode root a) st = (.ok change,st')) :
    Grown (if mode = .pin then one a else fun _ => 0) (if mode = .unpin then one a else fun _ => 0) st.1 st'.1 := by
  cases mode with
  | remove => exact absurd rfl kind
  | sync => exact grown_only (staged_setSync cfg a).only run holds (by decide) (by decide)
  | unpin => exact grown_setUnpin cfg holds run
  | pin =>
    obtain ⟨stored,_,found,run⟩ := through_bind_ok run
    cases found
    split at run
    · next stored => exact grown_setPin holds stored rfl run
    · cases run

theorem grown_setAddresses {mode : ModeSet} (kind : mode ≠ .remove) (holds : Sound st.1)
    (run : through medium refused (setAddresses cfg mode root addrs) st = (.ok change,st')) :
    Grown (if mode = .pin then fun c => addrs.count c else fun _ => 0)
      (if mode = .unpin then fun c => addrs.count c else fun _ => 0) st.1 st'.1 := by
  induction addrs generalizing st change with
  | nil =>
    cases run
    simpa using grown_same holds rfl rfl
  | cons a addrs ih =>
    obtain ⟨_,_,first,run⟩ := through_bind_ok run
    obtain ⟨_,_,rest,run⟩ := through_bind_ok run
    cases run
    have grown := grown_setAddress cfg kind holds first
    have both := grown.trans (ih grown.sound rest)
    cases mode <;> simpa [count_cons] using both

theorem grown_set {mode : ModeSet} (kind : mode ≠ .remove) (holds : Sound st.1)
    (run : through medium refused (Localstore.set cfg mode root addrs) st = (.ok (),st')) :
    Grown (if mode = .pin then fun c => addrs.count c else fun _ => 0)
      (if mode = .unpin then fun c => addrs.count c else fun _ => 0) st.1 st'.1 := by
  rw [set_run cfg refused_accepting] at run
  split at run
  · next first =>
    cases run
    have grown := grown_setAddresses cfg kind (show Sound (recordDirty addrs st).1 from holds) first
    exact grown_indexes resize_same grown
  · cases run

end

/-! ### Removing chunks -/

/-- Pins stay as they are, and what is pinned keeps its data. No chunk is new. -/
structure Lasting (s s' : Store) : Prop where
  pin : s'.pinIndex = s.pinIndex
  data : ∀ c v, (s.pinIndex.lookup c).isSome → s.retrievalDataIndex.lookup c = some v →
    ∃ v', s'.retrievalDataIndex.lookup c = some v' ∧ v'.data = v.data
  old : ∀ c, (s'.retrievalDataIndex.lookup c).isSome → (s.retrievalDataIndex.lookup c).isSome

theorem lasting_same (data : s'.retrievalDataIndex = s.retrievalDataIndex) (pin : s'.pinIndex = s.pinIndex) :
    Lasting s s' where
  pin := pin
  data c v _ held := ⟨v,by rw [data,held],rfl⟩
  old c held := by rwa [← data]

theorem Lasting.trans {s'' : Store} (first : Lasting s s') (second : Lasting s' s'') : Lasting s s'' where
  pin := second.pin.trans first.pin
  data c v pinned held := by
    obtain ⟨v',held',same⟩ := first.data c v pinned held
    obtain ⟨v'',held'',same'⟩ := second.data c v' (by rwa [first.pin]) held'
    exact ⟨v'',held'',same'.trans same⟩
  old c held := first.old c (second.old c held)

theorem Lasting.sound (lasting : Lasting s s') (holds : Sound s) : Sound s' where
  positive c n held := holds.positive c n (by rwa [← lasting.pin])
  stored c n held := by
    rw [lasting.pin] at held
    obtain ⟨v,stored⟩ := Option.isSome_iff_exists.mp (holds.stored c n held)
    obtain ⟨v',stored',_⟩ := lasting.data c v (by rw [held]; rfl) stored
    rw [stored']
    rfl
  named c v held := by
    obtain ⟨v',stored⟩ := Option.isSome_iff_exists.mp (lasting.old c (by rw [held]; rfl))
    exact holds.named c v' stored

/-- Removing one chunk changes that chunk only, and no pin; a chunk with more
    than one reference loses one of them. -/
structure Removed (a : Address) (s s' : Store) : Prop where
  pin : s'.pinIndex = s.pinIndex
  other : ∀ c, c ≠ a → s'.retrievalDataIndex.lookup c = s.retrievalDataIndex.lookup c
  referenced : ∀ v, s.retrievalDataIndex.lookup a = some v → 1 < v.counter →
    s'.retrievalDataIndex.lookup a = some { v with counter := v.counter - 1 }
  absent : s.retrievalDataIndex.lookup a = none → s'.retrievalDataIndex.lookup a = none

/-- Removing the last reference to a chunk without pins deletes it and goes on
    to the garbage. -/
theorem setRemove_unpinned {v : ChunkValue} (named : a ≠ []) (held : st.1.retrievalDataIndex.lookup a = some v)
    (last : ¬ 1 < v.counter) (unpinned : st.1.pinIndex.lookup a = none) {rootItem : Item} :
    ∃ item mid, through medium refused (setRemove a rootItem) st = through medium refused (gcRemove item) mid ∧
      mid.1.pinIndex = st.1.pinIndex ∧ mid.1.retrievalDataIndex = update st.1.retrievalDataIndex a none := by
  have bare : setPins a none st = st := setPins_none unpinned
  by_cases same : a = rootItem.address
  · refine ⟨{ foundData (addressToItem a) v with
        accessTimestamp := ((st.1.retrievalAccessIndex.lookup a).map
          (foundAccess (foundData (addressToItem a) v))).getD (foundData (addressToItem a) v) |>.accessTimestamp },
      setData a none st,?_,rfl,rfl⟩
    simp [-ite_eq_left_iff,setRemove,addressToItem,held,foundData,last,through_releasePin refused_accepting,named,
      unpinned,bare,← same,deleteData refused_accepting]
  · rw [setRemove_other refused_accepting named held (by omega) (by simp [unpinned]) same]
    exact ⟨rootItem,_,rfl,by simp [setAccess,unstored,setData,bare],by simp [setAccess,unstored,setData,bare]⟩

theorem removed_setRemove {r : Except Err Int} (holds : Sound st.1)
    (spared : (st.1.pinIndex.lookup a).isSome → 1 < references st.1 a)
    (run : through medium refused (setRemove a rootItem) st = (r,st')) : Removed a st.1 st'.1 := by
  cases held : st.1.retrievalDataIndex.lookup a with
  | none =>
    rw [setRemove_absent held] at run
    have data := kept_data only_gcRemove run (by decide)
    have pin := kept_pin only_gcRemove run (by decide)
    refine ⟨pin,fun c _ => by rw [data],fun v same => ?_,fun gone => by rwa [data]⟩
    rw [held] at same
    cases same
  | some v =>
    have named := holds.named a v held
    have refuted : st.1.retrievalDataIndex.lookup a ≠ none := by simp [held]
    by_cases more : 1 < v.counter
    · rw [setRemove_referenced refused_accepting named held more] at run
      cases run
      refine ⟨rfl,fun c other => ?_,fun w same _ => ?_,fun gone => absurd gone refuted⟩
      · simp [setData,lookup_update,other]
      · rw [held] at same
        cases same
        simp [setData,lookup_update]
    have unpinned : st.1.pinIndex.lookup a = none := by
      by_contra pinned
      have plenty := spared (Option.isSome_iff_ne_none.mpr pinned)
      simp only [references,held,Option.elim_some] at plenty
      exact more plenty
    obtain ⟨item,mid,rest,pin,data⟩ := setRemove_unpinned named held more unpinned
    rw [rest] at run
    have data' := kept_data only_gcRemove run (by decide)
    have pin' := kept_pin only_gcRemove run (by decide)
    refine ⟨pin'.trans pin,fun c other => ?_,fun w same plenty => ?_,fun gone => absurd gone refuted⟩
    · rw [data',data,lookup_update,if_neg other]
    · rw [held] at same
      cases same
      exact absurd plenty more

theorem Removed.lasting (removed : Removed a s s') (spared : (s.pinIndex.lookup a).isSome → 1 < references s a) :
    Lasting s s' where
  pin := removed.pin
  data c v pinned held := by
    by_cases here : c = a
    · subst here
      have plenty := spared pinned
      simp only [references,held,Option.elim_some] at plenty
      exact ⟨_,removed.referenced v held plenty,rfl⟩
    · exact ⟨v,by rw [removed.other c here,held],rfl⟩
  old c held := by
    by_cases here : c = a
    · subst here
      by_contra gone
      rw [removed.absent (Option.not_isSome_iff_eq_none.mp gone)] at held
      cases held
    · rwa [removed.other c here] at held

theorem Spares.head (spares : Spares (a :: addrs) s) : (s.pinIndex.lookup a).isSome → 1 < references s a := by
  intro pinned
  have enough := spares a List.mem_cons_self pinned
  rw [List.count_cons_self] at enough
  omega

theorem Spares.tail (holds : Sound s) (spares : Spares (a :: addrs) s) (removed : Removed a s s') :
    Spares addrs s' := by
  intro c member pinned
  rw [removed.pin] at pinned
  have enough := spares c (List.mem_cons_of_mem _ member) pinned
  by_cases here : c = a
  · subst here
    obtain ⟨n,pin⟩ := Option.isSome_iff_exists.mp pinned
    obtain ⟨v,held⟩ := Option.isSome_iff_exists.mp (holds.stored c n pin)
    rw [List.count_cons_self] at enough
    simp only [references,held,Option.elim_some] at enough
    simp only [references,removed.referenced v held (by omega),Option.elim_some]
    omega
  · rw [List.count_cons_of_ne (Ne.symm here)] at enough
    simpa only [references,removed.other c here] using enough

theorem lasting_removeChunks {r : Except Err Int} (holds : Sound st.1) (spares : Spares addrs st.1)
    (run : through medium refused (removeChunks rootItem addrs) st = (r,st')) : Lasting st.1 st'.1 := by
  induction addrs generalizing st r with
  | nil =>
    cases run
    exact lasting_same rfl rfl
  | cons a addrs ih =>
    rw [removeChunks,bind_eq] at run
    rcases through_bind_cases with
      ⟨e,mid,first,ended⟩ | ⟨c,mid,first,ended⟩ <;> rw [ended] at run <;>
      have removed := removed_setRemove holds spares.head first <;>
      have lasting := removed.lasting spares.head
    · cases run
      exact lasting
    rw [bind_eq] at run
    rcases through_bind_cases with
      ⟨e,last,second,ended⟩ | ⟨c,last,second,ended⟩ <;> rw [ended] at run <;> cases run <;>
      exact lasting.trans (ih (lasting.sound holds) (spares.tail holds removed) second)

section
variable (cfg : Config)

section
variable (holds : Sound st.1)
include holds

theorem lasting_set (spares : Spares addrs st.1)
    (run : through medium refused (Localstore.set cfg .remove root addrs) st = (.ok (),st')) : Lasting st.1 st'.1 := by
  rw [set_run cfg refused_accepting,setAddresses_remove] at run
  split at run
  · next first =>
    cases run
    have lasting := lasting_removeChunks (show Sound (recordDirty addrs st).1 from holds) spares first
    exact lasting.trans (lasting_same resize_same.data resize_same.pin)
  · cases run

theorem lasting_delete (spares : SparesFile cfg item.address st.1) :
    Lasting st.1 (through medium refused (commonDelete cfg item) st).2.1 := by
  rw [commonDelete_run]
  have listed : (through medium refused (getAllChunks cfg item.address) (undirected item.address st)).1 =
      chunksOf cfg item.address st.1 :=
    through_quiet_local medium refused (quiet_getAllChunks cfg item.address) _ _
  have quiet := through_quiet medium refused (quiet_getAllChunks cfg item.address) (undirected item.address st)
  have same : (undirected item.address st).1 = st.1 := rfl
  rw [← same] at holds spares listed ⊢
  have rest : ∀ c : Int, Only [.transfer,.gcSize] (do
      setRemoveTransfer item.address
      incGCSizeInBatch c
      commit) := fun c =>
    only_bind (only_deleteInBatch (by decide))
      (fun _ => only_bind (only_mono staged_incGCSize.only (by decide)) (fun _ => writes_commit))
  unfold setRemoveAll
  rw [bind_eq]
  rcases through_bind_cases with
    ⟨e,mid,walked,ended⟩ | ⟨chunks,mid,walked,ended⟩ <;>
    rw [ended] <;> rw [walked] at quiet listed <;> simp only at quiet <;> subst quiet
  · exact lasting_same rfl rfl
  rw [bind_eq]
  rcases through_bind_cases with
    ⟨e,last,first,ended⟩ | ⟨c,last,first,ended⟩ <;> rw [ended]
  · exact lasting_removeChunks holds (spares chunks listed.symm) first
  · have lasting := lasting_removeChunks holds (spares chunks listed.symm) first
    exact lasting.trans (lasting_same (kept_data (rest c) rfl (by decide)) (kept_pin (rest c) rfl (by decide)))

theorem lasting_gcFiles {items : List Item} (spares : SparesFiles cfg items st)
    (run : gcFiles cfg .wiredtiger items st = some st') : Lasting st.1 st'.1 := by
  induction items generalizing st with
  | nil =>
    cases run
    exact lasting_same rfl rfl
  | cons item items ih =>
    have deleted := lasting_delete cfg holds spares.1
    simp only [gcFiles] at run
    split at run
    · cases run
    · exact deleted.trans (ih (deleted.sound holds) spares.2 run)

/-! ### Whole histories -/

end

/-- What an event may do: pins move as counted, and what is pinned keeps its data. -/
structure Moved (up down : Address → Nat) (s s' : Store) : Prop where
  sound : Sound s'
  pins : ∀ c, pins s' c + down c = pins s c + up c
  data : ∀ c v, (s.pinIndex.lookup c).isSome → s.retrievalDataIndex.lookup c = some v →
    ∃ v', s'.retrievalDataIndex.lookup c = some v' ∧ v'.data = v.data

theorem Grown.moved {up down : Address → Nat} (grown : Grown up down s s') : Moved up down s s' :=
  ⟨grown.sound,grown.pins,fun c v _ => grown.data c v⟩

theorem Lasting.moved (lasting : Lasting s s') (holds : Sound s) : Moved (fun _ => 0) (fun _ => 0) s s' :=
  ⟨lasting.sound holds,fun c => by simp only [Survival.pins,lasting.pin],lasting.data⟩

theorem moved_call {c : Call} {exist : List Bool} (holds : Sound st.1) (spares : SparesPinned cfg (.call c) st)
    (run : through medium refused (c.op cfg) st = (.ok exist,st')) :
    Moved (fun a => raises st.1 a (.call c)) (fun a => lowers a (.call c)) st.1 st'.1 := by
  cases c with
  | put mode root chs =>
    simp only [Call.op] at run
    rw [put_run refused_accepting] at run
    split at run
    · next first =>
      cases run
      have grown := grown_putChunks cfg (show Sound (recordDirty (chs.map (·.address)) st).1 from holds) first
      exact (grown_indexes (finished_same _ _ _) grown).moved
    · cases run
  | set mode root addrs =>
    obtain ⟨_,_,run,last⟩ := through_bind_ok run
    cases last
    cases mode with
    | remove => exact (lasting_set cfg holds spares run).moved holds
    | sync => exact (grown_set cfg (show ModeSet.sync ≠ .remove from nofun) holds run).moved
    | pin => exact (grown_set cfg (show ModeSet.pin ≠ .remove from nofun) holds run).moved
    | unpin => exact (grown_set cfg (show ModeSet.unpin ≠ .remove from nofun) holds run).moved
  | updateGC item =>
    obtain ⟨_,_,run,last⟩ := through_bind_ok run
    cases last
    exact (grown_only (only_updateGC cfg item) run holds (by decide) (by decide)).moved
  | deleteFile root =>
    obtain ⟨_,_,run,last⟩ := through_bind_ok run
    cases last
    have lasting := lasting_delete cfg holds (show SparesFile cfg (addressToItem root).address st.1 from spares)
    unfold DeleteFile at run
    rw [run] at lasting
    exact lasting.moved holds

theorem moved_event {e : Event} (holds : Sound st.1) (spares : SparesPinned cfg e st)
    (run : happen cfg .wiredtiger e st = some st') :
    Moved (fun c => raises st.1 c e) (fun c => lowers c e) st.1 st'.1 := by
  cases e with
  | call c =>
    simp only [happen] at run
    split at run
    · next done =>
      cases run
      exact moved_call cfg holds spares done
    · cases run
  | collect entries =>
    simp only [happen] at run
    split at run
    · obtain ⟨mid,files,rfl⟩ := Option.map_eq_some_iff.mp run
      have lasting := lasting_gcFiles cfg (show Sound (startGC st).1 from holds) spares files
      exact (lasting.trans (lasting_same rfl rfl)).moved holds
    · cases run

/-- The pins are what the ledger says, and so is the data of what they protect. -/
structure Guarded (g : Ledger) (s : Store) : Prop where
  sound : Sound s
  balance : ∀ c, pins s c + g.lowered c = g.raised c
  held : ∀ c, g.Protects c → ∃ v, s.retrievalDataIndex.lookup c = some v ∧ g.data c = some v.data

theorem Guarded.pinned {g : Ledger} (guarded : Guarded g s) (c : Address) :
    g.Protects c ↔ (s.pinIndex.lookup c).isSome := by
  have balance := guarded.balance c
  unfold Ledger.Protects
  cases pin : s.pinIndex.lookup c with
  | none =>
    simp only [pins,pin,Option.getD_none] at balance
    simp only [Option.isSome_none,Bool.false_eq_true,iff_false]
    omega
  | some n =>
    have positive := guarded.sound.positive c n pin
    simp only [pins,pin,Option.getD_some] at balance
    simp only [Option.isSome_some,iff_true]
    omega

theorem Guarded.enter {g : Ledger} {e : Event} (guarded : Guarded g s)
    (moved : Moved (fun c => raises s c e) (fun c => lowers c e) s s') : Guarded (g.enter e s s') s' where
  sound := moved.sound
  balance c := by
    have before := guarded.balance c
    have step := moved.pins c
    simp only [Ledger.enter]
    omega
  held c protects := by
    by_cases before : g.Protects c
    · obtain ⟨v,held,data⟩ := guarded.held c before
      obtain ⟨v',held',same⟩ := moved.data c v ((guarded.pinned c).mp before) held
      exact ⟨v',held',by simp [Ledger.enter,before,data,same]⟩
    -- The event pinned the chunk, and pins are on stored chunks.
    have pinned : (s'.pinIndex.lookup c).isSome := by
      have step := moved.pins c
      simp only [Ledger.Protects,Ledger.enter] at protects before
      by_contra none
      simp only [pins,Option.not_isSome_iff_eq_none.mp none,Option.getD_none] at step
      omega
    obtain ⟨n,pin⟩ := Option.isSome_iff_exists.mp pinned
    obtain ⟨v,held⟩ := Option.isSome_iff_exists.mp (moved.sound.stored c n pin)
    exact ⟨v,held,by simp [Ledger.enter,before,held]⟩

theorem guarded_play {events : List Event} {g g' : Ledger} (guarded : Guarded g st.1)
    (spared : AllSpare cfg events st) (played : play cfg .wiredtiger events (g,st) = some (g',st')) :
    Guarded g' st'.1 := by
  induction events generalizing g st with
  | nil =>
    cases played
    exact guarded
  | cons e events ih =>
    simp only [play] at played
    cases happened : happen cfg .wiredtiger e st with
    | none => simp only [happened] at played; cases played
    | some mid =>
      simp only [happened] at played
      have moved := moved_event cfg guarded.sound spared.1 happened
      exact ih (guarded.enter moved) (spared.2 mid happened) played

/-- In every history of calls that succeed and of collections, if each removal
    finds more references to a pinned chunk than it releases, then a chunk that
    was pinned more often than unpinned is stored with its data. -/
theorem pinned_stored (events : List Event) (l : Local) (g : Ledger) (st : Store × Local)
    (spared : AllSpare cfg events ({},l)) (played : play cfg .wiredtiger events ({},({},l)) = some (g,st))
    (c : Address) (protects : g.Protects c) :
    ∃ v, st.1.retrievalDataIndex.lookup c = some v ∧ g.data c = some v.data := by
  have start : Guarded {} ({} : Store) := by
    refine ⟨⟨nofun,nofun,nofun⟩,fun c => rfl,fun c protects => ?_⟩
    simp [Ledger.Protects] at protects
  exact (guarded_play cfg (show Guarded {} (({},l) : Store × Local).1 from start) spared played).held c protects

end

/-- A chunk is uploaded some times and pinned, and then one reference is released. -/
def pinAndRemove (uploads : Nat) : List Event :=
  [.call (.put .upload (sample 1).address (List.replicate uploads (sample 1))),
    .call (.set .pin (sample 1).address [(sample 1).address]),
    .call (.set .remove (sample 1).address [(sample 1).address])]

theorem allSpare_twice : AllSpare steady (pinAndRemove 2) ({},{}) := by
  refine ⟨trivial,fun st₁ first => ⟨trivial,fun st₂ second => ⟨?_,fun _ _ => trivial⟩⟩⟩
  cases first
  cases second
  unfold SparesPinned Spares
  decide +kernel

theorem pinned_stored_twice :
    AllSpare steady (pinAndRemove 2) ({},{}) ∧ ∃ r v, play steady .wiredtiger (pinAndRemove 2) ({},({},{})) = some r ∧
      r.1.Protects (sample 1).address ∧ r.2.1.retrievalDataIndex.lookup (sample 1).address = some v ∧
        r.1.data (sample 1).address = some v.data := by
  refine ⟨allSpare_twice,?_⟩
  have kept : (play steady .wiredtiger (pinAndRemove 2) ({},({},{}))).any
      (fun r => r.1.Protects (sample 1).address) = true := by
    decide +kernel
  cases played : play steady .wiredtiger (pinAndRemove 2) ({},({},{})) with
  | none => rw [played] at kept; cases kept
  | some r =>
    rw [played] at kept
    have protects := of_decide_eq_true kept
    obtain ⟨v,held,data⟩ := pinned_stored steady (pinAndRemove 2) {} r.1 r.2 allSpare_twice played _ protects
    exact ⟨r,v,rfl,protects,held,data⟩

theorem pinned_lost :
    ((play steady .wiredtiger (pinAndRemove 1) ({},({},{}))).map fun r =>
      (r.1.raised (sample 1).address,r.1.lowered (sample 1).address,
        r.2.1.retrievalDataIndex.lookup (sample 1).address)) = some (1,0,none) := by
  decide +kernel

end FavorX.Survival

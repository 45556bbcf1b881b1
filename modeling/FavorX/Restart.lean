import FavorX.Announcements
import FavorX.Texts

/-!
A restart of the chunk store, which reads the keys of the state store back (`init`).
It answers as before exactly when no root is left without a vector, and every
discovered vector was first put in the second in which it is loaded again
(`restart_iff`).
-/
namespace FavorX.Restart
open FiniteMaps Shed Texts Presence Announcements

abbrev Key := List Char

def keyPrefix : ChunkType → Key
  | .discover => ['d','i','s','c','o','v','e','r']
  | .service => ['c','h','u','n','k']
  | .source => ['s','o','u','r','c','e']

def generateKey (keyPrefix : Key) (rootCid overlay : Address) : Key :=
  keyPrefix ++ ['-'] ++ encodeToString rootCid ++ ['-'] ++ encodeToString overlay

/-- The root and the overlay of a key. A key with fewer parts panics. -/
def unmarshalKey (key : Key) : Except Err (Address × Address) :=
  match key.splitOn '-' with
  | _ :: r :: o :: _ =>
    match decodeString r with
    | none => .error .invalidArgument
    | some rootCid =>
      match decodeString o with
      | none => .error .invalidArgument
      | some overlay => .ok (rootCid,overlay)
  | _ => .error .panicked

theorem dash_notMem {b : Address} : '-' ∉ encodeToString b := notMem_encodeToString (by decide) b

variable (t : ChunkType) (rootCid overlay : Address) (clock : Key → Int)

theorem splitOn_generateKey :
    (generateKey (keyPrefix t) rootCid overlay).splitOn '-' =
      [keyPrefix t,encodeToString rootCid,encodeToString overlay] := by
  have joined : generateKey (keyPrefix t) rootCid overlay =
      ['-'].intercalate [keyPrefix t,encodeToString rootCid,encodeToString overlay] := by simp [generateKey,List.intercalate]
  rw [joined]
  apply List.splitOn_intercalate
  · intro part member
    simp only [List.mem_cons,List.not_mem_nil,or_false] at member
    rcases member with rfl | rfl | rfl
    · cases t <;> decide
    · exact dash_notMem
    · exact dash_notMem
  · simp

theorem keyPrefix_injective : Function.Injective keyPrefix := by
  intro t u same
  cases t <;> cases u <;> first | rfl | (exfalso; revert same; decide)

theorem generateKey_injective {t u : ChunkType} {r r' o o' : Address}
    (same : generateKey (keyPrefix t) r o = generateKey (keyPrefix u) r' o') : t = u ∧ r = r' ∧ o = o' := by
  have parts := congrArg (List.splitOn '-') same
  rw [splitOn_generateKey,splitOn_generateKey] at parts
  simp only [List.cons.injEq,and_true] at parts
  exact ⟨keyPrefix_injective parts.1,encodeToString_injective parts.2.1,encodeToString_injective parts.2.2⟩

theorem keyPrefix_generateKey (t u : ChunkType) (r o : Address) :
    (keyPrefix t).isPrefixOf (generateKey (keyPrefix u) r o) = decide (t = u) := by
  cases t <;> cases u <;> simp [generateKey,keyPrefix,List.isPrefixOf]

def flat (m : Map (ChunkType × Address × Address) BitVector) : Multiset (Key × BitVector) :=
  m.entries.map (fun e => (generateKey (keyPrefix e.1.1) e.1.2.1 e.1.2.2,e.2))

/-- Load one vector. Only discovered vectors have a time, that of the loading. -/
def putInit (cs : Chunkstore) (t : ChunkType) (now : Int) (rootCid overlay : Address) (b : Bytes) (len : Int) :
    Chunkstore :=
  if cs.has t rootCid overlay then cs
  else
    match BitVector.newFromBytes b len with
    | .error _ => cs
    | .ok bv =>
      let v := ((cs.vectors t).lookup rootCid).getD ∅
      cs.setVectors ((cs.vectors t).insert rootCid (v.insert overlay ⟨bv,if t = .discover then now else 0⟩)) t

/-- Load the vectors of one kind, in the order in which the state store yields
    its entries. The clock tells when each key is loaded. -/
def initKind (clock : Key → Int) (t : ChunkType) : List (Key × BitVector) → Chunkstore → Except Err Chunkstore
  | [], cs => .ok cs
  | (k,vb) :: order, cs =>
    if (keyPrefix t).isPrefixOf k then
      match unmarshalKey k with
      | .error e => .error e
      | .ok (rootCid,overlay) => initKind clock t order (putInit cs t (clock k) rootCid overlay vb.b vb.len)
    else initKind clock t order cs

def init (clock : Key → Int) (order : List (Key × BitVector)) (cs : Chunkstore) : Except Err Chunkstore := do
  let cs ← initKind clock .service order cs
  let cs ← initKind clock .discover order cs
  initKind clock .source order cs

def Loads (bv : BitVector) : Prop := 0 < bv.len ∧ bv.len ≤ bv.b.length * 8

variable {bv : BitVector}

theorem newFromBytes_loads {b : Bytes} {l : Int} (made : BitVector.newFromBytes b l = .ok bv) : Loads bv := by
  unfold BitVector.newFromBytes at made
  split at made
  · cases made
  next positive =>
  split at made
  · cases made
  next wide =>
  have positive : 0 < l := by omega
  cases made
  exact ⟨positive,by simpa using wide⟩

theorem newFromBytes_of_loads (loads : Loads bv) : BitVector.newFromBytes bv.b bv.len = .ok bv := by
  have positive : ¬ bv.len ≤ 0 := by have := loads.1; omega
  have wide : ¬ (bv.b.length * 8 : Int) < bv.len := by have := loads.2; omega
  simp [BitVector.newFromBytes,positive,wide]

theorem new_loads {l : Int} (made : BitVector.new l = .ok bv) : Loads bv := by
  simp only [BitVector.new] at made
  split at made
  · split at made
    · cases made
    · exact newFromBytes_loads made
  · split at made
    · cases made
    · exact newFromBytes_loads made

theorem set_keeps {bv' : BitVector} {i : Int} {v : Bool} (set : bv.set i v = .ok bv') :
    bv'.len = bv.len ∧ bv'.b.length = bv.b.length := by
  unfold BitVector.set at set
  cases read : bv.get i with
  | error e =>
    rw [read] at set
    cases set
  | ok cv =>
    rw [read] at set
    simp only [bind,Except.bind] at set
    split at set
    · cases set
      exact ⟨rfl,rfl⟩
    · cases set
      exact ⟨rfl,List.length_modify ..⟩

theorem setBytes_keeps {bv' : BitVector} {bs : Bytes} (set : bv.setBytes bs = .ok bv') :
    bv'.len = bv.len ∧ bv'.b.length = bv.b.length := by
  by_cases fits : bs.length ≤ bv.b.length
  · obtain ⟨made,equal,len,length,_⟩ := setBytes_fits fits
    rw [set,Except.ok.injEq] at equal
    rw [equal]
    exact ⟨len,length⟩
  · have long : bv.b.length < bs.length := by omega
    simp only [BitVector.setBytes,long,if_true] at set
    cases set

theorem Loads.same {bv' : BitVector} (loads : Loads bv) (same : bv'.len = bv.len ∧ bv'.b.length = bv.b.length) :
    Loads bv' := by
  unfold Loads
  rw [same.1,same.2]
  exact loads

theorem putDiscover_loads {m : Vectors} {now : Int} {r o : Address} {b : Bytes} {len : Int} {e : Entry}
    (known : ∀ e, vectorAt m r o = some e → Loads e.bit) (put : putDiscover m now r o b len = .ok e) : Loads e.bit := by
  unfold putDiscover at put
  split at put
  · next data found =>
    split at put
    · obtain ⟨bv,made,put⟩ := bind_ok put
      obtain ⟨bv',copied,put⟩ := bind_ok put
      cases put
      exact (newFromBytes_loads made).same (setBytes_keeps copied)
    · obtain ⟨bv',copied,put⟩ := bind_ok put
      cases put
      exact (known data found).same (setBytes_keeps copied)
  · obtain ⟨bv,made,put⟩ := bind_ok put
    cases put
    exact newFromBytes_loads made

theorem putBit_loads {m : Vectors} {r o : Address} {bit len : Int} {e : Entry}
    (known : ∀ e, vectorAt m r o = some e → Loads e.bit) (put : putBit m r o bit len = .ok (some e)) :
    Loads e.bit ∧ e.time = 0 :=
  putBit_rule (fun _ => new_loads) (fun _ _ _ _ loads copied => loads.same (setBytes_keeps copied))
    (fun _ _ loads set => loads.same (set_keeps set)) known put

variable {cs : Chunkstore}

theorem newVector_loads {now : Int} {t : ChunkType} {reference : Address} {p : Provider} {e : Entry}
    (known : ∀ e, vectorAt (cs.vectors t) reference p.overlay = some e → Loads e.bit)
    (made : cs.newVector now t reference p = .ok (some e)) : Loads e.bit ∧ (t ≠ .discover → e.time = 0) := by
  cases t with
  | discover =>
    simp only [Chunkstore.newVector] at made
    cases put : putDiscover cs.discover now reference p.overlay p.b p.len with
    | error _ =>
      rw [put] at made
      cases made
    | ok data =>
      rw [put] at made
      cases made
      exact ⟨putDiscover_loads known put,fun other => absurd rfl other⟩
  | service | source =>
    have both := putBit_loads known made
    exact ⟨both.1,fun _ => both.2⟩

/-- The state store holds exactly the vectors of the maps, and each of them can
    be loaded again. Only discovered vectors have a time. -/
structure Mirrored (cs : Chunkstore) : Prop where
  held : ∀ t r o, cs.stateStore.lookup (t,r,o) = (vectorAt (cs.vectors t) r o).map Entry.bit
  loads : ∀ t r o e, vectorAt (cs.vectors t) r o = some e → Loads e.bit
  untimed : ∀ t r o e, vectorAt (cs.vectors t) r o = some e → t ≠ .discover → e.time = 0

theorem mirrored_store (mirrored : Mirrored cs) {t : ChunkType} {reference overlay : Address} {data : Entry}
    (loads : Loads data.bit) (untimed : t ≠ .discover → data.time = 0) :
    Mirrored (cs.store t reference overlay data) := by
  constructor
  · intro u r o
    rw [Chunkstore.stateStore_store,lookup_insert_eq,Chunkstore.vectorAt_store,mirrored.held]
    simp only [Prod.mk.injEq]
    split <;> rfl
  · intro u r o e found
    rw [Chunkstore.vectorAt_store] at found
    split at found
    · cases found
      exact loads
    · exact mirrored.loads u r o e found
  intro u r o e found kind
  rw [Chunkstore.vectorAt_store] at found
  split at found
  · next here =>
    cases found
    exact untimed (by rw [← here.1]; exact kind)
  · exact mirrored.untimed u r o e found kind

theorem mirrored_put (now : Int) (t : ChunkType) {reference : Address} {providers : List Provider}
    (mirrored : Mirrored cs) : Mirrored (cs.put now t reference providers).2 := by
  refine Chunkstore.put_rule (fun cs p data mirrored made => ?_) providers mirrored
  have new := newVector_loads (mirrored.loads t reference p.overlay) made
  exact mirrored_store mirrored new.1 new.2

theorem mirrored_remove (reference overlay : Address) (mirrored : Mirrored cs) :
    Mirrored (cs.remove t reference overlay) := by
  constructor
  · intro u r o
    rw [Chunkstore.vectorAt_remove]
    have state : (cs.remove t reference overlay).stateStore.lookup (u,r,o) =
        if u = t ∧ r = reference ∧ o = overlay then none else cs.stateStore.lookup (u,r,o) := by
      unfold Chunkstore.remove
      split
      · next absent =>
        split
        · next here => rw [here.1,here.2.1,here.2.2,mirrored.held,absent]; rfl
        · rfl
      · simp [lookup_erase_eq]
    rw [state,mirrored.held]
    split <;> rfl
  · intro u r o e found
    rw [Chunkstore.vectorAt_remove] at found
    split at found
    · cases found
    · exact mirrored.loads u r o e found
  intro u r o e found
  rw [Chunkstore.vectorAt_remove] at found
  split at found
  · cases found
  · exact mirrored.untimed u r o e found

theorem lookup_eraseAll (v : Map Address Entry) (t u : ChunkType) (reference r o : Address)
    (m : Map (ChunkType × Address × Address) BitVector) :
    (v.foldl (fun m o _ => m.erase (t,reference,o)) (fun _ _ _ _ _ => Finmap.erase_erase) m).lookup (u,r,o) =
      if u = t ∧ r = reference ∧ (v.lookup o).isSome then none else m.lookup (u,r,o) := by
  induction v using Finmap.induction_on with
  | H a =>
    have listed : ∀ (l : List (Σ _ : Address, Entry)) (m : Map (ChunkType × Address × Address) BitVector),
        (l.foldl (fun m e => m.erase (t,reference,e.1)) m).lookup (u,r,o) =
          if u = t ∧ r = reference ∧ o ∈ l.map Sigma.fst then none else m.lookup (u,r,o) := by
      intro l
      induction l with
      | nil => simp
      | cons e l ih =>
        intro m
        rw [List.foldl_cons,ih,lookup_erase_eq]
        by_cases root : u = t ∧ r = reference
        · simp only [root,true_and,List.map_cons,List.mem_cons]
          by_cases first : o = e.1
          · simp [first,ite_self]
          · simp only [first,Prod.mk.injEq,true_and,false_or,if_false]
        have kept : ¬ (u = t ∧ r = reference ∧ o = e.1) := fun all => root ⟨all.1,all.2.1⟩
        have absent : ¬ (u = t ∧ r = reference ∧ o ∈ l.map Sigma.fst) := fun all => root ⟨all.1,all.2.1⟩
        have all : ¬ (u = t ∧ r = reference ∧ o ∈ (e :: l).map Sigma.fst) := fun all => root ⟨all.1,all.2.1⟩
        rw [if_neg absent,if_neg all]
        simp [kept]
    have known : (Finmap.lookup o a.toFinmap).isSome ↔ o ∈ a.entries.map Sigma.fst := by
      rw [Finmap.lookup_toFinmap,AList.lookup_isSome]
      rfl
    simp only [known]
    exact listed a.entries m

theorem mirrored_removeAll {reference : Address} (mirrored : Mirrored cs) : Mirrored (cs.removeAll t reference) := by
  constructor
  · intro u r o
    rw [Chunkstore.vectorAt_removeAll]
    have state : (cs.removeAll t reference).stateStore.lookup (u,r,o) =
        if u = t ∧ r = reference then none else cs.stateStore.lookup (u,r,o) := by
      unfold Chunkstore.removeAll
      split
      · next absent =>
        split
        · next here =>
          rw [here.1,here.2,mirrored.held]
          simp [vectorAt,absent]
        · rfl
      next v found =>
      rw [lookup_eraseAll]
      by_cases here : u = t ∧ r = reference
      · obtain ⟨rfl,rfl⟩ := here
        cases known : v.lookup o with
        | none =>
          have absent := mirrored.held u r o
          simp [vectorAt,found,known] at absent
          simp [absent]
        | some e => simp
      · have kept : ¬ (u = t ∧ r = reference ∧ (v.lookup o).isSome) := fun all => here ⟨all.1,all.2.1⟩
        rw [if_neg here,if_neg kept]
    rw [state,mirrored.held]
    split <;> rfl
  · intro u r o e found
    rw [Chunkstore.vectorAt_removeAll] at found
    split at found
    · cases found
    · exact mirrored.loads u r o e found
  intro u r o e found
  rw [Chunkstore.vectorAt_removeAll] at found
  split at found
  · cases found
  · exact mirrored.untimed u r o e found

theorem mirrored_run (ops : List Op) (mirrored : Mirrored cs) : Mirrored (cs.run ops) := by
  induction ops generalizing cs with
  | nil => exact mirrored
  | cons op ops ih =>
    apply ih
    cases op with
    | put now t reference providers => exact mirrored_put now t mirrored
    | remove t reference overlay => exact mirrored_remove t reference overlay mirrored
    | removeAll t reference => exact mirrored_removeAll t mirrored

theorem mirrored_new : Mirrored {} := by
  constructor
  · intro t r o
    cases t <;> simp [vectorAt,Chunkstore.vectors]
  · intro t r o e found
    cases t <;> simp [vectorAt,Chunkstore.vectors] at found
  · intro t r o e found
    cases t <;> simp [vectorAt,Chunkstore.vectors] at found

def NoneEmpty (m : Vectors) : Prop := ∀ r v, m.lookup r = some v → v ≠ ∅

theorem lookup_of_vectorAt {m m' : Vectors} (full : NoneEmpty m) (full' : NoneEmpty m')
    (same : ∀ r o, vectorAt m r o = vectorAt m' r o) (r : Address) : m.lookup r = m'.lookup r := by
  have some_of : ∀ {m m' : Vectors}, NoneEmpty m → (∀ r o, vectorAt m r o = vectorAt m' r o) → ∀ v,
      m.lookup r = some v → m'.lookup r = some v := by
    intro m m' full same v found
    have vectors : ∀ o, v.lookup o = vectorAt m' r o := by
      intro o
      rw [← same r o]
      simp [vectorAt,found]
    cases known : m'.lookup r with
    | none =>
      exfalso
      apply full r v found
      apply Finmap.ext_lookup
      intro o
      rw [vectors o]
      simp [vectorAt,known]
    | some v' =>
      congr 1
      apply Finmap.ext_lookup
      intro o
      rw [vectors o]
      simp [vectorAt,known]
  cases left : m.lookup r with
  | some v => exact (some_of full same v left).symm
  | none =>
    cases right : m'.lookup r with
    | none => rfl
    | some v =>
      have back := some_of full' (fun r o => (same r o).symm) v right
      rw [left] at back
      cases back

def loaded (clock : Key → Int) (t : ChunkType) (r o : Address) (bv : BitVector) : Entry :=
  ⟨bv,if t = .discover then clock (generateKey (keyPrefix t) r o) else 0⟩

/-- Loading one vector that can be loaded: it is kept unless there was one. -/
theorem putInit_loads (cs : Chunkstore) (t : ChunkType) (rootCid overlay : Address) (loads : Loads bv) :
    (∀ u r o, vectorAt ((putInit cs t (clock (generateKey (keyPrefix t) rootCid overlay)) rootCid overlay
        bv.b bv.len).vectors u) r o = if u = t ∧ r = rootCid ∧ o = overlay then
        (vectorAt (cs.vectors u) r o).or (some (loaded clock t r o bv)) else vectorAt (cs.vectors u) r o) ∧
      ((∀ u, NoneEmpty (cs.vectors u)) → ∀ u, NoneEmpty ((putInit cs t
        (clock (generateKey (keyPrefix t) rootCid overlay)) rootCid overlay bv.b bv.len).vectors u)) := by
  unfold putInit
  rw [newFromBytes_of_loads loads]
  cases known : vectorAt (cs.vectors t) rootCid overlay with
  | some e =>
    have has : cs.has t rootCid overlay = true := by simp [Chunkstore.has,known]
    rw [if_pos has]
    refine ⟨?_,id⟩
    intro u r o
    split
    · next here =>
      rw [here.1,here.2.1,here.2.2,known]
      rfl
    · rfl
  | none =>
    have fresh : ¬ cs.has t rootCid overlay = true := by simp [Chunkstore.has,known]
    rw [if_neg fresh]
    simp only [Chunkstore.vectors_setVectors]
    constructor
    · intro u r o
      by_cases kind : u = t
      · subst kind
        simp only [if_true,vectorAt_insert,true_and]
        split
        · next here =>
          rw [here.1,here.2,known]
          rfl
        · rfl
      · simp [kind]
    intro full u r v found
    by_cases kind : u = t
    · subst kind
      simp only [if_true,lookup_insert_eq] at found
      split at found
      · cases found
        intro empty
        have inside := congrArg (Finmap.lookup overlay) empty
        rw [Finmap.lookup_insert] at inside
        cases inside
      · exact full u r v found
    · simp only [kind,if_false] at found
      exact full u r v found

theorem initKind_loads {m : Map (ChunkType × Address × Address) BitVector} (t : ChunkType) :
    ∀ (order : List (Key × BitVector)),
      (∀ kv ∈ order, ∃ u r o, kv.1 = generateKey (keyPrefix u) r o ∧ m.lookup (u,r,o) = some kv.2 ∧ Loads kv.2) →
      ∀ cs : Chunkstore, ∃ cs', initKind clock t order cs = .ok cs' ∧
        (∀ u r o, vectorAt (cs'.vectors u) r o = if u = t ∧ generateKey (keyPrefix t) r o ∈ order.map Prod.fst then
          (vectorAt (cs.vectors u) r o).or ((m.lookup (t,r,o)).map (loaded clock t r o)) else
            vectorAt (cs.vectors u) r o) ∧
        ((∀ u, NoneEmpty (cs.vectors u)) → ∀ u, NoneEmpty (cs'.vectors u)) := by
  intro order
  induction order with
  | nil =>
    intro _ cs
    refine ⟨cs,rfl,?_,id⟩
    simp
  | cons kv order ih =>
    intro entries cs
    obtain ⟨k,vb⟩ := kv
    obtain ⟨kind,rootCid,overlay,key,held,loads⟩ := entries _ (List.mem_cons_self ..)
    simp only at key
    subst key
    have rest := ih (fun kv member => entries kv (List.mem_cons_of_mem _ member))
    simp only [initKind,keyPrefix_generateKey,decide_eq_true_eq,unmarshalKey,splitOn_generateKey,
      decodeString_encodeToString]
    by_cases same : t = kind
    · subst same
      rw [if_pos rfl]
      obtain ⟨here,full⟩ := putInit_loads clock cs t rootCid overlay loads
      obtain ⟨cs',run,vectors,kept⟩ := rest (putInit cs t (clock (generateKey (keyPrefix t) rootCid overlay))
        rootCid overlay vb.b vb.len)
      refine ⟨cs',run,?_,fun all => kept (full all)⟩
      intro u r o
      rw [vectors,here]
      simp only [List.map_cons,List.mem_cons]
      by_cases first : u = t ∧ r = rootCid ∧ o = overlay
      · obtain ⟨rfl,rfl,rfl⟩ := first
        simp only [true_and,true_or,if_true,held,Option.map_some]
        split
        · cases vectorAt (cs.vectors u) r o <;> rfl
        · rfl
      have other : u = t → generateKey (keyPrefix t) r o ≠ generateKey (keyPrefix t) rootCid overlay := by
        intro kind equal
        obtain ⟨_,root,last⟩ := generateKey_injective equal
        exact first ⟨kind,root,last⟩
      rw [if_neg first]
      by_cases kind : u = t
      · simp only [other kind,false_or]
      · simp [kind]
    rw [if_neg same]
    obtain ⟨cs',run,vectors,kept⟩ := rest cs
    refine ⟨cs',run,?_,kept⟩
    intro u r o
    have other : generateKey (keyPrefix t) r o ≠ generateKey (keyPrefix kind) rootCid overlay :=
      fun equal => same (generateKey_injective equal).1
    rw [vectors]
    simp only [List.map_cons,List.mem_cons,other,false_or]

theorem mem_flat {m : Map (ChunkType × Address × Address) BitVector} {kv : Key × BitVector} :
    kv ∈ flat m ↔ ∃ u r o, kv.1 = generateKey (keyPrefix u) r o ∧ m.lookup (u,r,o) = some kv.2 := by
  induction m using Finmap.induction_on with
  | H a =>
    unfold flat
    rw [Multiset.mem_map]
    constructor
    · rintro ⟨⟨⟨u,r,o⟩,v⟩,member,rfl⟩
      exact ⟨u,r,o,rfl,AList.mem_lookup_iff.mpr member⟩
    · rintro ⟨u,r,o,key,held⟩
      refine ⟨⟨(u,r,o),kv.2⟩,AList.mem_lookup_iff.mp held,?_⟩
      rw [← key]

/-- A new chunk store over the state store of a running one loads exactly its
    vectors, discovered ones with the time of the loading. -/
theorem init_loads (mirrored : Mirrored cs) {clock : Key → Int} {order : List (Key × BitVector)}
    (listed : (order : Multiset (Key × BitVector)) = flat cs.stateStore) :
    ∃ fresh, init clock order { stateStore := cs.stateStore } = .ok fresh ∧ (∀ t, NoneEmpty (fresh.vectors t)) ∧
      ∀ t r o, vectorAt (fresh.vectors t) r o =
        (vectorAt (cs.vectors t) r o).map (fun e => loaded clock t r o e.bit) := by
  have entries : ∀ kv ∈ order, ∃ u r o, kv.1 = generateKey (keyPrefix u) r o ∧
      cs.stateStore.lookup (u,r,o) = some kv.2 ∧ Loads kv.2 := by
    intro kv member
    have inside : kv ∈ flat cs.stateStore := by
      rw [← listed]
      exact member
    obtain ⟨u,r,o,key,held⟩ := mem_flat.mp inside
    refine ⟨u,r,o,key,held,?_⟩
    rw [mirrored.held,Option.map_eq_some_iff] at held
    obtain ⟨e,found,bit⟩ := held
    rw [← bit]
    exact mirrored.loads u r o e found
  have keys : ∀ t r o, generateKey (keyPrefix t) r o ∈ order.map Prod.fst ↔ (vectorAt (cs.vectors t) r o).isSome := by
    intro t r o
    rw [List.mem_map]
    constructor
    · rintro ⟨kv,member,key⟩
      obtain ⟨u,r',o',key',held,_⟩ := entries kv member
      obtain ⟨rfl,rfl,rfl⟩ := generateKey_injective (key.symm.trans key')
      rw [mirrored.held] at held
      cases found : vectorAt (cs.vectors t) r o with
      | none =>
        rw [found] at held
        cases held
      | some e => rfl
    intro known
    obtain ⟨e,found⟩ := Option.isSome_iff_exists.mp known
    have held := mirrored.held t r o
    rw [found] at held
    have inside : (generateKey (keyPrefix t) r o,e.bit) ∈ flat cs.stateStore := mem_flat.mpr ⟨t,r,o,rfl,held⟩
    rw [← listed] at inside
    exact ⟨_,inside,rfl⟩
  obtain ⟨first,run1,vectors1,full1⟩ := initKind_loads clock .service order entries
    { stateStore := cs.stateStore }
  obtain ⟨second,run2,vectors2,full2⟩ := initKind_loads clock .discover order entries first
  obtain ⟨third,run3,vectors3,full3⟩ := initKind_loads clock .source order entries second
  refine ⟨third,?_,?_,?_⟩
  · simp only [init,run1,run2,bind,Except.bind,run3]
  · apply full3
    apply full2
    apply full1
    intro u r v found
    cases u <;> simp [Chunkstore.vectors] at found
  intro t r o
  have held := mirrored.held t r o
  rw [vectors3,vectors2,vectors1]
  cases t <;> simp only [keys,reduceCtorEq,false_and,true_and,if_false,held] <;>
    cases vectorAt (cs.vectors _) r o <;> rfl

/-- Two stores answer every question about every key alike. -/
def SameAnswers (cs cs' : Chunkstore) : Prop :=
  ∀ t reference, cs.get t reference = cs'.get t reference ∧
    (∀ overlay, cs.getByOverlay t reference overlay = cs'.getByOverlay t reference overlay ∧
      cs.has t reference overlay = cs'.has t reference overlay) ∧
    ∀ bit r, cs.HasChunk t reference bit r ↔ cs'.HasChunk t reference bit r

/-- A store that a restart does not change: no root is left without a vector,
    and every discovered vector was first put when it is loaded again. -/
def Settled (clock : Key → Int) (cs : Chunkstore) : Prop :=
  (∀ t, NoneEmpty (cs.vectors t)) ∧
    ∀ r o e, vectorAt cs.discover r o = some e → e.time = clock (generateKey (keyPrefix .discover) r o)

theorem sameAnswers_iff (cs cs' : Chunkstore) :
    SameAnswers cs cs' ↔ ∀ t reference, (cs.vectors t).lookup reference = (cs'.vectors t).lookup reference := by
  constructor
  · intro same t reference
    exact (same t reference).1
  intro same t reference
  refine ⟨same t reference,?_,?_⟩
  · simp [Chunkstore.getByOverlay,Chunkstore.has,vectorAt,same t reference]
  · intro bit r
    simp only [Chunkstore.HasChunk,same t reference]

/-- A new chunk store over the state store of one that went through any history
    loads without an error, whatever the order of the entries, and answers alike
    exactly when the running store is settled. -/
theorem restart_iff (ops : List Op) (clock : Key → Int) (order : List (Key × BitVector))
    (listed : (order : Multiset (Key × BitVector)) = flat (({} : Chunkstore).run ops).stateStore) :
    ∃ fresh, init clock order { stateStore := (({} : Chunkstore).run ops).stateStore } = .ok fresh ∧
      (SameAnswers (({} : Chunkstore).run ops) fresh ↔ Settled clock (({} : Chunkstore).run ops)) := by
  have mirrored := mirrored_run ops mirrored_new
  obtain ⟨fresh,run,full,vectors⟩ := init_loads mirrored listed
  refine ⟨fresh,run,?_⟩
  rw [sameAnswers_iff]
  constructor
  · intro same
    constructor
    · intro t r v found
      rw [same] at found
      exact full t r v found
    intro r o e found
    have loadedTo := vectors .discover r o
    have unchanged : vectorAt (fresh.vectors .discover) r o = some e := by
      rw [← found]
      exact (congrArg (fun v => (v.getD ∅).lookup o) (same .discover r)).symm
    rw [unchanged,show vectorAt ((({} : Chunkstore).run ops).vectors .discover) r o = some e from found] at loadedTo
    simp only [Option.map_some,Option.some.injEq] at loadedTo
    rw [loadedTo]
    rfl
  rintro ⟨settled,times⟩ t reference
  apply lookup_of_vectorAt (settled t) (full t)
  intro r o
  rw [vectors]
  cases found : vectorAt ((({} : Chunkstore).run ops).vectors t) r o with
  | none => rfl
  | some e =>
    have time : e.time = if t = .discover then clock (generateKey (keyPrefix t) r o) else 0 := by
      split
      · next kind =>
        subst kind
        exact times r o e found
      · next kind => exact mirrored.untimed t r o e found kind
    simp only [Option.map_some,Option.some.injEq,loaded]
    rw [← time]

def served : List Op := [.put 0 .service [1] [⟨[7],0,1,[]⟩]]

theorem restart_iff_served : ∃ fresh,
    init (fun _ => 5) [(generateKey (keyPrefix .service) [1] [7],⟨1,[1]⟩)]
      { stateStore := (({} : Chunkstore).run served).stateStore } = .ok fresh ∧
    (SameAnswers (({} : Chunkstore).run served) fresh ↔ Settled (fun _ => 5) (({} : Chunkstore).run served)) :=
  restart_iff served (fun _ => 5) [(generateKey (keyPrefix .service) [1] [7],⟨1,[1]⟩)] rfl

/-- After the removal of its only vector the root is still found in the running
    store, with no vectors, and not found after a restart. -/
theorem restart_forgets_root : ∃ fresh,
    init (fun _ => 5) [] { stateStore := (({} : Chunkstore).run (served ++ [.remove .service [1] [7]])).stateStore } =
      .ok fresh ∧
    (([] : List (Key × BitVector)) : Multiset (Key × BitVector)) =
      flat (({} : Chunkstore).run (served ++ [.remove .service [1] [7]])).stateStore ∧
    (({} : Chunkstore).run (served ++ [.remove .service [1] [7]])).get .service [1] = some ∅ ∧
    fresh.get .service [1] = none ∧
    ¬ SameAnswers (({} : Chunkstore).run (served ++ [.remove .service [1] [7]])) fresh := by
  have running : (({} : Chunkstore).run (served ++ [.remove .service [1] [7]])).get .service [1] = some ∅ := rfl
  refine ⟨_,rfl,rfl,running,rfl,?_⟩
  intro same
  have found := (same .service [1]).1
  rw [running] at found
  cases found

end FavorX.Restart

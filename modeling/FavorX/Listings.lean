import FavorX.Joiners
import FavorX.Orders
import FavorX.Texts

/-!
The listing of the file store: files that pass a filter, sorted by a field and cut into pages. Every
call ranges over a map in an order of its own, so the pages fit together exactly when no tie of the
sort lies across the end of a page and no page number overflows into the list (`getList_iff`).
-/
namespace FavorX.Listings
open FiniteMaps Orders
open Shed (Address)
open Presence (FileView Filestore)
open Texts (encodeToString)
open Joiners (int64)

structure Page where
  pageNum : Int
  pageSize : Int

/-- The terms of a filter; every other text passes nothing. -/
inductive Term
  | EQ | NE | GT | GE | IT | LE | IN | CN | NC | HP | HS | other

structure Filter where
  key : String
  term : Term
  value : String

/-- `asc`, no order, or every other text. -/
inductive Order
  | asc | none | other
  deriving DecidableEq

structure SortBy where
  key : String
  order : Order

inductive Field
  | rootCid | hash | pinned | registered | size | type | name | extension | default | errDefault | mimeType
  | referenceLink

/-- What reflection reads from a field. -/
inductive Value
  | address (a : Address)
  | string (s : String)
  | bool (b : Bool)
  | int (i : Int)

def Field.value (file : FileView) : Field → Value
  | .rootCid => .address file.rootCid
  | .hash => .string file.hash
  | .pinned => .bool file.pinned
  | .registered => .bool file.registered
  | .size => .int file.size
  | .type => .string file.type
  | .name => .string file.name
  | .extension => .string file.extension
  | .default => .string file.default
  | .errDefault => .string file.errDefault
  | .mimeType => .string file.mimeType
  | .referenceLink => .string file.referenceLink

/-- A name that is no field makes the access panic, which is recovered. -/
def fieldByName (name : String) : Option Field :=
  [("RootCid",Field.rootCid),("Hash",.hash),("Pinned",.pinned),("Registered",.registered),("Size",.size),("Type",.type),
    ("Name",.name),("Extension",.extension),("Default",.default),("ErrDefault",.errDefault),("MimeType",.mimeType),
    ("ReferenceLink",.referenceLink)].lookup name

def hexString (a : Address) : String := String.ofList (encodeToString a)

/-- `fmt.Sprintf("%v")`. -/
def sprint : Value → String
  | .address a => hexString a
  | .string s => s
  | .bool b => toString b
  | .int i => toString i

/-- Floating point numbers as far as the filter uses them. -/
structure Floats where
  F : Type
  parseFloat : String → Option F
  zero : F
  one : F
  lt : F → F → Bool
  le : F → F → Bool

/-- What comes from other libraries: floating point numbers, title casing and `sort.Slice`, which asks nothing but
the comparison. -/
structure Library where
  floats : Floats
  title : String → String
  sortSlice : Sorter FileView

section
variable (lib : Library)

def toFloat : Value → Option lib.floats.F
  | .int i => lib.floats.parseFloat (toString i)
  | .string s => lib.floats.parseFloat s
  | .bool b => some (if b then lib.floats.one else lib.floats.zero)
  | .address _ => none

/-- Compare a field with the number of the filter. -/
def compareFloat (compare : lib.floats.F → lib.floats.F → Bool) (data : Value) (value : String) : Bool :=
  match lib.floats.parseFloat value with
  | none => false
  | some value =>
    match toFloat lib data with
    | none => false
    | some f => compare f value

def filterCalculate (data : Value) (filter : Filter) : Bool :=
  match filter.term with
  | .EQ => sprint data == filter.value
  | .NE => sprint data != filter.value
  | .GT => compareFloat lib (fun f value => lib.floats.lt value f) data filter.value
  | .GE => compareFloat lib (fun f value => lib.floats.le value f) data filter.value
  | .IT => compareFloat lib lib.floats.lt data filter.value
  | .LE => compareFloat lib lib.floats.le data filter.value
  | .IN =>
    match filter.value.toList.splitOn ',' with
    | [star,stop] =>
      compareFloat lib (fun f star => lib.floats.le star f) data (String.ofList star) &&
        compareFloat lib lib.floats.le data (String.ofList stop)
    | _ => false
  | .CN => decide (filter.value.toList <:+: (sprint data).toList)
  | .NC => !decide (filter.value.toList <:+: (sprint data).toList)
  | .HP => filter.value.toList.isPrefixOf (sprint data).toList
  | .HS => filter.value.toList.isSuffixOf (sprint data).toList
  | .other => false

def filterFunc (file : FileView) (filter : Filter) : Bool :=
  match fieldByName (lib.title filter.key) with
  | none => false
  | some field => filterCalculate lib (field.value file) filter

def passes (filters : List Filter) (file : FileView) : Bool := !filters.any (fun f => !filterFunc lib file f)

/-- The files that the map gives, in its order, without those that a filter drops. -/
def filterFile (list : List FileView) (filters : List Filter) : List FileView := list.filter (passes lib filters)

/-- Texts are always sorted from the last to the first. -/
def sortFunc (frontValue backValue : Value) (order : Order) : Bool :=
  match frontValue, backValue with
  | .string f, .string b => decide (b < f)
  | .address f, .address b =>
    if order = .asc then decide (hexString f < hexString b) else decide (hexString b < hexString f)
  | .int f, .int b => if order = .asc then decide (f < b) else decide (b < f)
  | .bool f, .bool b => if order = .asc then decide (f.toNat < b.toNat) else decide (b.toNat < f.toNat)
  | _, _ => false

/-- The comparison of two files; it is false where the field is missing. -/
def less (sort : SortBy) (front back : FileView) : Bool :=
  match fieldByName (lib.title sort.key) with
  | none => false
  | some field => sortFunc (field.value front) (field.value back) sort.order

def sortFile (list : List FileView) (sort : SortBy) : List FileView :=
  if sort.key ≠ "" ∧ sort.order ≠ .none then lib.sortSlice.run (less lib sort) list else list

/-- A part of a slice; bounds that do not fit panic. -/
def slice (list : List FileView) (low high : Int) : Option (List FileView) :=
  if 0 ≤ low ∧ low ≤ high ∧ high ≤ list.length then some ((list.take high.toNat).drop low.toNat) else none

/-- A negative start panics whether or not the length minus it overflows. -/
def pageFile (list : List FileView) (page : Page) : Option (List FileView) :=
  if list.length = 0 then some list
  else if page.pageNum = 0 ∨ page.pageSize = 0 then some list
  else
    let start := int64 (page.pageSize * (page.pageNum - 1))
    if page.pageSize ≤ list.length - start then slice list start (start + page.pageSize)
    else if list.length < start then some []
    else slice list start list.length

/-- The page and the number of files that pass, where `range` is how the call ranges over the files. -/
def getList (range : List FileView) (page : Page) (filters : List Filter) (sort : SortBy) :
    Option (List FileView × Nat) := do
  let ff := filterFile lib range filters
  let sf := sortFile lib ff sort
  let pf ← pageFile sf page
  return (pf,ff.length)

end

def Ranges (fs : Filestore) (range : List FileView) : Prop := (range : Multiset FileView) = fs.files.entries.map (·.2)

def Keyed (fs : Filestore) : Prop := ∀ {k file}, fs.get k = some file → file.rootCid = k

theorem keyed_empty : Keyed {} := by
  intro k file found
  cases found

variable {fs : Filestore}

theorem keyed_put (keyed : Keyed fs) {file : FileView} : Keyed (fs.put file) := by
  intro k other found
  rw [Filestore.get,Filestore.put,lookup_insert_eq] at found
  split at found
  · next same =>
    cases found
    exact same.symm
  · exact keyed found

theorem keyed_delete (keyed : Keyed fs) {reference : Address} : Keyed (fs.delete reference) := by
  intro k other found
  rw [Filestore.delete] at found
  split at found
  · rw [Filestore.get,lookup_erase_eq] at found
    split at found
    · cases found
    · exact keyed found
  · exact keyed found

variable {range : List FileView}

theorem nodup_range (keyed : Keyed fs) (ranges : Ranges fs range) : range.Nodup := by
  have apart : (fs.files.entries.map (·.2)).Nodup := by
    refine Multiset.Nodup.map_on ?_ fs.files.nodup_entries
    rintro ⟨k,file⟩ first ⟨k',file'⟩ second same
    subst same
    have here := keyed (Finmap.mem_lookup_iff.mpr first)
    have there := keyed (Finmap.mem_lookup_iff.mpr second)
    rw [← here,← there]
  rw [← ranges] at apart
  exact Multiset.coe_nodup.mp apart

section
variable (lib : Library)

theorem weak_if {α : Type} {P : Prop} [Decidable P] {first second : α → α → Bool} (one : Weak first)
    (other : Weak second) : Weak (fun a b => if P then first a b else second a b) := by
  by_cases holds : P
  · simpa only [holds,if_true] using one
  · simpa only [holds,if_false] using other

theorem weak_string {key : FileView → String} {order : Order} :
    Weak (fun a b => sortFunc (.string (key a)) (.string (key b)) order) :=
  weak_of_lt.flip

theorem weak_bool {key : FileView → Bool} {order : Order} :
    Weak (fun a b => sortFunc (.bool (key a)) (.bool (key b)) order) :=
  weak_if weak_of_lt weak_of_lt.flip

theorem weak_field {field : Field} {order : Order} :
    Weak (fun a b => sortFunc (field.value a) (field.value b) order) := by
  cases field with
  | rootCid =>
    exact weak_if weak_of_lt weak_of_lt.flip
  | size => exact weak_if weak_of_lt weak_of_lt.flip
  | pinned | registered => exact weak_bool
  | hash | type | name | extension | default | errDefault | mimeType | referenceLink => exact weak_string

theorem weak_less {sort : SortBy} : Weak (less lib sort) := by
  cases found : fieldByName (lib.title sort.key) with
  | none =>
    have none : less lib sort = fun _ _ => false := by
      funext a b
      simp only [less,found]
    rw [none]
    exact weak_none
  | some field =>
    have here : less lib sort = fun a b => sortFunc (field.value a) (field.value b) sort.order := by
      funext a b
      simp only [less,found]
    rw [here]
    exact weak_field

/-- The comparison that a call sorts by: none without a key or an order. -/
def lessBy (sort : SortBy) : FileView → FileView → Bool :=
  if sort.key ≠ "" ∧ sort.order ≠ .none then less lib sort else fun _ _ => false

theorem weak_lessBy (sort : SortBy) : Weak (lessBy lib sort) := by
  rw [lessBy]
  split
  · exact weak_less lib
  · exact weak_none

theorem arranges_sortFile (sort : SortBy) : Arranges (lessBy lib sort) (fun list => sortFile lib list sort) := by
  by_cases sorts : sort.key ≠ "" ∧ sort.order ≠ .none
  · simp only [lessBy,sortFile,if_pos sorts]
    exact lib.sortSlice.arranges (weak_less lib)
  · simp only [lessBy,sortFile,if_neg sorts]
    exact arranges_none

end

variable {list : List FileView}

theorem slice_ok {low high : Nat} (order : low ≤ high) (inside : high ≤ list.length) :
    slice list low high = some ((list.drop low).take (high - low)) := by
  rw [slice,if_pos (by omega),Int.toNat_natCast,Int.toNat_natCast,List.drop_take]

variable {k : Nat}

theorem pageFile_cut {size : Nat} (pos : 0 < size) (start : int64 (size * k) = (size * k : Nat)) :
    pageFile list ⟨k + 1,size⟩ = some (cut size k list) := by
  by_cases empty : list.length = 0
  · rw [pageFile,List.length_eq_zero_iff.mp empty,cut]
    simp
  have other : ¬((k : Int) + 1 = 0 ∨ (size : Int) = 0) := by omega
  simp only [pageFile,if_neg empty,if_neg other,Int.add_sub_cancel,start,cut]
  generalize size * k = low
  by_cases full : (size : Int) ≤ list.length - low
  · have sum : (low : Int) + size = (low + size : Nat) := by omega
    rw [if_pos full,sum,slice_ok (by omega) (by omega),Nat.add_sub_cancel_left]
  rw [if_neg full]
  by_cases beyond : (list.length : Int) < low
  · rw [if_pos beyond,List.drop_of_length_le (by omega),List.take_nil]
  · rw [if_neg beyond,slice_ok (by omega) (Nat.le_refl _)]
    have rest : (list.drop low).length = list.length - low := List.length_drop
    rw [List.take_of_length_le (by omega),List.take_of_length_le (by omega)]

theorem pageFile_beyond {size : Nat} (pos : 0 < size) (start : list.length ≤ int64 (size * k)) :
    pageFile list ⟨k + 1,size⟩ = some [] := by
  by_cases empty : list.length = 0
  · rw [pageFile,if_pos empty,List.length_eq_zero_iff.mp empty]
  have other : ¬((k : Int) + 1 = 0 ∨ (size : Int) = 0) := by omega
  have short : ¬(size : Int) ≤ list.length - int64 (size * k) := by omega
  simp only [pageFile,if_neg empty,if_neg other,Int.add_sub_cancel,if_neg short]
  by_cases beyond : (list.length : Int) < int64 (size * k)
  · rw [if_pos beyond]
  · have here : int64 (size * k) = list.length := by omega
    rw [if_neg beyond,here,slice_ok (Nat.le_refl _) (Nat.le_refl _),Nat.sub_self,List.take_zero]

theorem pageFile_inside {page : List FileView} {size : Nat} (pos : 0 < size) (start : int64 (size * k) < list.length)
    (filled : list.length ≠ 0) (run : pageFile list ⟨k + 1,size⟩ = some page) : ∃ file ∈ page, file ∈ list := by
  have other : ¬((k : Int) + 1 = 0 ∨ (size : Int) = 0) := by omega
  simp only [pageFile,if_neg filled,if_neg other,Int.add_sub_cancel] at run
  -- what a part that starts at `low` and is not empty begins with
  have first : ∀ {high : Int}, int64 (size * k) < high → slice list (int64 (size * k)) high = some page →
      ∃ file ∈ page, file ∈ list := by
    intro high more run
    generalize int64 (size * k) = low at more run
    rw [slice] at run
    split at run
    · next fits =>
      cases run
      have place : low.toNat < (list.take high.toNat).length := by rw [List.length_take]; omega
      refine ⟨(list.take high.toNat)[low.toNat],?_,List.mem_of_mem_take (List.getElem_mem place)⟩
      rw [List.drop_eq_getElem_cons place]
      exact List.mem_cons_self
    · cases run
  split at run
  · exact first (by omega) run
  · have inside : ¬(list.length : Int) < int64 (size * k) := by omega
    rw [if_neg inside] at run
    exact first start run

section
variable (lib : Library)

def passing (fs : Filestore) (filters : List Filter) : Multiset FileView :=
  (fs.files.entries.map (·.2)).filter (fun file => passes lib filters file)

/-- The first `m` pages, where each call ranges over the files in its own way, hold every file that passes exactly
once, and a page that is followed by one with files is full. -/
def Partitions (fs : Filestore) (filters : List Filter) (sort : SortBy) (size m : Nat) : Prop :=
  ∀ ranges : Nat → List FileView, (∀ p, Ranges fs (ranges p)) →
    ∃ pages : Nat → List FileView,
      (∀ k < m, (getList lib (ranges (k + 1)) ⟨k + 1,size⟩ filters sort).map (·.1) = some (pages (k + 1))) ∧
      (∀ root file, fs.get root = some file → passes lib filters file →
        ((List.range m).flatMap (fun k => pages (k + 1))).count file = 1) ∧
      ∀ p q, 1 ≤ p → p < q → q ≤ m → pages q ≠ [] → (pages p).length = size

/-- The files that the sort does not tell from a file take places on one page: after those that are less. -/
def OnePage (fs : Filestore) (filters : List Filter) (sort : SortBy) (size : Nat) : Prop :=
  ∀ file ∈ passing lib fs filters,
    (passing lib fs filters).countP (fun other => lessBy lib sort other file) / size =
      ((passing lib fs filters).countP (fun other => !lessBy lib sort file other) - 1) / size

/-- No page after the end of `n` files starts before it again. -/
def NoWrap (n size m : Nat) : Prop := ∀ k < m, 0 < n → n ≤ size * k → (n : Int) ≤ int64 (size * k)

variable {fs : Filestore} {filters : List Filter} {sort : SortBy} {size m : Nat}

section
variable (ranges : Ranges fs range)
include ranges

theorem coe_filterFile : (filterFile lib range filters : Multiset FileView) = passing lib fs filters := by
  have all : (range : Multiset FileView) = fs.files.entries.map (·.2) := ranges
  simp [passing,← all,filterFile,Multiset.filter_coe]

theorem length_filterFile : (filterFile lib range filters).length = (passing lib fs filters).card := by
  rw [← coe_filterFile lib ranges,Multiset.coe_card]

theorem onePage_iff :
    OnePage lib fs filters sort size ↔ Fits (lessBy lib sort) size (filterFile lib range filters) := by
  simp [OnePage,Fits,← coe_filterFile lib ranges,Multiset.mem_coe,Multiset.coe_countP,rank,through]

end

theorem getList_map (range : List FileView) (page : Page) :
    (getList lib range page filters sort).map (·.1) = pageFile (sortFile lib (filterFile lib range filters) sort) page := by
  simp only [getList]
  cases pageFile (sortFile lib (filterFile lib range filters) sort) page <;> rfl

theorem int64_start {n : Nat} (small : n < 2 ^ 63) (inside : size * k < n) : int64 (size * k) = (size * k : Nat) := by
  exact Joiners.int64_eq (by omega) (by omega)

theorem sorted_perm {other : List FileView} (first : Ranges fs range) (second : Ranges fs other) :
    (sortFile lib (filterFile lib range filters) sort).Perm (filterFile lib other filters) :=
  ((arranges_sortFile lib sort).perm _).trans ((Multiset.coe_eq_coe.mp (first.trans second.symm)).filter _)

theorem nodup_filterFile (keyed : Keyed fs) (ranges : Ranges fs range) :
    (filterFile lib range filters).Nodup := (nodup_range keyed ranges).filter _

theorem mem_filterFile (ranges : Ranges fs range) {file : FileView} :
    file ∈ filterFile lib range filters ↔ (∃ root, fs.get root = some file) ∧ passes lib filters file := by
  rw [filterFile,List.mem_filter,← Multiset.mem_coe,ranges,Multiset.mem_map]
  refine and_congr_left (fun _ => ?_)
  constructor
  · rintro ⟨⟨root,file⟩,mem,rfl⟩
    exact ⟨root,Finmap.mem_lookup_iff.mpr mem⟩
  · rintro ⟨root,found⟩
    exact ⟨⟨root,file⟩,Finmap.mem_lookup_iff.mp found,rfl⟩

theorem two_le_count (pages : Nat → List FileView) {file : FileView} {i j : Nat} (first : file ∈ pages i)
    (second : file ∈ pages j) (before : i < j) {m : Nat} (inside : j < m) :
    2 ≤ ((List.range m).flatMap pages).count file := by
  induction m with
  | zero => omega
  | succ m ih =>
    rw [List.range_succ,List.flatMap_append,List.count_append,List.flatMap_singleton]
    by_cases last : j = m
    · subst last
      have here : 0 < ((List.range j).flatMap pages).count file :=
        List.count_pos_iff.mpr (List.mem_flatMap.mpr ⟨i,List.mem_range.mpr before,first⟩)
      have there : 0 < (pages j).count file := List.count_pos_iff.mpr second
      omega
    · omega

theorem length_sortFile (filters : List Filter) (sort : SortBy) (ranges : Ranges fs range) :
    (sortFile lib (filterFile lib range filters) sort).length = (passing lib fs filters).card := by
  rw [(sorted_perm lib ranges ranges).length_eq,length_filterFile lib ranges]

/-- A page that starts before the end of the list is cut from it. -/
theorem page_cut (pos : 0 < size) (small : (passing lib fs filters).card < 2 ^ 63)
    (inside : size * k < (passing lib fs filters).card) :
    (getList lib range ⟨k + 1,size⟩ filters sort).map (·.1) =
      some (cut size k (sortFile lib (filterFile lib range filters) sort)) := by
  rw [getList_map]
  exact pageFile_cut pos (int64_start small inside)

theorem cut_beyond (ranges : Ranges fs range) (beyond : (passing lib fs filters).card ≤ size * k) :
    cut size k (sortFile lib (filterFile lib range filters) sort) = [] := by
  rw [cut,List.drop_of_length_le (by rw [length_sortFile lib _ _ ranges]; exact beyond),List.take_nil]

theorem partitions_of_onePage (keyed : Keyed fs) (pos : 0 < size) (small : (passing lib fs filters).card < 2 ^ 63)
    (enough : (passing lib fs filters).card ≤ size * m) (fits : OnePage lib fs filters sort size)
    (starts : NoWrap (passing lib fs filters).card size m) : Partitions lib fs filters sort size m := by
  intro ranges each
  have sorted := (arranges_sortFile lib sort).sorted
  refine ⟨fun p => cut size (p - 1) (sortFile lib (filterFile lib (ranges p) filters) sort),?_,?_,?_⟩
  · intro k asked
    by_cases inside : size * k < (passing lib fs filters).card
    · exact page_cut lib pos small inside
    · have beyond := Nat.le_of_not_lt inside
      simp only [Nat.add_sub_cancel,cut_beyond lib (each (k + 1)) beyond]
      have len := length_sortFile lib filters sort (each (k + 1))
      rw [getList_map]
      by_cases some : 0 < (passing lib fs filters).card
      · exact pageFile_beyond pos (by rw [len]; exact starts k asked some beyond)
      · rw [List.length_eq_zero_iff.mp (len.trans (Nat.eq_zero_of_not_pos some))]
        rfl
  · intro root file found pass
    have perm := cuts_perm (weak_lessBy lib sort) pos (nodup_filterFile lib keyed (each 0))
      (fun k => sorted_perm lib (each (k + 1)) (each 0)) (fun k => sorted _) ((onePage_iff lib (each 0)).mp fits)
      (by rw [length_filterFile lib (each 0)]; exact enough)
    simp only [Nat.add_sub_cancel]
    rw [perm.count_eq]
    exact List.count_eq_one_of_mem (nodup_filterFile lib keyed (each 0))
      ((mem_filterFile lib (each 0)).mpr ⟨⟨root,found⟩,pass⟩)
  intro p q first before inside later
  have start : size * (q - 1) < (passing lib fs filters).card := by
    by_contra beyond
    exact later (cut_beyond lib (each q) (Nat.le_of_not_lt beyond))
  have less : size * (p - 1) + size ≤ size * (q - 1) := by
    rw [← Nat.mul_succ]
    exact Nat.mul_le_mul_left size (by omega)
  simp only [cut,List.length_take,List.length_drop,length_sortFile lib _ _ (each p)]
  omega

theorem onePage_of_partitions (keyed : Keyed fs) (pos : 0 < size) (small : (passing lib fs filters).card < 2 ^ 63)
    (enough : (passing lib fs filters).card ≤ size * m) (parts : Partitions lib fs filters sort size m) :
    OnePage lib fs filters sort size := by
  obtain ⟨range,ranges⟩ : ∃ range, Ranges fs range := Quot.exists_rep _
  rw [onePage_iff lib ranges]
  by_contra not
  have weak := weak_lessBy lib sort
  obtain ⟨other,perm,k,file,within,first,second⟩ :=
    cut_twice weak pos (arranges_sortFile lib sort) (nodup_filterFile lib keyed ranges) not
  -- the other way to range over the files: those that pass come first, in the other order
  let turned := other ++ range.filter (fun file => !passes lib filters file)
  have rangesTurned : Ranges fs turned := by
    refine Eq.trans (Multiset.coe_eq_coe.mpr ?_) ranges
    exact (perm.append_right _).trans (List.filter_append_perm _ range)
  have filterTurned : filterFile lib turned filters = other := by
    have passed : other.filter (passes lib filters) = other :=
      List.filter_eq_self.mpr (fun file mem => (List.mem_filter.mp (perm.mem_iff.mp mem)).2)
    have dropped : (range.filter (fun file => !passes lib filters file)).filter (passes lib filters) = [] := by
      rw [List.filter_filter]
      simp
    rw [filterFile,List.filter_append,passed,dropped,List.append_nil]
  rw [length_filterFile lib ranges] at within
  have inside : k + 1 < m := Nat.lt_of_mul_lt_mul_left (Nat.lt_of_lt_of_le within enough)
  let choose (p : Nat) : List FileView := if p = k + 1 then range else turned
  have chosen : choose (k + 1) = range := if_pos rfl
  have chosenNext : choose (k + 1 + 1) = turned := if_neg (by omega)
  obtain ⟨pages,runs,once,-⟩ := parts choose (by
    intro p
    by_cases here : p = k + 1
    · rwa [here,chosen]
    · rwa [show choose p = turned from if_neg here])
  have here := runs k (by omega)
  rw [chosen,page_cut lib pos small (Nat.lt_of_le_of_lt (Nat.mul_le_mul_left size (Nat.le_succ k)) within),
    Option.some.injEq] at here
  have there := runs (k + 1) inside
  rw [chosenNext,page_cut lib pos small within,filterTurned,Option.some.injEq] at there
  obtain ⟨⟨root,found⟩,pass⟩ := (mem_filterFile lib ranges).mp
    ((sorted_perm lib ranges ranges).mem_iff.mp (List.mem_of_mem_drop (List.mem_of_mem_take first)))
  rw [here] at first
  rw [there] at second
  have twice := two_le_count (fun k => pages (k + 1)) first second (Nat.lt_succ_self k) inside
  rw [once root file found pass] at twice
  omega

theorem noWrap_of_partitions (pos : 0 < size) (small : (passing lib fs filters).card < 2 ^ 63)
    (parts : Partitions lib fs filters sort size m) : NoWrap (passing lib fs filters).card size m := by
  intro k asked some beyond
  by_contra wraps
  obtain ⟨range,ranges⟩ : ∃ range, Ranges fs range := Quot.exists_rep _
  obtain ⟨pages,runs,once,-⟩ := parts (fun _ => range) (fun _ => ranges)
  have len := length_sortFile lib filters sort ranges
  have here := runs k asked
  rw [getList_map] at here
  obtain ⟨file,onPage,mem⟩ := pageFile_inside pos (by omega) (by omega) here
  -- the file is also on the page that it belongs to
  obtain ⟨i,place⟩ := List.mem_iff_getElem?.mp mem
  obtain ⟨inside,-⟩ := List.getElem?_eq_some_iff.mp place
  have start : size * (i / size) < (passing lib fs filters).card := by
    have le := Nat.mul_div_le i size
    omega
  have before : i / size < k := Nat.lt_of_mul_lt_mul_left (Nat.lt_of_lt_of_le start beyond)
  have there := runs (i / size) (by omega)
  rw [page_cut lib pos small start,Option.some.injEq] at there
  have own := (mem_cut pos).mpr ⟨i,rfl,place⟩
  rw [there] at own
  obtain ⟨⟨root,found⟩,pass⟩ := (mem_filterFile lib ranges).mp ((sorted_perm lib ranges ranges).mem_iff.mp mem)
  have twice := two_le_count (fun k => pages (k + 1)) own onPage before asked
  rw [once root file found pass] at twice
  omega

end

/-- The pages of a store fit together exactly when no tie of the sort lies across the end of a page and no page that
is asked for starts, by overflow, before the end of the list again. -/
theorem getList_iff (lib : Library) {fs : Filestore} (keyed : Keyed fs) (filters : List Filter) (sort : SortBy)
    {size m : Nat} (pos : 0 < size) (small : (passing lib fs filters).card < 2 ^ 63)
    (enough : (passing lib fs filters).card ≤ size * m) :
    Partitions lib fs filters sort size m ↔
      OnePage lib fs filters sort size ∧ NoWrap (passing lib fs filters).card size m :=
  ⟨fun parts => ⟨onePage_of_partitions lib keyed pos small enough parts,noWrap_of_partitions lib pos small parts⟩,
    fun ⟨fits,starts⟩ => partitions_of_onePage lib keyed pos small enough fits starts⟩

/-- Insertion sort, as `sort.Slice` sorts few elements; there are no filters, and the key is in title case. -/
def plain : Library where
  floats := ⟨Unit,fun _ => none,(),(),fun _ _ => false,fun _ _ => false⟩
  title := id
  sortSlice := insertionSorter FileView

def sized (root : UInt8) (size : Int) : FileView where
  rootCid := [root]
  hash := ""
  pinned := false
  registered := false
  size := size
  type := ""
  name := ""
  extension := ""
  default := ""
  errDefault := ""
  mimeType := ""
  referenceLink := ""

theorem getList_sizes :
    Partitions plain ((({} : Filestore).put (sized 1 5)).put (sized 2 7)) [] ⟨"Size",.asc⟩ 1 2 :=
  (getList_iff plain (keyed_put (keyed_put keyed_empty)) [] ⟨"Size",.asc⟩ (by decide) (by decide) (by decide)).mpr
    ⟨by unfold OnePage; decide,by unfold NoWrap; decide⟩

/-- Two files of one size, one on a page: the first is on both pages, the second on none. -/
theorem tied_lost : ¬Partitions plain ((({} : Filestore).put (sized 1 5)).put (sized 2 5)) [] ⟨"Size",.asc⟩ 1 2 := by
  intro parts
  obtain ⟨pages,runs,once,-⟩ := parts
    (fun p => if p = 1 then [sized 1 5,sized 2 5] else [sized 2 5,sized 1 5]) (by
      intro p
      rw [Ranges]
      split <;> decide)
  have first : some [sized 1 5] = some (pages 1) := runs 0 (by decide)
  have second : some [sized 1 5] = some (pages 2) := runs 1 (by decide)
  have none := once [2] (sized 2 5) (by decide) (by decide)
  simp only [Option.some.injEq] at first second
  simp only [List.range_succ,List.range_zero,List.nil_append,List.cons_append,List.flatMap_cons,List.flatMap_nil,
    Nat.zero_add,← first,← second] at none
  exact absurd none (by decide)

end FavorX.Listings

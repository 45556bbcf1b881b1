import FavorX.Listings

/-!
The mirrors of files. A mirror is kept under the root of the file that replaced
another. `PutMirrorFile` does not look for circles: in a run of calls all walks of
`getMirrors` end, with different mirrors, exactly when every `PutMirrorFile` keeps
clear of them (`mirrors_finite_iff`).
-/
namespace FavorX.FileMirrors
open FiniteMaps Listings
open Shed (Address)
open Presence (FileView Filestore)

def zeroAddress : Address := []

inductive Operation
  | REMOVE | MOVE | COPY | MKDIR
  deriving DecidableEq

/-- A mirror has the data of the file that was replaced. -/
structure FileMirror extends FileView where
  preRootCid : Address
  nextRootCid : Address
  operation : Operation
  deriving DecidableEq

abbrev MirrorStore := Map Address FileMirror

def getMirror (m : MirrorStore) (reference : Address) : Option FileMirror := m.lookup reference

def hasMirror (m : MirrorStore) (reference : Address) : Bool := (getMirror m reference).isSome

def putMirror (pre next : Address) (ope : Operation) (file : FileView) (m : MirrorStore) : MirrorStore :=
  if hasMirror m next then m
  else m.insert next { file with preRootCid := pre, nextRootCid := next, operation := ope }

def delMirror (reference : Address) (m : MirrorStore) : MirrorStore := m.erase reference

/-- The recursion has no bound of its own: without fuel it has not returned. -/
def getMirrors (m : MirrorStore) : Nat → Address → Option (List FileMirror)
  | 0, _ => none
  | fuel + 1, reference =>
    match getMirror m reference with
    | none => some []
    | some fm =>
      if fm.preRootCid = zeroAddress then some [fm]
      else
        match getMirrors m fuel fm.rootCid with
        | none => none
        | some nfm => some (fm :: nfm)

/-- The part of the local store that keeps files. -/
structure DB where
  filestore : Filestore := {}
  mirrors : MirrorStore := ∅

inductive Err
  | notFound

def DB.putFile (db : DB) (file : FileView) : DB := { db with filestore := db.filestore.put file }

def DB.pre (db : DB) (reference : Address) : Address :=
  match getMirror db.mirrors reference with
  | none => zeroAddress
  | some m => m.rootCid

def DB.putMirrorFile (db : DB) (next reference : Address) (ope : Operation) : Except Err Unit × DB :=
  match db.filestore.get reference with
  | none => (.error .notFound,db)
  | some file =>
    (.ok (),{ filestore := db.filestore.delete reference,
              mirrors := putMirror (db.pre reference) next ope file db.mirrors })

def DB.deleteMirror (db : DB) (reference : Address) : DB := { db with mirrors := delMirror reference db.mirrors }

inductive Call
  | putFile (file : FileView)
  | putMirrorFile (next reference : Address) (ope : Operation)
  | deleteMirror (reference : Address)

def DB.apply (db : DB) : Call → DB
  | .putFile file => db.putFile file
  | .putMirrorFile next reference ope => (db.putMirrorFile next reference ope).2
  | .deleteMirror reference => db.deleteMirror reference

def DB.run (db : DB) (calls : List Call) : DB := calls.foldl DB.apply db

variable {a : Address}

variable {fms : List FileMirror} {k : Address}

section
variable {m : MirrorStore}

/-- A walk goes on from `a` to `b`. -/
def Link (m : MirrorStore) (a b : Address) : Prop :=
  ∃ fm, getMirror m a = some fm ∧ fm.preRootCid ≠ zeroAddress ∧ fm.rootCid = b

/-- A walk from `a` comes to `b`. -/
def Leads (m : MirrorStore) : Address → Address → Prop := Relation.ReflTransGen (Link m)

/-- The walk from a reference ends. -/
inductive Ends (m : MirrorStore) : Address → Prop
  | none {a : Address} : getMirror m a = none → Ends m a
  | first {a : Address} {fm : FileMirror} : getMirror m a = some fm → fm.preRootCid = zeroAddress → Ends m a
  | next {a : Address} {fm : FileMirror} :
    getMirror m a = some fm → fm.preRootCid ≠ zeroAddress → Ends m fm.rootCid → Ends m a

theorem link_unique {b c : Address} (first : Link m a b) (second : Link m a c) : b = c := by
  obtain ⟨fm,found,-,rfl⟩ := first
  obtain ⟨fm',found',-,rfl⟩ := second
  rw [found] at found'
  cases found'
  rfl

theorem Ends.no_circle (ends : Ends m a) : ¬Relation.TransGen (Link m) a a := by
  induction ends with
  | none absent =>
    intro circle
    obtain ⟨b,⟨fm,found,-,-⟩,-⟩ := Relation.TransGen.head'_iff.mp circle
    rw [absent] at found
    cases found
  | first found zero =>
    intro circle
    obtain ⟨b,⟨fm,found',pre,-⟩,-⟩ := Relation.TransGen.head'_iff.mp circle
    rw [found] at found'
    cases found'
    exact pre zero
  | next found pre _ ih =>
    intro circle
    have step : Link m _ _ := ⟨_,found,pre,rfl⟩
    obtain ⟨b,link,back⟩ := Relation.TransGen.head'_iff.mp circle
    rw [link_unique link step] at back
    exact ih (Relation.TransGen.tail' back step)

theorem Ends.returns (ends : Ends m a) : ∃ fuel fms, getMirrors m fuel a = some fms := by
  induction ends with
  | none absent => exact ⟨1,[],by simp only [getMirrors,absent]⟩
  | @first a fm found zero => exact ⟨1,[fm],by simp only [getMirrors,found,zero,if_true]⟩
  | @next a fm found pre _ ih =>
    obtain ⟨fuel,nfm,run⟩ := ih
    exact ⟨fuel + 1,fm :: nfm,by simp only [getMirrors,found,pre,if_false,run]⟩

theorem getMirrors_some {fuel : Nat} (run : getMirrors m (fuel + 1) a = some fms) :
    getMirror m a = none ∧ fms = [] ∨ ∃ fm, getMirror m a = some fm ∧ (fm.preRootCid = zeroAddress ∧ fms = [fm] ∨
      fm.preRootCid ≠ zeroAddress ∧ ∃ nfm, getMirrors m fuel fm.rootCid = some nfm ∧ fms = fm :: nfm) := by
  rw [getMirrors] at run
  cases found : getMirror m a with
  | none => simp_all
  | some fm =>
    by_cases zero : fm.preRootCid = zeroAddress
    · simp_all
    · cases rest : getMirrors m fuel fm.rootCid <;> simp_all

theorem ends_of_returns {fuel : Nat} (run : getMirrors m fuel a = some fms) : Ends m a := by
  induction fuel generalizing a fms with
  | zero => cases run
  | succ fuel ih =>
    rcases getMirrors_some run with ⟨none,-⟩ | ⟨fm,found,⟨zero,-⟩ | ⟨pre,nfm,rest,-⟩⟩
    · exact .none none
    · exact .first found zero
    · exact .next found pre (ih rest)

/-- Mirrors are kept under the root that replaced the file. -/
def Placed (m : MirrorStore) : Prop := ∀ {a fm}, getMirror m a = some fm → fm.nextRootCid = a

theorem leads_of_mem (placed : Placed m) {fuel : Nat} (run : getMirrors m fuel a = some fms) {fm : FileMirror}
    (mem : fm ∈ fms) : Leads m a fm.nextRootCid := by
  induction fuel generalizing a fms with
  | zero => cases run
  | succ fuel ih =>
    rcases getMirrors_some run with ⟨-,rfl⟩ | ⟨first,found,last⟩
    · cases mem
    have here : Leads m a first.nextRootCid := by rw [placed found]; exact .refl
    rcases last with ⟨-,rfl⟩ | ⟨pre,nfm,rest,rfl⟩
    · rw [List.mem_singleton.mp mem]
      exact here
    · rcases List.mem_cons.mp mem with rfl | mem
      · exact here
      · exact .head ⟨first,found,pre,rfl⟩ (ih rest mem)

theorem nodup_getMirrors (placed : Placed m) {fuel : Nat} (run : getMirrors m fuel a = some fms) : fms.Nodup := by
  have ends := ends_of_returns run
  induction fuel generalizing a fms with
  | zero => cases run
  | succ fuel ih =>
    rcases getMirrors_some run with ⟨-,rfl⟩ | ⟨first,found,⟨-,rfl⟩ | ⟨pre,nfm,rest,rfl⟩⟩
    · exact List.nodup_nil
    · exact List.nodup_singleton first
    refine List.nodup_cons.mpr ⟨fun mem => ?_,ih rest (ends_of_returns rest)⟩
    -- the mirror would be met again
    have back := leads_of_mem placed rest mem
    rw [placed found] at back
    exact ends.no_circle (Relation.TransGen.head' ⟨first,found,pre,rfl⟩ back)

def Finite (m : MirrorStore) : Prop := ∀ reference, ∃ fuel fms, getMirrors m fuel reference = some fms ∧ fms.Nodup

theorem finite_iff (placed : Placed m) : Finite m ↔ ∀ a, Ends m a := by
  constructor
  · intro finite a
    obtain ⟨fuel,fms,run,-⟩ := finite a
    exact ends_of_returns run
  · intro ends a
    obtain ⟨fuel,fms,run⟩ := (ends a).returns
    exact ⟨fuel,fms,run,nodup_getMirrors placed run⟩

theorem getMirror_insert (m : MirrorStore) (k a : Address) (fm : FileMirror) :
    getMirror (m.insert k fm) a = if a = k then some fm else getMirror m a := lookup_insert_eq m k a

theorem Ends.insert_apart (fm : FileMirror) (ends : Ends m a) (apart : ¬Leads m a k) : Ends (m.insert k fm) a := by
  have other : ∀ {b}, ¬Leads m b k → getMirror (m.insert k fm) b = getMirror m b := by
    intro b apart
    rw [getMirror_insert,if_neg]
    rintro rfl
    exact apart .refl
  induction ends with
  | none absent => exact .none ((other apart).trans absent)
  | first found zero => exact .first ((other apart).trans found) zero
  | next found pre _ ih =>
    exact .next ((other apart).trans found) pre (ih (fun leads => apart (.head ⟨_,found,pre,rfl⟩ leads)))

/-- A mirror at a new root keeps all walks finite when its file does not lead to the root. -/
theorem ends_insert (absent : getMirror m k = none) {fm : FileMirror} (ends : ∀ a, Ends m a)
    (clear : fm.preRootCid ≠ zeroAddress → ¬Leads m fm.rootCid k) (a : Address) : Ends (m.insert k fm) a := by
  have here : getMirror (m.insert k fm) k = some fm := by rw [getMirror_insert,if_pos rfl]
  have new : Ends (m.insert k fm) k := by
    by_cases zero : fm.preRootCid = zeroAddress
    · exact .first here zero
    · exact .next here zero ((ends _).insert_apart fm (clear zero))
  have old := ends a
  induction old with
  | @none a absent' =>
    by_cases same : a = k
    · rw [same]
      exact new
    · exact .none (by rw [getMirror_insert,if_neg same,absent'])
  | @first a fm' found zero =>
    have other : a ≠ k := by
      rintro rfl
      rw [absent] at found
      cases found
    exact .first (by rw [getMirror_insert,if_neg other,found]) zero
  | @next a fm' found pre _ ih =>
    have other : a ≠ k := by
      rintro rfl
      rw [absent] at found
      cases found
    exact .next (by rw [getMirror_insert,if_neg other,found]) pre ih

theorem circle_insert (absent : getMirror m k = none) {fm : FileMirror} (pre : fm.preRootCid ≠ zeroAddress)
    (leads : Leads m fm.rootCid k) : ¬Ends (m.insert k fm) k := by
  intro ends
  have kept : ∀ a b, Link m a b → Link (m.insert k fm) a b := by
    rintro a b ⟨fm',found,rest⟩
    refine ⟨fm',?_,rest⟩
    rw [getMirror_insert,if_neg,found]
    rintro rfl
    rw [absent] at found
    cases found
  have step : Link (m.insert k fm) k fm.rootCid := ⟨fm,by rw [getMirror_insert,if_pos rfl],pre,rfl⟩
  exact ends.no_circle (Relation.TransGen.head' step (Relation.ReflTransGen.mono kept _ _ leads))

theorem ends_delMirror (ends : ∀ a, Ends m a) (a : Address) : Ends (delMirror k m) a := by
  have read : ∀ b, getMirror (delMirror k m) b = if b = k then none else getMirror m b := fun b => lookup_erase_eq m k b
  have old := ends a
  induction old with
  | @none a absent => exact .none (by rw [read,absent,ite_self])
  | @first a fm found zero =>
    by_cases same : a = k
    · exact .none (by rw [read,if_pos same])
    · exact .first (by rw [read,if_neg same,found]) zero
  | @next a fm found pre _ ih =>
    by_cases same : a = k
    · exact .none (by rw [read,if_pos same])
    · exact .next (by rw [read,if_neg same,found]) pre ih

end

/-- Files are kept under their roots and mirrors under what replaced their files. -/
structure Sound (db : DB) : Prop where
  keyed : Keyed db.filestore
  placed : Placed db.mirrors

/-- `PutMirrorFile` adds a mirror with a predecessor only for a file that does not lead to the new root. -/
def Clear (db : DB) : Call → Prop
  | .putMirrorFile next reference _ =>
    db.filestore.has reference → getMirror db.mirrors next = none →
      (∃ m, getMirror db.mirrors reference = some m ∧ m.rootCid ≠ zeroAddress) → ¬Leads db.mirrors reference next
  | _ => True

theorem putMirrorFile_cases {db : DB} (sound : Sound db) (next : Address) {reference : Address} {ope : Operation} :
    (((db.putMirrorFile next reference ope).2.mirrors = db.mirrors ∧
        (db.filestore.has reference = false ∨ getMirror db.mirrors next ≠ none)) ∨
      db.filestore.has reference = true ∧ getMirror db.mirrors next = none ∧
        ∃ fm, (db.putMirrorFile next reference ope).2.mirrors = db.mirrors.insert next fm ∧ fm.rootCid = reference ∧
          fm.nextRootCid = next ∧
          (fm.preRootCid ≠ zeroAddress ↔ ∃ m, getMirror db.mirrors reference = some m ∧ m.rootCid ≠ zeroAddress)) ∧
      Keyed (db.putMirrorFile next reference ope).2.filestore := by
  cases found : db.filestore.get reference with
  | none =>
    have unknown : db.filestore.has reference = false := by
      have none : db.filestore.files.lookup reference = none := found
      simp [Filestore.has,none]
    simp only [DB.putMirrorFile,found]
    exact ⟨.inl ⟨trivial,.inl unknown⟩,sound.keyed⟩
  | some file =>
    have known : db.filestore.has reference = true := by
      have some : db.filestore.files.lookup reference = some file := found
      simp [Filestore.has,some]
    simp only [DB.putMirrorFile,found]
    refine ⟨?_,keyed_delete sound.keyed⟩
    cases free : getMirror db.mirrors next with
    | some other =>
      simp [putMirror,hasMirror,free]
    | none =>
      refine .inr ⟨known,rfl,{ file with preRootCid := db.pre reference, nextRootCid := next, operation := ope },?_,
        sound.keyed found,rfl,?_⟩
      · simp [putMirror,hasMirror,free]
      · cases replaced : getMirror db.mirrors reference with
        | none | some m => simp [DB.pre,replaced]

theorem sound_apply {db : DB} (sound : Sound db) (call : Call) : Sound (db.apply call) := by
  cases call with
  | putFile file => exact ⟨keyed_put sound.keyed,sound.placed⟩
  | deleteMirror reference =>
    refine ⟨sound.keyed,?_⟩
    intro a fm found
    rw [DB.apply,DB.deleteMirror,getMirror,delMirror,lookup_erase_eq] at found
    split at found
    · cases found
    · exact sound.placed found
  | putMirrorFile next reference ope =>
    obtain ⟨cases,keyed⟩ := putMirrorFile_cases sound next
    refine ⟨keyed,?_⟩
    intro a fm found
    rw [DB.apply] at found
    rcases cases with ⟨same,-⟩ | ⟨-,-,new,is,-,placed,-⟩
    · rw [same] at found
      exact sound.placed found
    rw [is,getMirror_insert] at found
    split at found
    · next same =>
      cases found
      rw [placed,same]
    · exact sound.placed found

theorem finite_apply_iff {db : DB} (sound : Sound db) (finite : Finite db.mirrors) {call : Call} :
    Finite (db.apply call).mirrors ↔ Clear db call := by
  rw [finite_iff (sound_apply sound call).placed]
  have ends := (finite_iff sound.placed).mp finite
  cases call with
  | putFile file => exact ⟨fun _ => trivial,fun _ => ends⟩
  | deleteMirror reference => exact ⟨fun _ => trivial,fun _ => ends_delMirror ends⟩
  | putMirrorFile next reference ope =>
    obtain ⟨cases,-⟩ := putMirrorFile_cases sound next
    simp only [DB.apply,Clear]
    rcases cases with ⟨same,blocked⟩ | ⟨known,free,fm,is,root,-,pre⟩
    · rw [same]
      refine ⟨fun _ has free => ?_,fun _ => ends⟩
      rcases blocked with unknown | taken
      · rw [unknown] at has
        cases has
      · exact absurd free taken
    rw [is]
    constructor
    · intro after _ _ replaced leads
      exact circle_insert free (pre.mpr replaced) (by rw [root]; exact leads) (after next)
    · intro clear
      exact ends_insert free ends (fun some => by rw [root]; exact clear known free (pre.mp some))

theorem run_take_succ {calls : List Call} {n : Nat} {call : Call} (here : calls[n]? = some call) (db : DB) :
    db.run (calls.take (n + 1)) = (db.run (calls.take n)).apply call := by
  rw [List.take_add_one,here]
  simp [DB.run]

theorem sound_run (calls : List Call) : Sound (({} : DB).run calls) := by
  have all : ∀ (calls : List Call) {db : DB}, Sound db → Sound (db.run calls) := by
    intro calls
    induction calls with
    | nil => exact fun sound => sound
    | cons call calls ih => exact fun sound => ih (sound_apply sound call)
  refine all calls ⟨keyed_empty,?_⟩
  intro a fm found
  cases found

/-- In every state of a run all walks end with different mirrors, exactly when all calls of the run are clear. -/
theorem mirrors_finite_iff (calls : List Call) :
    (∀ n, Finite (({} : DB).run (calls.take n)).mirrors) ↔
      ∀ n call, calls[n]? = some call → Clear (({} : DB).run (calls.take n)) call := by
  constructor
  · intro finite n call here
    have after := finite (n + 1)
    rw [run_take_succ here] at after
    exact (finite_apply_iff (sound_run _) (finite n)).mp after
  intro clear n
  induction n with
  | zero => exact (finite_iff (sound_run _).placed).mpr (fun a => .none rfl)
  | succ n ih =>
    cases here : calls[n]? with
    | none =>
      have all : calls.take (n + 1) = calls.take n := by rw [List.take_add_one,here]; simp
      rw [all]
      exact ih
    | some call =>
      rw [run_take_succ here]
      exact (finite_apply_iff (sound_run _) ih).mpr (clear n call here)

/-- Files 3, 2, 1 are replaced one by the other: 2 replaces 3, 1 replaces 2, and after the mirror of 2 is deleted
2 replaces 1. -/
def roundTrip : List Call :=
  [.putFile (sized 3 0),.putMirrorFile [2] [3] .MOVE,.putFile (sized 2 0),.putMirrorFile [1] [2] .MOVE,
    .deleteMirror [2],.putFile (sized 1 0),.putMirrorFile [2] [1] .MOVE]

/-- The walk from 1 never ends. -/
theorem mirrors_circle : ¬Finite (({} : DB).run roundTrip).mirrors := by
  have first : Link (({} : DB).run roundTrip).mirrors [1] [2] :=
    ⟨{ sized 2 0 with preRootCid := [3], nextRootCid := [1], operation := .MOVE },by decide⟩
  have second : Link (({} : DB).run roundTrip).mirrors [2] [1] :=
    ⟨{ sized 1 0 with preRootCid := [2], nextRootCid := [2], operation := .MOVE },by decide⟩
  intro finite
  exact ((finite_iff (sound_run roundTrip).placed).mp finite [1]).no_circle (.tail (.single first) second)

/-! ### Requests to the state store that fail -/

section
variable {F : Type}

/-- The requests of `PutMirrorFile`, in their order, with their errors. -/
structure Faults (F : Type) where
  delete : Option F := none
  getMirror : Option F := none
  hasMirror : Option F := none
  put : Option F := none

/-- `PutMirrorFile` where requests fail. The file is no longer found from the first of them on. -/
def DB.tryMirrorFile (db : DB) (fails : Faults F) (next reference : Address) (ope : Operation) :
    Except (Option F) Unit × DB :=
  match db.filestore.get reference with
  | none => (.error none,db)
  | some file =>
    match fails.delete with
    | some e => (.error e,{ db with filestore.files := db.filestore.files.erase reference })
    | none =>
      let gone := { db with filestore := db.filestore.delete reference }
      match fails.getMirror <|> fails.hasMirror with
      | some e => (.error e,gone)
      | none =>
        if hasMirror db.mirrors next then (.ok (),gone)
        else
          match fails.put with
          | some e => (.error e,gone)
          | none => (.ok (),{ gone with mirrors := putMirror (db.pre reference) next ope file db.mirrors })

/-- The file is to be had from the mirror, or is still there after an error. -/
def Recovers (file : FileView) (next reference : Address) (r : Except (Option F) Unit × DB) : Prop :=
  match r.1 with
  | .ok () => (getMirror r.2.mirrors next).map FileMirror.toFileView = some file
  | .error _ => r.2.filestore.get reference = some file

/-- No request fails, and a mirror that is there already is one of the same file. -/
def Free (db : DB) (fails : Faults F) (next : Address) (file : FileView) : Prop :=
  fails.delete = none ∧ fails.getMirror = none ∧ fails.hasMirror = none ∧
    match getMirror db.mirrors next with
    | none => fails.put = none
    | some fm => fm.toFileView = file

/-- No file is lost exactly if the way is free. -/
theorem mirrored_file_iff (db : DB) (fails : Faults F) (next reference : Address) (ope : Operation) (file : FileView)
    (stored : db.filestore.get reference = some file) :
    Recovers file next reference (db.tryMirrorFile fails next reference ope) ↔ Free db fails next file := by
  have erased : (db.filestore.files.erase reference).lookup reference = none := Finmap.lookup_erase ..
  obtain ⟨delete,pre,has,put⟩ := fails
  rw [DB.tryMirrorFile,stored]
  cases delete with
  | some e => simp [Recovers,Free,Filestore.get,erased]
  | none =>
    cases pre <;> cases has <;> simp only [Recovers,Free,Option.orElse_eq_orElse,Option.orElse]
    all_goals try simp
    cases found : getMirror db.mirrors next with
    | some fm => simp [hasMirror,found]
    | none => cases put <;> simp [hasMirror,found,putMirror,getMirror_insert]

theorem mirrored_file_first :
    Recovers (sized 3 0) [2] [3] ((({} : DB).putFile (sized 3 0)).tryMirrorFile ({} : Faults Unit) [2] [3] .MOVE) :=
  (mirrored_file_iff _ {} [2] [3] .MOVE (sized 3 0) (by decide)).mpr ⟨rfl,rfl,rfl,rfl⟩

/-- 4 is to be replaced by 2, which already has replaced 3: it is deleted, no mirror is written, and no error comes. -/
theorem mirrored_file_lost :
    ¬Recovers (sized 4 0) [2] [4]
      ((({} : DB).run [.putFile (sized 3 0),.putMirrorFile [2] [3] .MOVE,.putFile (sized 4 0)]).tryMirrorFile
        ({} : Faults Unit) [2] [4] .MOVE) := by
  show ¬Option.map _ (some _) = some (sized 4 0)
  decide

end

end FavorX.FileMirrors

import ZTask.Lib.Actors
import ZTask.Lib.Machine

/-!
# Shared objects with one writer

`lua-stm.c`: an object has one writer, which replaces its copy, and any number of readers, each of
which keeps the copy that it has read last. Two reference counts decide when something is freed:
that of the object is the number of those who can reach it, and that of a copy the number of places
where it is kept, the object included.

A step is a section under the lock of the object, also one of a reader, or an atomic operation
outside of the sections. What follows from the result of an atomic operation, such as to free the
block whose count has come to zero, belongs to the step.

The sections of readers are shared in the source, and one of them can outlast the free of the
object: a reader that gives back its reference in its section leaves `rwlock_runlock` to do, and
when another one frees the object before that, the lock that it writes to is gone. Sections that are
steps do not show this. Nor is a reader used within the callback to which it hands its copy.
-/

namespace ZTask

open Lib

/-! ## States and steps -/

/-- `struct stm_object` -/
structure StmObject where
  reference : ℤ
  copy : Option ℕ
deriving DecidableEq, Repr

/-- Where the writer is. -/
inductive StmWriter
  | idle
  /-- `stm_update`: at `stm_releasecopy(oldcopy)`. -/
  | updating (oldcopy : Option ℕ)
  /-- `stm_release` has been called. -/
  | gone
deriving DecidableEq, Repr

/-- Where a reader is, with `box->lastcopy`. -/
inductive StmReader
  /-- The writer has not made it yet. -/
  | unborn
  | idle (lastcopy : Option ℕ)
  /-- `lread`, after `stm_copy`. -/
  | copied (copy lastcopy : Option ℕ)
  /-- `lread`, in the function that is called with `copy->msg`. -/
  | reading (copy : ℕ)
  /-- `ldeletereader`, after `stm_releasereader`. -/
  | closing (lastcopy : Option ℕ)
  | gone
deriving DecidableEq, Repr

/-- The writer, the readers and what is allocated: the object, if it has not been freed, and the
reference counts of the copies that have not been freed. -/
structure Stm (τ : Type) where
  object : Option StmObject
  copies : ℕ → Option ℤ
  /-- The next copy that is allocated. -/
  made : ℕ
  writer : StmWriter
  reader : τ → StmReader

inductive StmInput (τ : Type)
  /-- The writer calls `lcopy`, for this reader. -/
  | copy (t : τ)
  /-- The writer calls `lupdate`. -/
  | update
  /-- It goes on in `stm_update`. -/
  | updated
  /-- `ldeletewriter` -/
  | release
  /-- The reader calls `lread`. -/
  | read (t : τ)
  /-- It goes on in `lread` or `ldeletereader`. -/
  | step (t : τ)
  /-- `ldeletereader` -/
  | close (t : τ)
deriving DecidableEq

/-- What a step frees. -/
structure StmFreed where
  object : Bool
  copy : Option ℕ
deriving DecidableEq, Repr

inductive StmFault
  /-- A block that has been freed is read, written or freed. -/
  | freed
  | assertion
  /-- This cannot happen now. -/
  | impossible
deriving DecidableEq, Repr

/-! ## Copies -/

/-- `ATOM_FINC(&copy->reference)` and the assertion on its result. -/
def grabCopy (copies : ℕ → Option ℤ) (c : ℕ) : Except StmFault (ℕ → Option ℤ) :=
  match copies c with
  | none => .error .freed
  | some ref => if ref > 0 then .ok (Function.update copies c (some (ref + 1)))
      else .error .assertion

/-- `stm_releasecopy`, and the copy that it frees. -/
def releaseCopy (copies : ℕ → Option ℤ) : Option ℕ → Except StmFault ((ℕ → Option ℤ) × Option ℕ)
  | none => .ok (copies, none)
  | some c =>
    match copies c with
    | none => .error .freed
    | some ref =>
      if ref - 1 = 0 then .ok (Function.update copies c none, some c)
      else .ok (Function.update copies c (some (ref - 1)), none)

/-! ## Objects -/

namespace StmObject

/-- `stm_grab` -/
def grab : Option StmObject → Except StmFault (Option StmObject)
  | none => .error .freed
  | some obj =>
    if obj.reference > 0 then .ok (some { obj with reference := obj.reference + 1 })
    else .error .assertion

/-- `stm_releasereader`, and whether it frees the object. -/
def releaseReader : Option StmObject → Except StmFault (Option StmObject × Bool)
  | none => .error .freed
  | some obj =>
    if obj.reference - 1 = 0 then
      if obj.copy = none then .ok (none, true) else .error .assertion
    else .ok (some { obj with reference := obj.reference - 1 }, false)

end StmObject

variable {τ : Type}

namespace Stm

/-- `lnewwriter` -/
def init : Stm τ where
  object := some ⟨1, some 0⟩
  copies := Function.update (fun _ ↦ none) 0 (some 1)
  made := 1
  writer := .idle
  reader _ := .unborn

/-- `stm_release` -/
def release (s : Stm τ) : Except StmFault (Stm τ × StmFreed) :=
  match s.object with
  | none => .error .freed
  | some obj =>
    match obj.copy with
    | none => .error .assertion
    | some c =>
      match releaseCopy s.copies (some c) with
      | .error e => .error e
      | .ok (copies, freed) =>
        if obj.reference - 1 > 0 then
          .ok ({ s with
              object := some ⟨obj.reference - 1, none⟩
              copies := copies
              writer := .gone },
            ⟨false, freed⟩)
        else .ok ({ s with object := none, copies := copies, writer := .gone }, ⟨true, freed⟩)

/-- `stm_update` -/
def update (s : Stm τ) : Except StmFault (Stm τ × StmFreed) :=
  match s.object with
  | none => .error .freed
  | some obj =>
    .ok ({ s with
      object := some { obj with copy := some s.made }
      copies := Function.update s.copies s.made (some 1)
      made := s.made + 1
      writer := .updating obj.copy }, ⟨false, none⟩)

variable [DecidableEq τ]

def setReader (s : Stm τ) (t : τ) (x : StmReader) : Stm τ :=
  { s with reader := Function.update s.reader t x }

/-- `stm_copy` -/
def copy (s : Stm τ) (t : τ) (lastcopy : Option ℕ) : Except StmFault (Stm τ × StmFreed) :=
  match s.object with
  | none => .error .freed
  | some obj =>
    match obj.copy with
    | none => .ok (s.setReader t (.copied none lastcopy), ⟨false, none⟩)
    | some c =>
      match grabCopy s.copies c with
      | .error e => .error e
      | .ok copies => .ok ({ s with copies := copies }.setReader t (.copied (some c) lastcopy),
          ⟨false, none⟩)

/-- A reader lets go of a copy, and is at `x` then. -/
def drop (s : Stm τ) (t : τ) (c : Option ℕ) (x : StmReader) : Except StmFault (Stm τ × StmFreed) :=
  match releaseCopy s.copies c with
  | .error e => .error e
  | .ok (copies, freed) => .ok ({ s with copies := copies }.setReader t x, ⟨false, freed⟩)

/-- A reader goes on in `lread` or `ldeletereader`. -/
def step (s : Stm τ) (t : τ) : Except StmFault (Stm τ × StmFreed) :=
  match s.reader t with
  | .copied copy lastcopy =>
    if copy = lastcopy then s.drop t copy (.idle lastcopy)
    else
      s.drop t lastcopy
        (match copy with
        | none => .idle none
        | some c => .reading c)
  | .reading c =>
    match s.copies c with
    | none => .error .freed
    | some _ => .ok (s.setReader t (.idle (some c)), ⟨false, none⟩)
  | .closing lastcopy => s.drop t lastcopy .gone
  | .unborn | .idle _ | .gone => .error .impossible

end Stm

/-! ## The machine -/

/-- The writer and the readers. -/
def stm [DecidableEq τ] : Machine (Stm τ) (StmInput τ) StmFreed StmFault := fun s i ↦
  match i with
  | .copy t =>
    if s.writer = .idle ∧ s.reader t = .unborn then
      match StmObject.grab s.object with
      | .error e => .error e
      | .ok object => .ok ({ s with object := object }.setReader t (.idle none), ⟨false, none⟩)
    else .error .impossible
  | .update => if s.writer = .idle then s.update else .error .impossible
  | .updated =>
    match s.writer with
    | .updating oldcopy =>
      match releaseCopy s.copies oldcopy with
      | .error e => .error e
      | .ok (copies, freed) => .ok ({ s with copies := copies, writer := .idle }, ⟨false, freed⟩)
    | .idle | .gone => .error .impossible
  | .release => if s.writer = .idle then s.release else .error .impossible
  | .read t =>
    match s.reader t with
    | .idle lastcopy => s.copy t lastcopy
    | .unborn | .copied _ _ | .reading _ | .closing _ | .gone => .error .impossible
  | .step t => s.step t
  | .close t =>
    match s.reader t with
    | .idle lastcopy =>
      match StmObject.releaseReader s.object with
      | .error e => .error e
      | .ok (object, freed) => .ok ({ s with object := object }.setReader t (.closing lastcopy),
          ⟨freed, none⟩)
    | .unborn | .copied _ _ | .reading _ | .closing _ | .gone => .error .impossible

end ZTask

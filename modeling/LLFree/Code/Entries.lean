/- module: LLFree/Code/Entries
   digest: Child entries, bitfield rows, and the indivisible accesses of the lower allocator. -/

import LLFree.Atomic.Program
import LLFree.Code.Types
import LLFree.Words.Lanes

set_option autoImplicit false
set_option relaxedAutoImplicit false

namespace LLFree.Code.Entries

open LLFree.Atomic.Program LLFree.Code.Types LLFree.Words.Lanes

/-! ## Child entries -/

@[ext]
structure Child where
  free : Nat
  huge : Bool
  deriving DecidableEq, Repr

def childNew (free : Nat) (huge : Bool) : Child := ⟨free, huge⟩

def childInc (self : Child) (order : Nat) : Option Child :=
  if self.huge ∨ self.free + 2 ^ order > childSize then none
  else some { self with free := self.free + 2 ^ order }

def childDec (self : Child) (order : Nat) : Option Child :=
  if ¬ self.huge ∧ self.free ≥ 2 ^ order then some { self with free := self.free - 2 ^ order }
  else none

/-! ## Bitfield rows -/

abbrev Row := BitVec 64

/-- `((UINT64_MAX >> (LLFREE_ATOMIC_SIZE - num_frames)) << bit)`. -/
def rowMask (bit order : Nat) : Row :=
  (BitVec.allOnes 64 >>> (atomicSize - 2 ^ order)) <<< bit

/-- The position `p` that `first_zeros_aligned` computes, 64 when there is none. The outer
`none` is its failed assertion. -/
def firstZerosPos (v : Row) : Nat → Option Nat
  | 0 => some (lowestSet (~~~v))
  | 1 => some (lowestSet (~~~((v ||| (v >>> 1)) ||| 0xaaaaaaaaaaaaaaaa#64)))
  | 2 => some (lowestSet (zeroLanes 4 0x1111111111111111#64 v))
  | 3 => some (lowestSet (zeroLanes 8 0x0101010101010101#64 v))
  | 4 => some (lowestSet (zeroLanes 16 0x0001000100010001#64 v))
  | 5 => some (if v.setWidth 32 = 0#32 then 0 else if v >>> 32 = 0#64 then 32 else 64)
  | 6 => some (if v = 0#64 then 0 else 64)
  | _ => none

/-- `first_zeros_aligned`: the position and the new word, or `none` when there is no room.
The outer `none` is its failed assertion. -/
def firstZerosAligned (v : Row) (order : Nat) : Option (Option (Nat × Row)) :=
  (firstZerosPos v order).map fun p =>
    if p < 64 then some (p, v ||| rowMask p order) else none

def rowToggle (row mask : Row) (expected : Bool) : Option Row :=
  if expected then
    if row &&& mask = mask then some (row &&& ~~~mask) else none
  else
    if row &&& mask = 0#64 then some (row ||| mask) else none

/-! ## The lower allocator -/

/-- `lower_t` with the words it points to. `children` holds the entries of all groups,
`rows` the rows of all bitfields, eight for each child. -/
structure Lower where
  frames : Nat
  children : Nat → Child
  rows : Nat → Row

namespace Lower

def childCount (self : Lower) : Nat := divCeil self.frames childSize
def childrenCount (self : Lower) : Nat := divCeil self.childCount treeChildren

/-- The entries that exist: `get_child` asserts this bound. -/
def entryCount (self : Lower) : Nat := alignUp self.childCount treeChildren

/-- Rows that exist: the bitfields of all children that are not padding. -/
def rowCount (self : Lower) : Nat := self.childCount * fieldN

def setChild (self : Lower) (i : Nat) (c : Child) : Lower :=
  { self with children := Function.update self.children i c }

def setRow (self : Lower) (i : Nat) (row : Row) : Lower :=
  { self with rows := Function.update self.rows i row }

end Lower

/-- The indivisible accesses to the words of the lower allocator. -/
inductive LoOp where
  | childLoad (i : Nat)
  | childCas (i : Nat) (expected desired : Child)
  | childInc (i order : Nat)
  | childDec (i order : Nat)
  | rowZeros (row order : Nat)
  | rowToggle (row : Nat) (mask : Row) (expected : Bool)
  | rowCas (row : Nat) (expected desired : Row)

abbrev LoOp.Res : LoOp → Type
  | .childLoad _ => Child
  | .childCas .. => Bool
  | .childInc .. => Bool
  | .childDec .. => Bool
  | .rowZeros .. => Option Nat
  | .rowToggle .. => Bool
  | .rowCas .. => Bool

/-- `atom_update` on a word: the new word, or failure without a store. -/
def update {α : Type} (store : α → Lower) (self : Lower) (new : Option α) : Bool × Lower :=
  match new with
  | some v => (true, store v)
  | none => (false, self)

/-- `none` is a failed assertion, or an access outside the buffers. -/
def LoOp.exec : (o : LoOp) → Lower → Option (o.Res × Lower)
  | .childLoad i, l => if i < l.entryCount then some (l.children i, l) else none
  | .childCas i expected desired, l =>
    if i < l.entryCount then
      some (update (l.setChild i) l (if l.children i = expected then some desired else none))
    else none
  | .childInc i order, l =>
    if i < l.entryCount then
      some (update (l.setChild i) l (Entries.childInc (l.children i) order))
    else none
  | .childDec i order, l =>
    if i < l.entryCount then
      some (update (l.setChild i) l (Entries.childDec (l.children i) order))
    else none
  | .rowZeros row order, l =>
    if row < l.rowCount then
      (firstZerosAligned (l.rows row) order).map fun found => match found with
        | some (p, v) => (some p, l.setRow row v)
        | none => (none, l)
    else none
  | .rowToggle row mask expected, l =>
    if row < l.rowCount then
      some (update (l.setRow row) l (Entries.rowToggle (l.rows row) mask expected))
    else none
  | .rowCas row expected desired, l =>
    if row < l.rowCount then
      some (update (l.setRow row) l (if l.rows row = expected then some desired else none))
    else none

section Access

variable (l : Lower)

@[simp] theorem LoOp.exec_childLoad (i : Nat) :
    LoOp.exec (.childLoad i) l = if i < l.entryCount then some (l.children i, l) else none := rfl

@[simp] theorem LoOp.exec_childCas (i : Nat) (expected desired : Child) :
    LoOp.exec (.childCas i expected desired) l =
      if i < l.entryCount then
        some (update (l.setChild i) l (if l.children i = expected then some desired else none))
      else none := rfl

@[simp] theorem LoOp.exec_childInc (i order : Nat) :
    LoOp.exec (.childInc i order) l =
      if i < l.entryCount then
        some (update (l.setChild i) l (Entries.childInc (l.children i) order))
      else none := rfl

@[simp] theorem LoOp.exec_childDec (i order : Nat) :
    LoOp.exec (.childDec i order) l =
      if i < l.entryCount then
        some (update (l.setChild i) l (Entries.childDec (l.children i) order))
      else none := rfl

@[simp] theorem LoOp.exec_rowZeros (row order : Nat) :
    LoOp.exec (.rowZeros row order) l =
      if row < l.rowCount then
        (firstZerosAligned (l.rows row) order).map fun found => match found with
          | some (p, v) => (some p, l.setRow row v)
          | none => (none, l)
      else none := rfl

@[simp] theorem LoOp.exec_rowToggle (row : Nat) (mask : Row) (expected : Bool) :
    LoOp.exec (.rowToggle row mask expected) l =
      if row < l.rowCount then
        some (update (l.setRow row) l (Entries.rowToggle (l.rows row) mask expected))
      else none := rfl

@[simp] theorem LoOp.exec_rowCas (row : Nat) (expected desired : Row) :
    LoOp.exec (.rowCas row expected desired) l =
      if row < l.rowCount then
        some (update (l.setRow row) l (if l.rows row = expected then some desired else none))
      else none := rfl

end Access

abbrev LoProg := Prog LoOp LoOp.Res

def childLoad (i : Nat) : LoProg Child := .step (.childLoad i) .ret
def childCas (i : Nat) (expected desired : Child) : LoProg Bool :=
  .step (.childCas i expected desired) .ret
def childIncAt (i order : Nat) : LoProg Bool := .step (.childInc i order) .ret
def childDecAt (i order : Nat) : LoProg Bool := .step (.childDec i order) .ret
def rowZerosAt (row order : Nat) : LoProg (Option Nat) := .step (.rowZeros row order) .ret
def rowToggleAt (row : Nat) (mask : Row) (expected : Bool) : LoProg Bool :=
  .step (.rowToggle row mask expected) .ret
def rowCas (row : Nat) (expected desired : Row) : LoProg Bool :=
  .step (.rowCas row expected desired) .ret

end LLFree.Code.Entries

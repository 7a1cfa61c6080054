/- module: LLFree/Code/Local
   digest: The slots that hold reserved trees. -/

import LLFree.Code.Types

set_option autoImplicit false
set_option relaxedAutoImplicit false

namespace LLFree.Code.Local

open LLFree.Code.Types

structure Reserved where
  present : Bool
  free : Nat
  startRow : Nat
  deriving DecidableEq, Repr

/-- What `start_row` keeps of a row number. -/
def storeRow (row : Nat) : Nat := row % 2 ^ startRowBits

/-- `ll_reserved_new`; `none` is its failed assertion. -/
def llReservedNew (present : Bool) (free startRow : Nat) : Option Reserved :=
  if free ≤ treeSize then some ⟨present, free, storeRow startRow⟩ else none

/-- `ll_reserved_new(false, 0, row_id(0))`. -/
def noReserved : Reserved := ⟨false, 0, 0⟩

def llReservedDec (self : Reserved) (treeIdx : Option Nat) (frames : Nat) : Option Reserved :=
  if ¬ self.present then none
  else if treeIdx.any (· ≠ treeFromRow self.startRow) then none
  else if self.free < frames then none
  else some { self with free := self.free - frames }

/-- `ll_reserved_inc`; the outer `none` is its failed assertion. -/
def llReservedInc (self : Reserved) (treeIdx frames : Nat) : Option (Option Reserved) :=
  if ¬ self.present ∨ treeFromRow self.startRow ≠ treeIdx then some none
  else if self.free + frames ≤ treeSize then some (some { self with free := self.free + frames })
  else none

def llReservedSetStart (self : Reserved) (startRow : Nat) : Option Reserved :=
  if ¬ self.present ∨ treeFromRow self.startRow ≠ treeFromRow startRow then none
  else some { self with startRow := storeRow startRow }

def llReservedTake (self : Reserved) (treeIdx : Option Nat) (frames : Nat) : Option Reserved :=
  (llReservedDec self treeIdx frames).map fun _ => noReserved

structure LocalResult where
  success : Bool
  present : Bool
  cls : Nat
  free : Nat
  startRow : Nat
  deriving DecidableEq, Repr

def makeResult (success : Bool) (cls : Nat) (old : Reserved) : LocalResult :=
  ⟨success, old.present, cls, old.free, old.startRow⟩

structure DemoteAnyResult where
  found : Bool
  row : Nat
  unreserve : Bool
  unresRow : Nat
  unresClass : Nat
  unresFree : Nat
  deriving DecidableEq, Repr

/-- `ll_local_class_locals` after `ll_local_init`: the last configuration of a class counts. -/
def classLocals (classing : Classing) (cls : Nat) : Option Nat :=
  if cls ≥ maxClasses then none else classing.classes.reverse.lookup cls

end LLFree.Code.Local

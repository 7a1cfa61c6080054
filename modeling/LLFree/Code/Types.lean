/- module: LLFree/Code/Types
   digest: Sizes, identifiers, results, requests and classings of the allocator. -/

import Mathlib.Algebra.Group.Nat.Defs

set_option autoImplicit false
set_option relaxedAutoImplicit false

namespace LLFree.Code.Types

/-! ## Sizes -/

abbrev atomicOrder : Nat := 6
abbrev atomicSize : Nat := 64
abbrev hugeOrder : Nat := 9
abbrev childOrder : Nat := 9
abbrev childSize : Nat := 512
abbrev treeChildren : Nat := 8
abbrev treeOrder : Nat := 12
abbrev treeSize : Nat := 4096
abbrev fieldN : Nat := 8
abbrev cacheSize : Nat := 64
abbrev maxClasses : Nat := 8
abbrev classNone : Nat := 255
abbrev minPages : Nat := 512
abbrev maxPages : Nat := 2 ^ 52
abbrev retries : Nat := 4
abbrev treesSearchBest : Nat := 8

/-- Bits of `start_row` in a slot: 64 without the 28 of the counter and the presence bit. -/
abbrev startRowBits : Nat := 35

/-- `LLFREE_CLASS_BITS`. -/
abbrev classBits : Nat := 3

/-! ## Identifiers -/

def treeFromFrame (frame : Nat) : Nat := frame / treeSize
def frameFromTree (tree : Nat) : Nat := tree * treeSize
def childFromFrame (frame : Nat) : Nat := frame / childSize
def frameFromChild (child : Nat) : Nat := child * childSize
def rowFromFrame (frame : Nat) : Nat := frame / atomicSize
def frameFromRow (row : Nat) : Nat := row * atomicSize
def treeFromRow (row : Nat) : Nat := treeFromFrame (frameFromRow row)
def rowFromTree (tree : Nat) : Nat := rowFromFrame (frameFromTree tree)

def divCeil (a b : Nat) : Nat := (a + b - 1) / b
def alignDown (val align : Nat) : Nat := val / align * align
def alignUp (val align : Nat) : Nat := alignDown (val + align - 1) align

/-- `next_pow2`: the position of the top bit of `val - 1` is `log2 (val - 1)`. -/
def nextPow2 (val : Nat) : Nat := if val ≤ 1 then 1 else 2 ^ (Nat.log2 (val - 1) + 1)

/-- `for_offsetted`: the `len` values of the aligned group of `start`, from `start` on, wrapping. -/
def forOffsetted (start len : Nat) : List Nat :=
  (List.range len).map fun i => start - start % len + (i + start % len) % len

/-! ## Results -/

inductive Err where
  | ok
  | memory
  | argument
  | init
  deriving DecidableEq, Repr

/-- `llfree_result_t`. -/
structure Result where
  frame : Nat
  cls : Nat
  error : Err
  deriving DecidableEq, Repr

def llfreeOk (frame cls : Nat) : Result := ⟨frame, cls, .ok⟩
def llfreeErr (error : Err) : Result := ⟨0, 0, error⟩

@[simp] theorem llfreeOk_error (frame cls : Nat) : (llfreeOk frame cls).error = .ok := rfl
@[simp] theorem llfreeOk_frame (frame cls : Nat) : (llfreeOk frame cls).frame = frame := rfl
@[simp] theorem llfreeOk_cls (frame cls : Nat) : (llfreeOk frame cls).cls = cls := rfl
@[simp] theorem llfreeErr_error (error : Err) : (llfreeErr error).error = error := rfl

/-- The `LLFREE_INIT_*` modes; `unknown` is any other byte. -/
inductive InitMode where
  | free
  | alloc
  | recover
  | none
  | unknown
  deriving DecidableEq, Repr

/-- `llfree_request_t`. -/
structure Request where
  order : Nat
  cls : Nat
  slot : Option Nat
  deriving DecidableEq, Repr

/-! ## Classes -/

inductive PolicyType where
  | match
  | steal
  | demote
  | invalid
  deriving DecidableEq, Repr

/-- `llfree_policy_t`. -/
structure Policy where
  type : PolicyType
  priority : UInt8
  deriving DecidableEq

/-- `llfree_policy_fn`: the requested class, the class of the target and its free frames. -/
abbrev PolicyFn := Nat → Nat → Nat → Policy

/-- `llfree_classing_t`: the configured classes with their slot counts. -/
structure Classing where
  classes : List (Nat × Nat)
  defaultClass : Nat
  policy : PolicyFn

def llfreeSimplePolicy : PolicyFn := fun requested target free =>
  if requested > target then ⟨.steal, 0⟩
  else if requested < target then ⟨.demote, 0⟩
  else if free ≥ treeSize / 2 then ⟨.match, 1⟩
  else if free ≥ treeSize / 64 then ⟨.match, 255⟩
  else ⟨.match, 0⟩

def llfreeClassingSimple (cores : Nat) : Classing where
  classes := [(0, cores), (1, cores)]
  defaultClass := 1
  policy := llfreeSimplePolicy

def llfreeMovablePolicy : PolicyFn := fun requested target free =>
  if requested > target then ⟨.steal, 0⟩
  else if requested < target then ⟨.demote, 0⟩
  else if free ≥ treeSize / 2 then ⟨.match, 1⟩
  else if free ≥ treeSize / 64 then ⟨.match, 255⟩
  else ⟨.match, 2⟩

def llfreeClassingMovable (cores : Nat) : Classing where
  classes := [(0, cores), (1, cores), (2, cores)]
  defaultClass := 2
  policy := llfreeMovablePolicy

end LLFree.Code.Types

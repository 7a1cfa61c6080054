/- module: LLFree/Code/Trees
   digest: Tree entries and the updates of the tree array. -/

import LLFree.Code.Types

set_option autoImplicit false
set_option relaxedAutoImplicit false

namespace LLFree.Code.Trees

open LLFree.Code.Types

@[ext]
structure Tree where
  reserved : Bool
  cls : Nat
  free : Nat
  deriving DecidableEq, Repr

/-- What `class` keeps of a class. -/
def storeClass (cls : Nat) : Nat := cls % 2 ^ classBits

theorem storeClass_lt (cls : Nat) : storeClass cls < maxClasses := Nat.mod_lt cls (by decide)

theorem storeClass_le (cls : Nat) : storeClass cls ≤ cls := Nat.mod_le ..

/-- `tree_new`; `none` is its failed assertion. -/
def treeNew (reserved : Bool) (cls free : Nat) : Option Tree :=
  if free ≤ treeSize ∧ cls < maxClasses then some ⟨reserved, cls, free⟩ else none

/-- `tree_put`; `none` is its failed assertion. -/
def treePut (self : Tree) (frames : Nat) (policy : PolicyFn) (defaultClass : Nat) : Option Tree :=
  let free := self.free + frames
  if free ≤ treeSize then
    if free = treeSize ∧ (policy self.cls defaultClass free).type ≠ .invalid then
      some { self with free := free, cls := defaultClass }
    else
      some { self with free := free }
  else none

/-- `tree_steal`: the new entry and the class that `*class` is set to. -/
def treeSteal (self : Tree) (frames cls : Nat) (policy : PolicyFn) : Option (Tree × Nat) :=
  if self.free < frames then none
  else
    match (policy cls self.cls self.free).type with
    | .match | .demote => some ({ self with free := self.free - frames, cls := cls }, cls)
    | .steal => some ({ self with free := self.free - frames }, self.cls)
    | .invalid => none

/-- `tree_reserve_or_steal`: the new entry, `*out_reserved` and `*out_class`. -/
def treeReserveOrSteal (self : Tree) (frames : Nat) (policy : PolicyFn) (cls : Nat) :
    Option (Tree × Bool × Nat) :=
  if self.reserved ∨ self.free < frames then none
  else
    match (policy cls self.cls self.free).type with
    | .match | .demote => some (⟨true, cls, 0⟩, true, cls)
    | .steal => some ({ self with free := self.free - frames }, false, self.cls)
    | .invalid => none

/-- `tree_unreserve_add`: it fails on a tree that is not reserved, and then changes nothing.
The outer `none` is the failed assertion of `tree_put`. -/
def treeUnreserveAdd (self : Tree) (frames cls : Nat) (policy : PolicyFn) (defaultClass : Nat) :
    Option (Option Tree) :=
  if self.reserved then
    let merged : Tree :=
      if (policy cls self.cls frames).type = .demote then
        { self with reserved := false, cls := cls }
      else { self with reserved := false }
    (treePut merged frames policy defaultClass).map some
  else some none

def treeSyncSteal (self : Tree) (min : Nat) : Option Tree :=
  if self.reserved ∧ self.free > min then some { self with free := 0 } else none

/-- `llfree_tree_operation_t`. -/
inductive TreeOperation where
  | none
  | online
  | offline
  deriving DecidableEq, Repr

def treeChange (self : Tree) (matchClass minFree changeClass : Nat) (operation : TreeOperation)
    (onlineFree : Nat) : Option Tree :=
  if self.reserved then none
  else if matchClass ≠ classNone ∧ self.cls ≠ matchClass then none
  else if self.free < minFree then none
  else
    let classed :=
      if changeClass ≠ classNone then { self with cls := storeClass changeClass } else self
    match operation with
    | .none => some classed
    | .offline => some { classed with free := 0 }
    | .online => if self.free ≠ 0 then none else some { classed with free := onlineFree }

/-- The index that `trees_search` and `trees_search_best` visit at position `i`: positions
alternate between both sides of `start`. -/
def searchIdx (start len i : Nat) : Nat :=
  (if i % 2 = 0 then start + len + i / 2 else start + len - (i + 1) / 2) % len

/-- A candidate of `trees_search_best`; priority 0 is an empty place. -/
structure Best where
  prio : UInt8
  idx : Nat
  deriving DecidableEq

/-- The insertion into the array of candidates: the last one falls out. -/
def insertBest (prio : UInt8) (idx : Nat) : List Best → List Best
  | [] => []
  | b :: rest =>
    if prio > b.prio then ⟨prio, idx⟩ :: (b :: rest).dropLast
    else b :: insertBest prio idx rest

end LLFree.Code.Trees

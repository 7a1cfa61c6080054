/- module: LLFree/Code/Setup
   digest: Initialisation, statistics and validation of the whole allocator. -/

import LLFree.Code.Llfree

set_option autoImplicit false
set_option relaxedAutoImplicit false

namespace LLFree.Code.Setup

open LLFree.Code.Types LLFree.Code.Entries LLFree.Code.Lower LLFree.Code.Trees
open LLFree.Code.Local LLFree.Code.Shared LLFree.Code.Llfree

variable (K : Config)

/-! ## Initialisation -/

def initTreeCb (lower : Lower) (idx : Nat) : Nat := groupFree lower (idx * treeChildren)

/-- `trees_init`; `none` is a failed assertion of `tree_new`. -/
def treesInit (init : InitMode) (lower : Lower) (buffer : Nat → Tree) : Option (Nat → Tree) :=
  let entry := fun idx => treeNew false K.defaultClass (initTreeCb lower idx)
  if init = .none then some buffer
  else if ∀ idx < K.treesLen, (entry idx).isSome then
    some fun idx => if idx < K.treesLen then (entry idx).getD (buffer idx) else buffer idx
  else none

def llLocalInit (buffer : Nat → Nat → Reserved) : Nat → Nat → Reserved := fun cls index =>
  if K.HasSlot cls index then noReserved else buffer cls index

/-- `llfree_init` over the contents of the buffers; `none` is a failed assertion. -/
def llfreeInit (init : InitMode) (buffers : Llfree Lower) : Option (Result × Llfree Lower) :=
  if 1 ≤ K.numClasses ∧ K.numClasses ≤ maxClasses then
    if K.frames < minPages ∨ K.frames > maxPages then some (llfreeErr .init, buffers)
    else
      let (res, lower) := lowerInit buffers.lower K.frames init
      if res.error ≠ .ok then some (res, { buffers with lower := lower })
      else
        (treesInit K init lower buffers.upper.trees).map fun trees =>
          (llfreeOk 0 0, ⟨lower, ⟨trees, llLocalInit K buffers.upper.slots⟩⟩)
  else none

/-! ## Statistics -/

/-- `ll_class_stats_t`. -/
structure ClassStats where
  freeFrames : Nat
  allocFrames : Nat

/-- `ll_tree_stats_t`. -/
structure TreeStats where
  freeFrames : Nat
  freeTrees : Nat
  classes : Nat → ClassStats

def treesStats (u : Upper) : TreeStats where
  freeFrames := ((List.range K.treesLen).map fun i => (u.trees i).free).sum
  freeTrees := (List.range K.treesLen).countP fun i => (u.trees i).free == treeSize
  classes := fun cls =>
    let own := (List.range K.treesLen).filter fun i => (u.trees i).cls == cls
    ⟨(own.map fun i => (u.trees i).free).sum, (own.map fun i => treeSize - (u.trees i).free).sum⟩

def presentSlots (u : Upper) : List (Nat × Nat) :=
  (allSlots K).filter fun (t, i) => (u.slots t i).present

def llLocalStats (u : Upper) : TreeStats where
  freeFrames := ((presentSlots K u).map fun (t, i) => (u.slots t i).free).sum
  freeTrees := (presentSlots K u).countP fun (t, i) => (u.slots t i).free == treeSize
  classes := fun cls =>
    let own := (presentSlots K u).filter fun (t, _) => t == cls
    ⟨(own.map fun (t, i) => (u.slots t i).free).sum, 0⟩

/-- `ll_local_stats_at`: the first slot that holds tree `treeIdx`. -/
def llLocalStatsAt (u : Upper) (treeIdx : Nat) : LocalResult :=
  match (presentSlots K u).find? fun (t, i) => treeFromRow (u.slots t i).startRow == treeIdx with
  | some (t, i) => makeResult true t (u.slots t i)
  | none => ⟨false, false, 0, 0, 0⟩

def llfreeTreeStats (u : Upper) : TreeStats where
  freeFrames := (llLocalStats K u).freeFrames + (treesStats K u).freeFrames
  freeTrees := (llLocalStats K u).freeTrees + (treesStats K u).freeTrees
  classes := fun cls =>
    ⟨((llLocalStats K u).classes cls).freeFrames + ((treesStats K u).classes cls).freeFrames,
      ((llLocalStats K u).classes cls).allocFrames + ((treesStats K u).classes cls).allocFrames⟩

/-! ## Validation -/

/-- The checks of `llfree_validate` on tree `idx`. -/
def validateEntry (s : Llfree Lower) (idx : Nat) : Bool :=
  let tree := s.upper.trees idx
  tree.free ≤ treeSize && tree.cls < K.numClasses &&
    (tree.reserved || (lowerStatsAt s.lower (frameFromTree idx) treeOrder).freeFrames == tree.free)

/-- `validate_tree` on the slot `res`. -/
def validateTree (s : Llfree Lower) (res : Reserved) : Bool :=
  let treeIdx := treeFromRow res.startRow
  let tree := s.upper.trees treeIdx
  treeIdx < K.treesLen && tree.reserved && tree.cls < K.numClasses &&
    tree.free + res.free ≤ treeSize &&
    tree.free + res.free == (lowerStatsAt s.lower (frameFromRow res.startRow) treeOrder).freeFrames

/-- `llfree_validate`: whether all its checks pass. -/
def llfreeValidate (s : Llfree Lower) : Bool :=
  (lowerStats s.lower).freeFrames == (llfreeTreeStats K s.upper).freeFrames &&
    (List.range K.treesLen).all (validateEntry K s) &&
    (allSlots K).all fun (t, i) =>
      (s.upper.slots t i).free ≤ treeSize &&
        (!(s.upper.slots t i).present || validateTree K s (s.upper.slots t i))

end LLFree.Code.Setup

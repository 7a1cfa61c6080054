/- module: LLFree/Code/Accesses
   digest: The loops over the lower metadata, access by access, and the bytes they touch. -/

import LLFree.Code.Layout

set_option autoImplicit false
set_option relaxedAutoImplicit false

namespace LLFree.Code.Accesses

open LLFree.Atomic.Program LLFree.Code.Types LLFree.Code.Entries LLFree.Code.Lower
open LLFree.Code.Layout LLFree.Memory.Regions LLFree.Words.Lanes

/-- An access to entry `entry` of a group of children, or to a row of a bitfield. -/
inductive BufferOp where
  | childLoad (group entry : Nat)
  | childStore (group entry : Nat) (child : Child)
  | rowLoad (field row : Nat)
  | rowStore (field row : Nat) (v : Row)

abbrev BufferOp.Res : BufferOp → Type
  | .childLoad .. => Child
  | .childStore .. => Unit
  | .rowLoad .. => Row
  | .rowStore .. => Unit

def BufferOp.exec : (o : BufferOp) → Lower → Option (o.Res × Lower)
  | .childLoad group entry, l => some (l.children (group * treeChildren + entry), l)
  | .childStore group entry child, l => some ((), l.setChild (group * treeChildren + entry) child)
  | .rowLoad field row, l => some (l.rows (field * fieldN + row), l)
  | .rowStore field row v, l => some ((), l.setRow (field * fieldN + row) v)

def childRegion (frames group entry : Nat) : Region :=
  ⟨bitfieldSize frames + childrenBytes * group + childBytes * entry, childBytes, childBytes⟩

def rowRegion (field row : Nat) : Region :=
  ⟨bitfieldBytes * field + rowBytes * row, rowBytes, rowBytes⟩

/-- The access stays within what `lower_init` lays out for its kind. -/
def BufferOp.InPlace (frames : Nat) : BufferOp → Prop
  | .childLoad group entry | .childStore group entry _ =>
    ∃ outer ∈ childrenRegions frames, (childRegion frames group entry).Within outer
  | .rowLoad field row | .rowStore field row _ =>
    ∃ outer ∈ fieldRegions frames, (rowRegion field row).Within outer

abbrev BufferProg := Prog BufferOp BufferOp.Res

def loadChild (ptr : Nat × Nat) : BufferProg Child := .step (.childLoad ptr.1 ptr.2) .ret
def storeChild (ptr : Nat × Nat) (child : Child) : BufferProg Unit :=
  .step (.childStore ptr.1 ptr.2 child) .ret
def loadRow (field row : Nat) : BufferProg Row := .step (.rowLoad field row) .ret
def storeRow (field row : Nat) (v : Row) : BufferProg Unit := .step (.rowStore field row v) .ret

variable (frames : Nat)

/-- `get_child`: the group and the entry of child `i`. -/
def childPtr (i : Nat) : BufferProg (Nat × Nat) := do
  Prog.assert (i < sizeAlignUp (childCount frames) treeChildren)
  return (i / treeChildren, i % treeChildren)

/-! ## Initialisation -/

def zeroField (field : Nat) : BufferProg Unit :=
  Prog.each (List.range' 0 fieldN) fun i => storeRow field i 0#64

/-- The loop of `init_field` from row `i` on, with `free` frames left. -/
def initFieldFrom (field : Nat) : Nat → Nat → Nat → BufferProg Unit
  | _, 0, _ => return ()
  | i, left + 1, free => do
    if free ≥ atomicSize then
      storeRow field i 0#64
      initFieldFrom field (i + 1) left (free - atomicSize)
    else if free > 0 then
      storeRow field i (BitVec.allOnes 64 <<< free)
      initFieldFrom field (i + 1) left 0
    else
      storeRow field i (BitVec.allOnes 64)
      initFieldFrom field (i + 1) left free

def initField (field free : Nat) : BufferProg Unit := initFieldFrom field 0 fieldN free

/-- One turn of the first loop of `lower_clear`. -/
def clearChild (freeAll : Bool) (i : Nat) : BufferProg Unit := do
  let f := min childSize (frames - i * childSize)
  let free := if freeAll then f else 0
  let ptr ← childPtr frames i
  storeChild ptr (childNew free (free == 0))
  if free = 0 then zeroField i else initField i free

/-- One turn of the second loop of `lower_clear`. -/
def clearLeftover (i : Nat) : BufferProg Unit := do
  let ptr ← childPtr frames i
  storeChild ptr (childNew 0 true)

/-- `lower_clear`. -/
def lowerClearLoop (freeAll : Bool) : BufferProg Unit := do
  let childC := childCount frames
  Prog.each (List.range' 0 childC) (clearChild frames freeAll)
  Prog.each (List.range' childC (sizeAlignUp childC treeChildren - childC)) (clearLeftover frames)

/-- `field_init`. -/
def fieldInitLoop (field : Nat) : BufferProg Unit :=
  Prog.each (List.range' 0 fieldN) fun i => storeRow field i 0#64

/-- `field_count_ones`. -/
def fieldCountOnesLoop (field : Nat) : BufferProg Nat := do
  let counter ← (List.range' 0 fieldN).foldlM (fun counter i => do
    let row ← loadRow field i
    return counter + ones row) 0
  Prog.assert (counter ≤ childSize)
  return counter

/-- One turn of the loop of `lower_recover`. -/
def recoverChild (i : Nat) : BufferProg Unit := do
  let child ← loadChild (← childPtr frames i)
  if child.huge then
    let ptr ← childPtr frames i
    storeChild ptr (childNew 0 true)
    fieldInitLoop i
  else
    let counter := childSize - (← fieldCountOnesLoop i)
    let ptr ← childPtr frames i
    storeChild ptr (childNew counter false)

/-- `lower_recover`. -/
def lowerRecoverLoop : BufferProg Unit :=
  Prog.each (List.range' 0 (childCount frames)) (recoverChild frames)

/-- `init_tree_cb`. -/
def initTreeCbLoop (treeStartFrame : Nat) : BufferProg Nat :=
  (List.range' 0 treeChildren).foldlM (fun sum childIdx => do
    let child ← loadChild (treeFromFrame treeStartFrame, childIdx)
    return sum + child.free) 0

/-! ## Statistics -/

/-- One turn of the inner loop of `lower_stats`. -/
def statsChild (i : Nat) (sum : Stats × Nat) (j : Nat) : BufferProg (Stats × Nat) := do
  let child ← loadChild (i, j)
  return (⟨sum.1.freeFrames + child.free, sum.1.freeHuge + (child.free == childSize).toNat,
    sum.1.freeTrees⟩, sum.2 + child.free)

/-- One turn of the outer loop of `lower_stats`. -/
def statsGroup (stats : Stats) (i : Nat) : BufferProg Stats := do
  let (stats, freeFrames) ← (List.range' 0 treeChildren).foldlM (statsChild i) (stats, 0)
  return { stats with freeTrees := stats.freeTrees + (freeFrames == treeSize).toNat }

/-- `lower_stats`. -/
def lowerStatsLoop : BufferProg Stats :=
  (List.range' 0 (childrenCount frames)).foldlM statsGroup ⟨0, 0, 0⟩

/-- One turn of the loop of `lower_stats_at` over a tree. -/
def statsAtChild (start : Nat) (stats : Stats) (i : Nat) : BufferProg Stats := do
  let child ← loadChild (← childPtr frames (start + i))
  return ⟨stats.freeFrames + child.free, stats.freeHuge + (child.free == childSize).toNat,
    stats.freeTrees⟩

/-- `lower_stats_at`. -/
def lowerStatsAtLoop (frame order : Nat) : BufferProg Stats := do
  if frame ≥ frames then return ⟨0, 0, 0⟩
  else if order = 0 then
    let i := childFromFrame frame
    let child ← loadChild (← childPtr frames i)
    if child.free = childSize then return ⟨1, 0, 0⟩
    else if child.free > 0 then
      let row ← loadRow i (frame % childSize / atomicSize)
      return ⟨(!row.getLsbD (frame % childSize % atomicSize)).toNat, 0, 0⟩
    else return ⟨0, 0, 0⟩
  else if order = hugeOrder then
    let child ← loadChild (← childPtr frames (childFromFrame frame))
    return ⟨child.free, (child.free == childSize).toNat, 0⟩
  else if order = treeOrder then
    let start := alignDown (childFromFrame frame) treeChildren
    let stats ← (List.range' 0 treeChildren).foldlM (statsAtChild frames start) ⟨0, 0, 0⟩
    return { stats with freeTrees := (stats.freeFrames == treeSize).toNat }
  else return ⟨0, 0, 0⟩

end LLFree.Code.Accesses

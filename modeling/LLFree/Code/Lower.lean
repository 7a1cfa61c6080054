/- module: LLFree/Code/Lower
   digest: Bitfield searches and the lower allocator as programs over its words. -/

import LLFree.Code.Entries

set_option autoImplicit false
set_option relaxedAutoImplicit false

namespace LLFree.Code.Lower

open LLFree.Atomic.Program LLFree.Code.Types LLFree.Code.Entries LLFree.Words.Lanes

/-! ## Bitfields

Row `r` of the bitfield of child `c` is row `c * fieldN + r`. -/

/-- The loop over the rows of one candidate of a multi-row search, from row `i` on. -/
def setEntries (base : Nat) : Nat → Nat → LoProg Bool
  | _, 0 => return true
  | i, left + 1 => do
    if ← rowCas (base + i) 0#64 (BitVec.allOnes 64) then
      setEntries base (i + 1) left
    else
      Prog.each (List.range i) fun j => do
        let undone ← rowCas (base + j) (BitVec.allOnes 64) 0#64
        Prog.assert (undone = true)
      return false

def fieldSetNext (field startFrame order : Nat) : LoProg Result := do
  Prog.assert (2 ^ order < childSize)
  let row := rowFromFrame startFrame % fieldN
  if 2 ^ order ≤ atomicSize then
    let found ← Prog.firstSome (forOffsetted row fieldN) fun i => do
      let pos ← rowZerosAt (field * fieldN + i) order
      return pos.map fun p => llfreeOk (i * atomicSize + p) 0
    return found.getD (llfreeErr .memory)
  else
    let entries := 2 ^ order / atomicSize
    let found ← Prog.firstSome (forOffsetted (row / entries) (fieldN / entries)) fun i => do
      let set ← setEntries (field * fieldN + i * entries) 0 entries
      return if set then some (llfreeOk (i * entries * atomicSize) 0) else none
    return found.getD (llfreeErr .memory)

/-- The loop over the rows of a multi-row toggle, from row `i` on. The undo compares with the
value the row had before the exchange. -/
def toggleEntries (base : Nat) (mask : Row) : Nat → Nat → LoProg Result
  | _, 0 => return llfreeErr .ok
  | i, left + 1 => do
    if ← rowCas (base + i) mask (~~~mask) then
      toggleEntries base mask (i + 1) left
    else
      Prog.each (List.range i) fun j => do
        let success ← rowCas (base + (i - j - 1)) mask (~~~mask)
        Prog.assert (success = true)
      return llfreeErr .memory

def fieldToggle (field index order : Nat) (expected : Bool) : LoProg Result := do
  Prog.assert (index < childSize)
  let row := field * fieldN + index / atomicSize
  if 2 ^ order > atomicSize then
    let mask : Row := if expected then BitVec.allOnes 64 else 0#64
    toggleEntries row mask 0 (2 ^ order / atomicSize)
  else
    if ← rowToggleAt row (rowMask (index % atomicSize) order) expected then
      return llfreeErr .ok
    else
      return llfreeErr .memory

def fieldCountOnes (self : Lower) (field : Nat) : Nat :=
  ((List.range fieldN).map fun r => ones (self.rows (field * fieldN + r))).sum

def fieldIsFree (self : Lower) (field index : Nat) : Bool :=
  !(self.rows (field * fieldN + index / atomicSize)).getLsbD (index % atomicSize)

/-! ## Initialisation -/

/-- Row `r` of a bitfield after `init_field` with `free` free frames. -/
def initFieldRow (free r : Nat) : Row :=
  if free ≥ (r + 1) * atomicSize then 0#64
  else if free > r * atomicSize then BitVec.allOnes 64 <<< (free - r * atomicSize)
  else BitVec.allOnes 64

/-- The free frames `lower_clear` gives to child `i`. -/
def clearFree (frames : Nat) (freeAll : Bool) (i : Nat) : Nat :=
  if freeAll then min childSize (frames - i * childSize) else 0

/-- `lower_clear`, entry by entry: the padding entries after the last child are `(0, huge)`. -/
def lowerClear (self : Lower) (freeAll : Bool) : Lower where
  frames := self.frames
  children := fun i =>
    if i < self.childCount then
      childNew (clearFree self.frames freeAll i) (clearFree self.frames freeAll i == 0)
    else if i < self.entryCount then childNew 0 true
    else self.children i
  rows := fun r =>
    if r / fieldN < self.childCount then
      if clearFree self.frames freeAll (r / fieldN) = 0 then 0#64
      else initFieldRow (clearFree self.frames freeAll (r / fieldN)) (r % fieldN)
    else self.rows r

/-- `lower_recover`, entry by entry. -/
def lowerRecover (self : Lower) : Lower where
  frames := self.frames
  children := fun i =>
    if i < self.childCount then
      if (self.children i).huge then childNew 0 true
      else childNew (childSize - fieldCountOnes self i) false
    else self.children i
  rows := fun r =>
    if r / fieldN < self.childCount ∧ (self.children (r / fieldN)).huge then 0#64
    else self.rows r

def zeroed : Lower := ⟨0, fun _ => ⟨0, false⟩, fun _ => 0#64⟩

/-- `lower_init` on the buffers that hold the words of `buffers`. -/
def lowerInit (buffers : Lower) (frames : Nat) (init : InitMode) : Result × Lower :=
  let self := { buffers with frames := frames }
  match init with
  | .free => (llfreeErr .ok, lowerClear self true)
  | .alloc => (llfreeErr .ok, lowerClear self false)
  | .none => (llfreeErr .ok, self)
  | .recover => (llfreeErr .ok, lowerRecover self)
  | .unknown => (llfreeErr .init, self)

/-! ## Allocation -/

/-- The loop of `try_update_huge_n` from child `j` on. The undo of child `k` is applied to
child `j - k`. -/
def tryUpdateHugeFrom (baseIdx : Nat) (expected desired : Child) : Nat → Nat → LoProg Bool
  | _, 0 => return true
  | j, left + 1 => do
    if ← childCas (baseIdx + j) expected desired then
      tryUpdateHugeFrom baseIdx expected desired (j + 1) left
    else
      Prog.each (List.range j) fun k => do
        let undone ← childCas (baseIdx + (j - k)) desired expected
        Prog.assert (undone = true)
      return false

def tryUpdateHugeN (baseIdx hNum : Nat) (expected desired : Child) : LoProg Bool :=
  tryUpdateHugeFrom baseIdx expected desired 0 hNum

/-- The range check of `lower_get_at` and `lower_put`, in 64-bit arithmetic. -/
def invalidFrame (frames frame order : Nat) : Bool :=
  (frame + 2 ^ order) % 2 ^ 64 > frames || frame % 2 ^ order != 0

def lowerGetAt (frames frame order : Nat) : LoProg Result := do
  if invalidFrame frames frame order then
    return llfreeErr .argument
  else
    let childIdx := childFromFrame frame
    if order ≥ hugeOrder then
      let hNum := 2 ^ (order - hugeOrder)
      if ← tryUpdateHugeN childIdx hNum (childNew childSize false) (childNew 0 true) then
        return llfreeOk frame 0
      else
        return llfreeErr .memory
    else if ← childDecAt childIdx order then
      let ret ← fieldToggle childIdx (frame % childSize) order false
      if ret.error = .ok then
        return llfreeOk frame 0
      else
        let undone ← childIncAt childIdx order
        Prog.assert (undone = true)
        return llfreeErr .memory
    else
      return llfreeErr .memory

/-- One iteration of the search of `lower_get` over aligned groups of children. -/
def getGroup (hNum i : Nat) : LoProg (Option Result) := do
  if ← tryUpdateHugeN (i * hNum) hNum (childNew childSize false) (childNew 0 true) then
    return some (llfreeOk (frameFromChild (i * hNum)) 0)
  else
    return none

/-- One iteration of the search of `lower_get` over the children of a tree. -/
def getChild (startFrame order i : Nat) : LoProg (Option Result) := do
  if ← childDecAt i order then
    let pos ← fieldSetNext i startFrame order
    if pos.error = .ok then
      return some (llfreeOk (frameFromChild i + pos.frame) 0)
    else
      let undone ← childIncAt i order
      Prog.assert (undone = true)
      return none
  else
    return none

def lowerGet (frames startFrame order : Nat) (frame : Option Nat) : LoProg Result := do
  Prog.assert (order ≤ treeOrder)
  match frame with
  | none =>
    Prog.assert (startFrame < frames)
    let idx := childFromFrame startFrame
    Prog.assert (idx < divCeil frames childSize)
    if order ≥ hugeOrder then
      let hNum := 2 ^ (order - hugeOrder)
      let base := alignDown idx hNum
      let found ← Prog.firstSome (forOffsetted (base / hNum) (treeChildren / hNum)) (getGroup hNum)
      return found.getD (llfreeErr .memory)
    else
      let found ← Prog.firstSome (forOffsetted idx treeChildren) (getChild startFrame order)
      return found.getD (llfreeErr .memory)
  | some frame => lowerGetAt frames frame order

def splitWait (child : Nat) : Nat → LoProg Result
  | 0 => return llfreeErr .memory
  | left + 1 => do
    let c ← childLoad child
    if c.huge then splitWait child left else return llfreeErr .ok

def splitHuge (old : Child) (child : Nat) : LoProg Result := do
  let res ← fieldToggle child 0 childOrder false
  if res.error = .ok then
    let success ← childCas child old (childNew 0 false)
    Prog.assert (success = true)
    return llfreeErr .ok
  else
    splitWait child retries

/-- The end of `lower_put`: clear the bits, then raise the counter. -/
def putField (childIdx frame order : Nat) : LoProg Result := do
  let ret ← fieldToggle childIdx (frame % childSize) order true
  if ret.error = .ok then
    let incremented ← childIncAt childIdx order
    Prog.assert (incremented = true)
    return llfreeErr .ok
  else
    return ret

def lowerPut (frames frame order : Nat) : LoProg Result := do
  Prog.assert (order ≤ treeOrder)
  if invalidFrame frames frame order then
    return llfreeErr .argument
  else
    let childIdx := childFromFrame frame
    if order ≥ hugeOrder then
      let hNum := 2 ^ (order - hugeOrder)
      let baseIdx := alignDown childIdx hNum
      if childIdx ≠ baseIdx then
        return llfreeErr .argument
      else if ← tryUpdateHugeN baseIdx hNum (childNew 0 true) (childNew childSize false) then
        return llfreeErr .ok
      else
        return llfreeErr .argument
    else
      let old ← childLoad childIdx
      if old.huge then
        let res ← splitHuge old childIdx
        if res.error = .ok then putField childIdx frame order else return res
      else
        putField childIdx frame order

/-- A call of the lower allocator. -/
inductive LowerCall where
  | get (start order : Nat) (target : Option Nat)
  | put (frame order : Nat)

def LowerCall.prog (frames : Nat) : LowerCall → LoProg Result
  | .get start order target => lowerGet frames start order target
  | .put frame order => lowerPut frames frame order

/-! ## Statistics -/

/-- `ll_stats_t`. -/
structure Stats where
  freeFrames : Nat
  freeHuge : Nat
  freeTrees : Nat
  deriving DecidableEq, Repr

/-- The free frames of the eight children from `start` on. -/
def groupFree (self : Lower) (start : Nat) : Nat :=
  ((List.range treeChildren).map fun j => (self.children (start + j)).free).sum

/-- How many of the eight children from `start` on are entirely free. -/
def groupHuge (self : Lower) (start : Nat) : Nat :=
  (List.range treeChildren).countP fun j => (self.children (start + j)).free == childSize

def lowerStats (self : Lower) : Stats where
  freeFrames := ((List.range self.childrenCount).map fun i => groupFree self (i * treeChildren)).sum
  freeHuge := ((List.range self.childrenCount).map fun i => groupHuge self (i * treeChildren)).sum
  freeTrees := (List.range self.childrenCount).countP fun i =>
    groupFree self (i * treeChildren) == treeSize

def lowerStatsAt (self : Lower) (frame order : Nat) : Stats :=
  if frame ≥ self.frames then ⟨0, 0, 0⟩
  else if order = 0 then
    let i := childFromFrame frame
    let child := self.children i
    if child.free = childSize then ⟨1, 0, 0⟩
    else if child.free > 0 then ⟨(fieldIsFree self i (frame % childSize)).toNat, 0, 0⟩
    else ⟨0, 0, 0⟩
  else if order = hugeOrder then
    let child := self.children (childFromFrame frame)
    ⟨child.free, (child.free == childSize).toNat, 0⟩
  else if order = treeOrder then
    let start := alignDown (childFromFrame frame) treeChildren
    ⟨groupFree self start, groupHuge self start, (groupFree self start == treeSize).toNat⟩
  else ⟨0, 0, 0⟩

end LLFree.Code.Lower

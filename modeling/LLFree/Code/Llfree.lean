/- module: LLFree/Code/Llfree
   digest: Allocation, free, drain and class changes as programs over trees, slots and the
   lower allocator. -/

import LLFree.Code.Shared

set_option autoImplicit false
set_option relaxedAutoImplicit false

namespace LLFree.Code.Llfree

open LLFree.Atomic.Program LLFree.Code.Types LLFree.Code.Trees LLFree.Code.Local
open LLFree.Code.Shared

variable (K : Config)

/-! ## Slots -/

def llLocalGet (cls index : Nat) (treeIdx : Option Nat) (frames : Nat) : UpProg LocalResult := do
  let (ok, old) ← localDec cls index treeIdx frames
  return makeResult ok cls old

def llLocalPut (cls index treeIdx frames : Nat) : UpProg Bool := localInc cls index treeIdx frames

def llLocalSetStart (cls index startRow : Nat) : UpProg LocalResult := do
  let (ok, old) ← localSetStart cls index startRow
  return makeResult ok cls old

def llLocalSwap (cls index newTreeIdx newFree : Nat) : UpProg LocalResult := do
  match llReservedNew true newFree (rowFromTree newTreeIdx) with
  | none => .abort
  | some new =>
    let old ← localSwap cls index new
    return makeResult true cls old

def llLocalDrain (cls index : Nat) : UpProg LocalResult := do
  let old ← localSwap cls index noReserved
  return makeResult old.present cls old

/-- The classes in the order in which steals and demotions look at them, with their slots;
classes without slots are skipped. -/
def targetSlots (cls first : Nat) : List (Nat × Nat) :=
  (List.range' first (maxClasses - first)).filterMap fun i =>
    match K.locals ((i + cls) % maxClasses) with
    | none | some 0 => none
    | some len => some ((i + cls) % maxClasses, len)

/-- One turn of the inner loop of `ll_local_steal`. -/
def stealSlot (target slot : Nat) (treeIdx : Option Nat) (frames : Nat) :
    UpProg (Option LocalResult) := do
  let (ok, old) ← localDec target slot treeIdx frames
  return if ok then some (makeResult true target old) else none

def llLocalSteal (cls index : Nat) (treeIdx : Option Nat) (frames : Nat) : UpProg LocalResult := do
  let found ← Prog.firstSome (targetSlots K cls 0) fun (target, len) =>
    match (K.policy cls target frames).type with
    | .match | .steal => Prog.firstSome (List.range len) fun j =>
      stealSlot target ((index + j) % len) treeIdx frames
    | .demote | .invalid => return none
  return found.getD ⟨false, false, 0, 0, 0⟩

/-- What `ll_local_demote_any` does with the slot `old` it took. -/
def demoteTaken (cls : Nat) (index : Option Nat) (treeIdx : Option Nat) (frames : Nat)
    (old : Reserved) : UpProg DemoteAnyResult := do
  match llReservedDec old treeIdx frames with
  | none => .abort
  | some new =>
    if K.HasSlot cls (index.getD 0) ∧ index.isSome then
      let prev ← localSwap cls (index.getD 0) new
      return ⟨true, new.startRow, prev.present, prev.startRow, cls, prev.free⟩
    else
      return ⟨true, new.startRow, true, new.startRow, cls, new.free⟩

/-- One turn of the inner loop of `ll_local_demote_any`. -/
def demoteSlot (cls : Nat) (index : Option Nat) (target slot : Nat) (treeIdx : Option Nat)
    (frames : Nat) : UpProg (Option DemoteAnyResult) := do
  let (ok, old) ← localTake target slot treeIdx frames
  if ok then
    let result ← demoteTaken K cls index treeIdx frames old
    return some result
  else return none

def llLocalDemoteAny (cls : Nat) (index : Option Nat) (treeIdx : Option Nat) (frames : Nat) :
    UpProg DemoteAnyResult := do
  let found ← Prog.firstSome (targetSlots K cls 1) fun (target, len) =>
    match (K.policy cls target frames).type with
    | .demote => Prog.firstSome (List.range len) fun j =>
      demoteSlot K cls index target ((index.getD 0 + j) % len) treeIdx frames
    | .match | .steal | .invalid => return none
  return found.getD ⟨false, 0, false, 0, 0, 0⟩

/-! ## Searches over the tree array -/

/-- The candidates that `trees_search_best` tries after the scan. -/
def tryBest (cb : Nat → UpProg Result) : List Best → UpProg Result
  | [] => return llfreeErr .memory
  | b :: rest => do
    if b.prio = 0 then return llfreeErr .memory
    else
      let res ← cb b.idx
      if res.error ≠ .memory then return res else tryBest cb rest

/-- The scan of `trees_search_best` over the remaining positions. -/
def scanBest (start : Nat) (rate : Nat → Nat → Policy) (cb : Nat → UpProg Result) :
    List Nat → List Best → UpProg Result
  | [], best => tryBest cb best
  | i :: rest, best => do
    let idx := searchIdx start K.treesLen i
    let tree ← treesLoad idx
    if tree.reserved then scanBest start rate cb rest best
    else
      let p := rate tree.cls tree.free
      if p.type = .invalid then scanBest start rate cb rest best
      else if p.type = .match ∧ p.priority = 255 then
        let res ← cb idx
        if res.error ≠ .memory then return res else scanBest start rate cb rest best
      else scanBest start rate cb rest (insertBest (p.priority + 1) idx best)

def treesSearchBest (start offset len : Nat) (rate : Nat → Nat → Policy)
    (cb : Nat → UpProg Result) : UpProg Result :=
  scanBest K start rate cb (List.range' offset (len - offset)) (List.replicate 8 ⟨0, 0⟩)

def treesSearch (start offset len : Nat) (cb : Nat → UpProg Result) : UpProg Result := do
  let found ← Prog.firstSome (List.range' offset (len - offset)) fun i => do
    let res ← cb (searchIdx start K.treesLen i)
    return if res.error ≠ .memory then some res else none
  return found.getD (llfreeErr .memory)

def rateReserveNearTree (cls frames treeClass free : Nat) : Policy :=
  if free < frames then ⟨.invalid, 0⟩
  else
    let policy := K.policy cls treeClass free
    if policy.type = .match then policy
    else if policy.type = .demote ∧ free = treeSize then ⟨.match, 255⟩
    else ⟨.invalid, 0⟩

def rateReserveGlobalTree (cls frames treeClass free : Nat) : Policy :=
  if free < frames then ⟨.invalid, 0⟩
  else
    let policy := K.policy cls treeClass free
    if policy.type = .match then ⟨.match, 255⟩
    else if policy.type = .demote ∧ free = treeSize then ⟨.match, 255⟩
    else policy

def rateGlobalTree (cls frames treeClass free : Nat) : Policy :=
  if free < frames then ⟨.invalid, 0⟩ else K.policy cls treeClass free

/-! ## Core allocation helpers -/

def swapReserved (cls index newIdx newFree : Nat) : UpProg Unit := do
  let old ← llLocalSwap cls index newIdx newFree
  if old.present then treesUnreserve (treeFromRow old.startRow) old.free old.cls else return ()

/-- The way back of `reserve_or_steal_cb` when nothing was allocated. -/
def undoReserveOrSteal (idx frames : Nat) (reserved : Bool) (oldFree target : Nat) : UpProg Unit :=
  if reserved then treesUnreserve idx oldFree target else treesPut idx frames

/-- `reserve_or_steal_cb` once it has got hold of the tree. -/
def allocateTaken (order index idx : Nat) (reserved : Bool) (oldFree target : Nat) :
    UpProg Result := do
  if (K.locals target).getD 0 = 0 then
    undoReserveOrSteal idx (2 ^ order) reserved oldFree target
    return llfreeErr .memory
  else
    let res ← lowerGetStep (frameFromTree idx) order none
    if res.error = .ok then
      if reserved then
        swapReserved target (index % (K.locals target).getD 0) idx (oldFree - 2 ^ order)
        return { res with cls := target }
      else return { res with cls := target }
    else
      undoReserveOrSteal idx (2 ^ order) reserved oldFree target
      return res

def reserveOrStealCb (order cls index idx : Nat) : UpProg Result := do
  match ← treesReserveOrSteal idx (2 ^ order) cls with
  | none => return llfreeErr .memory
  | some (reserved, oldFree, target) => allocateTaken K order index idx reserved oldFree target

def stealCb (order cls idx : Nat) : UpProg Result := do
  match ← treesSteal idx (2 ^ order) cls with
  | none => return llfreeErr .memory
  | some stolen =>
    let res ← lowerGetStep (frameFromTree idx) order none
    if res.error = .ok then return { res with cls := stolen }
    else
      treesPut idx (2 ^ order)
      return res

def searchAndReserve (cls index order start : Nat) : UpProg Result := do
  Prog.assert (start < K.treesLen)
  let clTrees := cacheSize / 4
  let near := max (K.treesLen / 16) (clTrees / 4)
  let start := alignDown start (nextPow2 (2 * near))
  let cb := reserveOrStealCb K order cls index
  if order < hugeOrder then
    let res ← treesSearchBest K start 1 near (rateReserveNearTree K cls (2 ^ order)) cb
    if res.error ≠ .memory then return res
    else treesSearchBest K start 0 K.treesLen (rateReserveGlobalTree K cls (2 ^ order)) cb
  else treesSearchBest K start 0 K.treesLen (rateReserveGlobalTree K cls (2 ^ order)) cb

def syncWithGlobal (cls index needed : Nat) (old : LocalResult) : UpProg Bool := do
  Prog.assert (old.present = true)
  if old.free ≥ needed then return false
  else
    let treeIdx := treeFromRow old.startRow
    match ← treesSyncSteal treeIdx (needed - old.free) with
    | none => return false
    | some stolen =>
      if ← llLocalPut cls index treeIdx stolen then return true
      else
        treesPut treeIdx stolen
        return false

/-- `get_local` up to a miss, which is left to `miss`. The second component of the outcome is
what `*start_out` is set to. -/
def getLocalWith (cls index order : Nat) (frame : Option Nat)
    (miss : LocalResult → UpProg (Result × Option Nat)) : UpProg (Result × Option Nat) := do
  let old ← llLocalGet cls index (frame.map treeFromFrame) (2 ^ order)
  if old.success then
    let res ← lowerGetStep (frameFromRow old.startRow) order frame
    if res.error = .ok then
      let startRow := rowFromFrame res.frame
      if old.startRow ≠ startRow then
        let _ ← llLocalSetStart cls index startRow
      return (llfreeOk res.frame cls, none)
    else
      treesPut (treeFromRow old.startRow) (2 ^ order)
      return (res, some (treeFromRow old.startRow))
  else miss old

/-- The end of `get_local` after a miss. -/
def localMiss (old : LocalResult) : Result × Option Nat :=
  (llfreeErr .memory, if old.present then some (treeFromRow old.startRow) else none)

def getLocal (cls index order : Nat) (frame : Option Nat) (sync : Bool) :
    UpProg (Result × Option Nat) :=
  getLocalWith cls index order frame fun old => do
    if sync && old.present then
      if ← syncWithGlobal cls index (2 ^ order) old then
        getLocalWith cls index order frame fun again => return localMiss again
      else return localMiss old
    else return localMiss old

def stealLocal (request : Request) (frame : Option Nat) : UpProg Result := do
  let frames := 2 ^ request.order
  let res ← llLocalSteal K request.cls (request.slot.getD 0) (frame.map treeFromFrame) frames
  if res.success then
    let res2 ← lowerGetStep (frameFromRow res.startRow) request.order frame
    if res2.error = .ok then return llfreeOk res2.frame res.cls
    else
      treesPut (treeFromRow res.startRow) frames
      return if res2.error ≠ .memory then res2 else llfreeErr .memory
  else return llfreeErr .memory

def demoteLocal (request : Request) (frame : Option Nat) : UpProg Result := do
  let frames := 2 ^ request.order
  let dem ← llLocalDemoteAny K request.cls request.slot (frame.map treeFromFrame) frames
  if dem.found then
    if dem.unreserve then
      treesUnreserve (treeFromRow dem.unresRow) dem.unresFree dem.unresClass
    let res ← lowerGetStep (frameFromRow dem.row) request.order frame
    if res.error = .ok then return llfreeOk res.frame request.cls
    else
      treesPut (treeFromRow dem.row) frames
      return if res.error ≠ .memory then res else llfreeErr .memory
  else return llfreeErr .memory

/-- The fallback of `llfree_get` and `llfree_get_at`: slots of other classes. -/
def stealOrDemoteLocal (request : Request) (frame : Option Nat) : UpProg Result := do
  let res ← stealLocal K request frame
  if res.error ≠ .memory then return res else demoteLocal K request frame

/-- `llfree_get_at` after its own slot had nothing. -/
def getAtGlobal (frame : Nat) (request : Request) : UpProg Result := do
  let treeIdx := treeFromFrame frame
  match ← treesSteal treeIdx (2 ^ request.order) request.cls with
  | some newClass =>
    let res ← lowerGetStep frame request.order (some frame)
    if res.error = .ok then return llfreeOk res.frame newClass
    else
      treesPut treeIdx (2 ^ request.order)
      return res
  | none => stealOrDemoteLocal K request (some frame)

def llfreeGetAt (frame : Nat) (request : Request) : UpProg Result := do
  Prog.assert (frame < K.frames)
  match request.slot with
  | some index =>
    let (res, _) ← getLocal request.cls index request.order (some frame) true
    if res.error ≠ .memory then return res else getAtGlobal K frame request
  | none => getAtGlobal K frame request

def validateRequest (request : Request) (frame : Option Nat) : Bool :=
  if request.order > treeOrder then false
  else
    match K.locals request.cls with
    | none => false
    | some count =>
      if request.slot.any (· ≥ count) then false
      else if 2 ^ request.order > K.frames then false
      else
        match frame with
        | none => true
        | some f => f ≤ K.frames - 2 ^ request.order && f % 2 ^ request.order == 0

/-- The untargeted allocation through slot `index` of a class with `count` slots. -/
def getBySlot (count index : Nat) (request : Request) : UpProg Result := do
  let start := K.treesLen / count * index
  let (res, startOut) ← getLocal request.cls index request.order none true
  if res.error ≠ .memory then return res
  else searchAndReserve K request.cls index request.order (startOut.getD start)

/-- The search of an untargeted `llfree_get`, before it falls back on other slots. -/
def getSearch (request : Request) : UpProg Result :=
  let count := (K.locals request.cls).getD 0
  let global := fun start => treesSearchBest K start 0 K.treesLen
    (rateGlobalTree K request.cls (2 ^ request.order)) (stealCb request.order request.cls)
  match request.slot with
  | some index =>
    if count ≠ 0 ∧ count < K.treesLen then getBySlot K count index request
    else global (if count ≠ 0 then K.treesLen / count * index else 0)
  | none => global 0

def llfreeGet (frame : Option Nat) (request : Request) : UpProg Result := do
  if validateRequest K request frame = false then return llfreeErr .argument
  else
    match frame with
    | some f => llfreeGetAt K f request
    | none =>
      let res ← getSearch K request
      if res.error ≠ .memory then return res else stealOrDemoteLocal K request none

def llfreePut (frame : Nat) (request : Request) : UpProg Result := do
  if validateRequest K request (some frame) = false then return llfreeErr .argument
  else
    let res ← lowerPutStep frame request.order
    if res.error ≠ .ok then return res
    else
      let treeIdx := treeFromFrame frame
      let frames := 2 ^ request.order
      match request.slot with
      | some index =>
        if ← llLocalPut request.cls index treeIdx frames then return llfreeOk 0 0
        else
          treesPut treeIdx frames
          return llfreeOk 0 0
      | none =>
        treesPut treeIdx frames
        return llfreeOk 0 0

/-- All slots, in the order of `llfree_drain`. -/
def allSlots : List (Nat × Nat) :=
  (List.range maxClasses).flatMap fun t => (List.range ((K.locals t).getD 0)).map fun i => (t, i)

def llfreeDrain : UpProg Unit :=
  Prog.each (allSlots K) fun (t, i) => do
    let old ← llLocalDrain t i
    if old.present then treesUnreserve (treeFromRow old.startRow) old.free old.cls else return ()

/-! ## Class changes -/

/-- `llfree_tree_match_t`. -/
structure TreeMatch where
  id : Option Nat
  cls : Nat
  free : Nat

/-- `llfree_tree_change_t`. -/
structure TreeChange where
  cls : Nat
  operation : TreeOperation

/-- The loop of `trees_change_at` from the entry `old` on; `left` bounds its turns. -/
def changeLoop (idx : Nat) (matcher : TreeMatch) (change : TreeChange) :
    Nat → Tree → UpProg Result
  | 0, _ => .abort
  | left + 1, old => do
    let onlineFree ← if change.operation = .online then do
        let stats ← lowerStatsStep (frameFromTree idx) treeOrder
        pure stats.freeFrames
      else pure 0
    match treeChange old matcher.cls matcher.free change.cls change.operation onlineFree with
    | none => return llfreeErr .memory
    | some desired =>
      let (done, seen) ← treesCas idx old desired
      if done then return llfreeOk 0 0 else changeLoop idx matcher change left seen

def treesChangeAt (turns : Nat) (matcher : TreeMatch) (change : TreeChange) (idx : Nat) :
    UpProg Result := do
  let old ← treesLoad idx
  changeLoop idx matcher change turns old

def llfreeChangeTree (turns : Nat) (matcher : TreeMatch) (change : TreeChange) : UpProg Result := do
  if matcher.free > treeSize then return llfreeErr .memory
  else
    match matcher.id with
    | some idx =>
      if idx ≥ K.treesLen then return llfreeErr .memory
      else treesChangeAt turns matcher change idx
    | none => treesSearch K 0 0 K.treesLen (treesChangeAt turns matcher change)

end LLFree.Code.Llfree

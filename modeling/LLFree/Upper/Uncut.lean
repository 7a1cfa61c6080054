/- module: LLFree/Upper/Uncut
   digest: The allocator with start rows of any size, and why its calls are those of the source. -/

import LLFree.Upper.BitFields
import LLFree.Upper.Callers

set_option autoImplicit false
set_option relaxedAutoImplicit false

namespace LLFree.Upper.Uncut

open LLFree.Atomic.Program LLFree.Atomic.Retrying LLFree.Code.Types LLFree.Code.Entries
open LLFree.Code.Trees LLFree.Code.Local LLFree.Code.Shared LLFree.Code.Llfree LLFree.Code.Stack
open LLFree.Code.Setup LLFree.Code.Exchanges LLFree.Upper.Slots LLFree.Upper.Sequential
open LLFree.Upper.Calls LLFree.Upper.Effort LLFree.Upper.Represented LLFree.Upper.Lending
open LLFree.Upper.Concurrent LLFree.Upper.Lives LLFree.Upper.Callers

/-! ## Slots -/

/-- `ll_reserved_new` if `start_row` had no bounds. -/
def reservedNew (present : Bool) (free startRow : Nat) : Option Reserved :=
  if free ≤ treeSize then some ⟨present, free, startRow⟩ else none

/-- `ll_reserved_set_start` if `start_row` had no bounds. -/
def reservedSetStart (self : Reserved) (startRow : Nat) : Option Reserved :=
  if ¬ self.present ∨ treeFromRow self.startRow ≠ treeFromRow startRow then none
  else some { self with startRow := startRow }

theorem reservedNew_eq {present : Bool} {free row : Nat} (small : row < 2 ^ startRowBits) :
    reservedNew present free row = llReservedNew present free row := by
  rw [reservedNew, llReservedNew, storeRow, Nat.mod_eq_of_lt small]

/-- A row is stored only in the tree of the row before, so that it fits when that one did. -/
theorem reservedSetStart_eq {slot : Reserved} {row : Nat} (fits : SlotFits slot) :
    reservedSetStart slot row = llReservedSetStart slot row := by
  unfold reservedSetStart llReservedSetStart
  split_ifs with other
  · rfl
  · have here : treeFromRow row = treeFromRow slot.startRow :=
      (not_not.mp (not_or.mp other).2).symm
    have small : treeFromRow slot.startRow < 2 ^ 29 := by
      have row := fits.2
      simp only [treeFromRow, treeFromFrame, frameFromRow, treeSize, atomicSize, startRowBits]
        at row ⊢
      omega
    rw [storeRow_fits small here]

/-! ## Allocations -/

variable (K : Config)

/-- `swap_reserved` over such slots. -/
def swapUncut (cls index newIdx newFree : Nat) : UpProg Unit := do
  match reservedNew true newFree (rowFromTree newIdx) with
  | none => .abort
  | some new =>
    let old ← localSwap cls index new
    if old.present then treesUnreserve (treeFromRow old.startRow) old.free cls else return ()

-- The allocation of the source, with `swap` in place of `swap_reserved`.
section By

variable (swap : Nat → Nat → Nat → Nat → UpProg Unit)

def allocateTakenBy (order index idx : Nat) (reserved : Bool) (oldFree target : Nat) :
    UpProg Result := do
  if (K.locals target).getD 0 = 0 then
    undoReserveOrSteal idx (2 ^ order) reserved oldFree target
    return llfreeErr .memory
  else
    let res ← lowerGetStep (frameFromTree idx) order none
    if res.error = .ok then
      if reserved then
        swap target (index % (K.locals target).getD 0) idx (oldFree - 2 ^ order)
        return { res with cls := target }
      else return { res with cls := target }
    else
      undoReserveOrSteal idx (2 ^ order) reserved oldFree target
      return res

def reserveOrStealBy (order cls index idx : Nat) : UpProg Result := do
  match ← treesReserveOrSteal idx (2 ^ order) cls with
  | none => return llfreeErr .memory
  | some (reserved, oldFree, target) =>
    allocateTakenBy K swap order index idx reserved oldFree target

def searchAndReserveBy (cls index order start : Nat) : UpProg Result := do
  Prog.assert (start < K.treesLen)
  let clTrees := cacheSize / 4
  let near := max (K.treesLen / 16) (clTrees / 4)
  let start := alignDown start (nextPow2 (2 * near))
  let cb := reserveOrStealBy K swap order cls index
  if order < hugeOrder then
    let res ← treesSearchBest K start 1 near (rateReserveNearTree K cls (2 ^ order)) cb
    if res.error ≠ .memory then return res
    else treesSearchBest K start 0 K.treesLen (rateReserveGlobalTree K cls (2 ^ order)) cb
  else treesSearchBest K start 0 K.treesLen (rateReserveGlobalTree K cls (2 ^ order)) cb

def getBySlotBy (count index : Nat) (request : Request) : UpProg Result := do
  let start := K.treesLen / count * index
  let (res, startOut) ← getLocal request.cls index request.order none true
  if res.error ≠ .memory then return res
  else searchAndReserveBy K swap request.cls index request.order (startOut.getD start)

def getSearchBy (request : Request) : UpProg Result :=
  let count := (K.locals request.cls).getD 0
  let global := fun start => treesSearchBest K start 0 K.treesLen
    (rateGlobalTree K request.cls (2 ^ request.order)) (stealCb request.order request.cls)
  match request.slot with
  | some index =>
    if count ≠ 0 ∧ count < K.treesLen then getBySlotBy K swap count index request
    else global (if count ≠ 0 then K.treesLen / count * index else 0)
  | none => global 0

def getBy (frame : Option Nat) (request : Request) : UpProg Result := do
  if validateRequest K request frame = false then return llfreeErr .argument
  else
    match frame with
    | some f => llfreeGetAt K f request
    | none =>
      let res ← getSearchBy K swap request
      if res.error ≠ .memory then return res else stealOrDemoteLocal K request none

end By

variable {K} {swap swap' : Nat → Nat → Nat → Nat → UpProg Unit}

theorem getBy_swapReserved : getBy K swapReserved = llfreeGet K := rfl

theorem treesSearchBest_congr {start offset len : Nat} {rate : Nat → Nat → Policy}
    {cb cb' : Nat → UpProg Result} (some : 0 < K.treesLen)
    (same : ∀ idx < K.treesLen, cb idx = cb' idx) :
    treesSearchBest K start offset len rate cb = treesSearchBest K start offset len rate cb' := by
  have best : ∀ found, BestOk K found → tryBest cb found = tryBest cb' found := by
    intro found ok
    induction found with
    | nil => rfl
    | cons b rest ih =>
      rw [tryBest, tryBest, ih fun c member => ok c (List.mem_cons_of_mem b member)]
      split_ifs with empty
      · rfl
      · rw [same b.idx (ok b List.mem_cons_self empty)]
  have scan : ∀ (positions : List Nat) (found : List Best), BestOk K found →
      scanBest K start rate cb positions found = scanBest K start rate cb' positions found := by
    intro positions
    induction positions with
    | nil => exact best
    | cons i rest ih =>
      intro found ok
      have here : searchIdx start K.treesLen i < K.treesLen := searchIdx_lt some
      have kept (prio : UInt8) :=
        ih (insertBest prio (searchIdx start K.treesLen i) found) (bestOk_insert ok here)
      rw [scanBest, scanBest]
      apply congrArg (treesLoad (searchIdx start K.treesLen i) >>= ·)
      funext tree
      simp only [same _ here, ih found ok, kept]
  refine scan _ _ fun b member used => ?_
  rw [List.eq_of_mem_replicate member] at used
  exact absurd rfl used

section Congr

variable (same : ∀ cls index idx free, idx < K.treesLen →
  swap cls index idx free = swap' cls index idx free)

include same

theorem reserveOrStealBy_congr {order cls index idx : Nat} (inside : idx < K.treesLen) :
    reserveOrStealBy K swap order cls index idx = reserveOrStealBy K swap' order cls index idx := by
  simp only [reserveOrStealBy, allocateTakenBy, same _ _ _ _ inside]

theorem searchAndReserveBy_congr (cls index order start : Nat) :
    searchAndReserveBy K swap cls index order start =
      searchAndReserveBy K swap' cls index order start := by
  simp only [searchAndReserveBy]
  by_cases some : 0 < K.treesLen
  · have callback : ∀ idx < K.treesLen, reserveOrStealBy K swap order cls index idx =
        reserveOrStealBy K swap' order cls index idx := fun _ => reserveOrStealBy_congr same
    simp only [treesSearchBest_congr some callback]
  · have stuck : ¬ start < K.treesLen := by omega
    simp only [Prog.assert, if_neg stuck]
    rfl

theorem getBy_congr (frame : Option Nat) (request : Request) :
    getBy K swap frame request = getBy K swap' frame request := by
  simp only [getBy, getSearchBy, getBySlotBy, searchAndReserveBy_congr same]

end Congr

theorem swapUncut_eq (fits : Fits K) {idx : Nat} (inside : idx < K.treesLen)
    (cls index free : Nat) : swapUncut cls index idx free = swapReserved cls index idx free := by
  have small : rowFromTree idx < 2 ^ startRowBits := by
    simp only [Fits, Config.treesLen, divCeil, treeSize] at fits inside
    simp only [rowFromTree, rowFromFrame, frameFromTree, treeSize, atomicSize, startRowBits]
    omega
  rw [swapUncut, reservedNew_eq small, swapReserved, llLocalSwap]
  cases llReservedNew true free (rowFromTree idx) <;> rfl

theorem getBy_swapUncut (fits : Fits K) : getBy K swapUncut = llfreeGet K := by
  funext frame request
  rw [← getBy_swapReserved]
  exact getBy_congr (fun cls index idx free inside => swapUncut_eq fits inside cls index free) ..

/-! ## Clients -/

variable (K)

def uncutProg : (o : ApiOp) → UpProg o.Res
  | .get frame request => getBy K swapUncut frame request
  | .put b request => llfreePut K b.frame request
  | .drain => llfreeDrain K

def UncutCall (h k : Client) (p : WordProg Client) : Prop :=
  ∃ o f, ApiCall K h k o f ∧ p = words K (uncutProg K o >>= fun r => .ret (f r))

variable {K}

theorem uncutProg_eq (fits : Fits K) (o : ApiOp) : uncutProg K o = ApiOp.prog K o := by
  cases o with
  | get frame request => exact congrFun (congrFun (getBy_swapUncut fits) frame) request
  | _ => rfl

theorem uncutCall_eq (fits : Fits K) : UncutCall K = StackCall K := by
  funext h k p
  simp only [UncutCall, StackCall, clientThread_iff, uncutProg_eq fits, eq_iff_iff]
  constructor
  · rintro ⟨o, f, call, rfl⟩
    exact ⟨_, ⟨o, f, call, rfl⟩, rfl⟩
  · rintro ⟨_, ⟨o, f, call, rfl⟩, rfl⟩
    exact ⟨o, f, call, rfl⟩

/-! ## Loads and exchanges -/

variable (K)

def uncutAttempt :
    (o : WordOp) → (wordUpdate K o).Val → Nat → Attempt (wordUpdate K o).Val Nat o.Res
  | .table (.localSetStart _ _ startRow) => fun (slot : Reserved) _ =>
    stored (reservedSetStart slot startRow) (true, slot) (false, slot)
  | o => (wordUpdate K o).attempt

def uncutUpdate (o : WordOp) : Update (Llfree Lower) Nat o.Res :=
  { wordUpdate K o with attempt := uncutAttempt K o }

def uncutMeans : Means WordOp WordOp.Res (Llfree Lower) Nat where
  update := uncutUpdate K
  single := isSingle

variable {K}

theorem uncutUpdate_single {o : WordOp} (single : isSingle o = true) :
    uncutUpdate K o = wordUpdate K o := by
  cases o with
  | buffer o => rfl
  | lower o => cases o <;> rfl
  | table o => cases o <;> first | rfl | cases single

/-! ## Pools of clients -/

abbrev UncutClients (K : Config) (ι : Type) := Triers (uncutMeans K) Client ι

variable {ι : Type} [DecidableEq ι]

def UncutReaches (K : Config) (s : Llfree Lower) (h : ι → Client) (R : UncutClients K ι) : Prop :=
  TryReaches (uncutMeans K) True (UncutCall K) (Triers.idle (uncutMeans K) s h) R

inductive UncutLife (K : Config) : Llfree Lower → (ι → Client) → Prop
  | first (mode : InitMode) (s : Llfree Lower) (fresh : FreshMode mode)
      (init : Initialised K mode s) : UncutLife K s (newcomers ι)
  | again (s s' : Llfree Lower) (h h' : ι → Client) (R : UncutClients K ι) (upper : Upper)
      (life : UncutLife K s h) (reach : UncutReaches K s h R)
      (init : llfreeInit K .recover ⟨R.mem.lower, upper⟩ = some (llfreeOk 0 0, s'))
      (known : ∀ i, (h' i).lent.Sublist ((R.whole fun _ => (0 : Int)).data i).lent)
      (fine : ∀ i, (h' i).refused = 0) : UncutLife K s' h'

end LLFree.Upper.Uncut

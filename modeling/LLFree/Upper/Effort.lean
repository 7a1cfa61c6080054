/- module: LLFree/Upper/Effort
   digest: How many accesses a call of a client makes at most. -/

import LLFree.Code.Stack
import LLFree.Lower.Effort
import LLFree.Upper.Represented
import Mathlib.Algebra.BigOperators.Ring.List
import Mathlib.Algebra.Order.BigOperators.Group.List
import Mathlib.Tactic.IntervalCases

set_option autoImplicit false
set_option relaxedAutoImplicit false

namespace LLFree.Upper.Effort

open LLFree.Atomic.Program LLFree.Atomic.Bounded LLFree.Code.Types LLFree.Code.Entries
open LLFree.Code.Lower LLFree.Code.Trees LLFree.Code.Local LLFree.Code.Shared LLFree.Code.Llfree
open LLFree.Code.Stack LLFree.Lower.Effort LLFree.Upper.Represented

variable {α : Type} {F : Prop} {n : Nat} (K : Config)

/-! ## Terms -/

/-- Counter and row have room in their bit fields. -/
def SlotFits (slot : Reserved) : Prop :=
  slot.free < 2 ^ treeFreeBits ∧ slot.startRow < 2 ^ startRowBits

theorem slotFits_none : SlotFits noReserved := ⟨Nat.two_pow_pos _, Nat.two_pow_pos _⟩

def tableAsks (F : Prop) : TableOp → Prop
  | .treesCas .. => False
  | .treesSteal _ _ cls => F → cls < maxClasses
  | .treesReserveOrSteal _ _ cls => F → cls < maxClasses
  | .treesUnreserve _ _ cls => F → cls < maxClasses
  | .localSwap _ _ new => F → SlotFits new
  | _ => True

def tableGiven (F : Prop) : (o : TableOp) → o.Res → Prop
  | .treesReserveOrSteal _ _ cls, r => F → cls < maxClasses →
    ∀ reserved free target, r = some (reserved, free, target) → target < maxClasses
  | .localTake .., r => F → SlotFits r.2
  | _, _ => True

/-- The terms of the calls of clients. These neither read statistics nor exchange tree entries
other than by updates; if entries are bit fields (`F`), what they store fits. -/
def upTerms (F : Prop) : Terms UpOp UpOp.Res where
  cost
    | .lower _ => lowerBound
    | _ => 1
  asks
    | .lower _ => True
    | .lowerStatsAt .. => False
    | .table o => tableAsks F o
  given
    | .table o, r => tableGiven F o r
    | _, _ => True

def slotCount : Nat := (allSlots K).length

/-- Accesses of a call of a client: a look at every tree with the calls of the lower allocator
that it may lead to, a look at the trees near the last one, three rounds over the slots, and the
candidates that two searches keep. -/
def callBound : Nat := 158 * K.treesLen + 3 * slotCount K + 3237

variable {K}

theorem within_table {o : TableOp} {k : o.Res → UpProg α} {Q : α → Prop} (asks : tableAsks F o)
    (rest : ∀ r, tableGiven F o r → (upTerms F).Within n (k r) Q) :
    (upTerms F).Within (n + 1) (.step (.table o) k) Q := by
  have asks' : (upTerms F).asks (.table o) := asks
  exact Terms.within_mono (Terms.within_step asks' rest) (Nat.le_of_eq (Nat.add_comm 1 n))
    fun _ => id

theorem atMost_lower {c : LowerCall} {k : Result → UpProg α}
    (rest : ∀ r, (upTerms F).AtMost n (k r)) :
    (upTerms F).AtMost (n + 144) (.step (.lower c) k) := by
  have asks : (upTerms F).asks (.lower c) := trivial
  exact Terms.atMost_mono (Terms.within_step asks fun r _ => rest r)
    (Nat.le_of_eq (Nat.add_comm 144 n))

/-! ## Slots -/

private theorem slotCount_eq :
    slotCount K = ((List.range maxClasses).map fun t => (K.locals t).getD 0).sum := by
  simp [slotCount, allSlots, List.length_flatMap]

private theorem sum_filterMap {f : Nat → Option (Nat × Nat)} (xs : List Nat) :
    ((xs.filterMap f).map Prod.snd).sum = (xs.map fun i => ((f i).map Prod.snd).getD 0).sum := by
  induction xs with
  | nil => rfl
  | cons x xs ih =>
    rw [List.map_cons, List.sum_cons, ← ih, List.filterMap_cons]
    cases f x <;> simp

private theorem sum_turned (cls : Nat) (g : Nat → Nat) :
    ((List.range maxClasses).map fun i => g ((i + cls) % maxClasses)).sum =
      ((List.range maxClasses).map g).sum := by
  have turned : ∀ i, (i + cls) % maxClasses = (i + cls % maxClasses) % maxClasses := by
    intro i
    simp
  have less : cls % maxClasses < 8 := Nat.mod_lt _ (by decide)
  simp only [turned]
  generalize cls % maxClasses = r at less
  interval_cases r <;> simp [List.range_succ, maxClasses] <;> omega

theorem targetSlots_sum (cls first : Nat) :
    ((targetSlots K cls first).map Prod.snd).sum ≤ slotCount K := by
  have part : (List.range' first (maxClasses - first)).Sublist (List.range maxClasses) := by
    rcases Nat.le_total first maxClasses with inside | outside
    · rw [List.range_eq_range', ← Nat.add_sub_cancel' inside, ← List.range'_append_1]
      simp
    · simp [Nat.sub_eq_zero_of_le outside]
  have slots : ((targetSlots K cls first).map Prod.snd).sum =
      ((List.range' first (maxClasses - first)).map fun i =>
        (K.locals ((i + cls) % maxClasses)).getD 0).sum := by
    rw [targetSlots, sum_filterMap]
    congr 2
    funext i
    rcases K.locals ((i + cls) % maxClasses) with _ | _ | len <;> rfl
  rw [slots, slotCount_eq, ← sum_turned cls]
  exact (part.map _).sum_le_sum fun _ _ => Nat.zero_le _

private theorem within_walk {β : Type} {cls first cost : Nat} {Q : β → Prop} {d : β}
    {f : Nat × Nat → UpProg (Option β)} (miss : Q d)
    (each : ∀ x ∈ targetSlots K cls first, (upTerms F).Within (cost * x.2) (f x)
      fun r => ∀ a, r = some a → Q a) :
    (upTerms F).Within (cost * slotCount K)
      (Prog.firstSome (targetSlots K cls first) f >>= fun r => .ret (r.getD d)) Q := by
  have walk := Terms.within_firstSome _ (by simp) each
  rw [List.sum_map_mul_left] at walk
  have whole := Terms.within_mono walk (Nat.mul_le_mul_left cost (targetSlots_sum cls first))
    fun _ => id
  refine Terms.within_bind (m := 0) whole fun r post => ?_
  cases r with
  | none => exact miss
  | some a => exact post a rfl

theorem atMost_llLocalSteal (cls index frames : Nat) (treeIdx : Option Nat) :
    (upTerms F).AtMost (slotCount K) (llLocalSteal K cls index treeIdx frames) := by
  rw [← Nat.one_mul (slotCount K)]
  refine within_walk trivial fun x _ => Terms.within_mono (m := 1 * x.2) (n := x.2)
    (Q := fun _ => True) ?_ (by omega) fun _ _ _ _ => trivial
  rcases x with ⟨target, len⟩
  have round : (upTerms F).AtMost len (Prog.firstSome (List.range len) fun j =>
      stealSlot target ((index + j) % len) treeIdx frames) := by
    refine Terms.atMost_mono (Terms.atMost_firstSome (c := 1) _ fun j _ => ?_) (by simp)
    exact within_table trivial fun r _ => by cases r; trivial
  dsimp only
  split
  · exact round
  · exact round
  · trivial
  · trivial

theorem slotFits_dec {old new : Reserved} {treeIdx : Option Nat} {frames : Nat}
    (fits : SlotFits old) (taken : llReservedDec old treeIdx frames = some new) : SlotFits new := by
  unfold llReservedDec at taken
  split_ifs at taken
  obtain rfl := Option.some.inj taken
  exact ⟨(Nat.sub_le old.free frames).trans_lt fits.1, fits.2⟩

theorem within_llLocalDemoteAny {cls : Nat} (known : F → cls < maxClasses) (frames : Nat)
    (index treeIdx : Option Nat) :
    (upTerms F).Within (2 * slotCount K) (llLocalDemoteAny K cls index treeIdx frames)
      fun dem => F → dem.unresClass < maxClasses := by
  refine within_walk (fun _ => by decide) fun x _ => ?_
  rcases x with ⟨target, len⟩
  dsimp only
  split
  · rw [Nat.mul_comm]
    have turns : (upTerms F).Within ((List.range len).map fun _ => 2).sum _ _ :=
      Terms.within_firstSome (Q := fun r => ∀ a, r = some a → F → a.unresClass < maxClasses)
        (f := fun j => demoteSlot K cls index target ((index.getD 0 + j) % len) treeIdx frames)
        (List.range len) (by simp) fun j _ => ?_
    · rwa [List.map_const', List.sum_replicate_nat, List.length_range] at turns
    · simp only [demoteSlot, localTake, Prog.step_bind, Prog.ret_bind, Prog.pure_eq]
      refine within_table trivial fun r fits => ?_
      split_ifs
      · refine Terms.within_bind (m := 0) (Q := fun a => F → a.unresClass < maxClasses) ?_ ?_
        · simp only [demoteTaken, localSwap, Prog.step_bind, Prog.ret_bind, Prog.pure_eq]
          cases taken : llReservedDec r.2 treeIdx frames with
          | none => trivial
          | some new =>
            dsimp only
            split_ifs
            · exact within_table (n := 0) (fun on => slotFits_dec (fits on) taken) fun prev _ =>
                known
            · exact known
        · intro a small b same
          obtain rfl := Option.some.inj same
          exact small
      · intro a none
        cases none
  all_goals
    intro a none
    cases none

/-! ## Searches over the tree array -/

private theorem length_insertBest (prio : UInt8) (idx : Nat) (best : List Best) :
    (insertBest prio idx best).length = best.length := by
  induction best with
  | nil => rfl
  | cons b rest ih =>
    rw [insertBest]
    split_ifs
    · simp
    · simp [ih]

theorem atMost_treesSearchBest {cb : Nat → UpProg Result} {c : Nat} (start offset len : Nat)
    (rate : Nat → Nat → Policy) (attempt : ∀ idx, (upTerms F).AtMost c (cb idx)) :
    (upTerms F).AtMost ((len - offset) * (c + 1) + 8 * c)
      (treesSearchBest K start offset len rate cb) := by
  have best : ∀ best, (upTerms F).AtMost (best.length * c) (tryBest cb best) := by
    intro best
    induction best with
    | nil => trivial
    | cons b rest ih =>
      rw [tryBest, List.length_cons, Nat.add_mul, Nat.one_mul, Nat.add_comm]
      split_ifs
      · trivial
      · refine Terms.atMost_bind (attempt b.idx) fun r => ?_
        split_ifs
        · trivial
        · exact ih
  have scan : ∀ (positions : List Nat) (found : List Best),
      (upTerms F).AtMost (positions.length * (c + 1) + found.length * c)
        (scanBest K start rate cb positions found) := by
    intro positions
    induction positions with
    | nil => exact fun found => Terms.atMost_mono (best found) (by simp)
    | cons i rest ih =>
      intro found
      rw [scanBest]
      simp only [treesLoad, Prog.step_bind, Prog.ret_bind, Prog.pure_eq]
      refine Terms.atMost_mono (within_table (n := c + (rest.length * (c + 1) + found.length * c))
        trivial fun tree _ => ?_) (by rw [List.length_cons]; ring_nf; omega)
      split_ifs
      · exact Terms.atMost_mono (ih found) (Nat.le_add_left _ c)
      · exact Terms.atMost_mono (ih found) (Nat.le_add_left _ c)
      · refine Terms.atMost_bind (attempt _) fun r => ?_
        split_ifs
        · trivial
        · exact ih found
      · refine Terms.atMost_mono (ih _) ?_
        rw [length_insertBest]
        exact Nat.le_add_left _ c
  refine Terms.atMost_mono (scan _ _) ?_
  rw [List.length_range', List.length_replicate]

theorem atMost_undoReserveOrSteal {target : Nat} (known : F → target < maxClasses)
    (idx frames oldFree : Nat) (reserved : Bool) :
    (upTerms F).AtMost 1 (undoReserveOrSteal idx frames reserved oldFree target) := by
  unfold undoReserveOrSteal
  split_ifs
  · exact within_table known fun _ _ => trivial
  · exact within_table trivial fun _ _ => trivial

theorem slotFits_new {present : Bool} {free startRow : Nat} {new : Reserved}
    (made : llReservedNew present free startRow = some new) : SlotFits new := by
  unfold llReservedNew at made
  split_ifs at made with small
  obtain rfl := Option.some.inj made
  exact ⟨small.trans_lt (by decide), Nat.mod_lt _ (Nat.two_pow_pos _)⟩

theorem atMost_swapReserved {cls : Nat} (known : F → cls < maxClasses)
    (index newIdx newFree : Nat) :
    (upTerms F).AtMost 2 (swapReserved cls index newIdx newFree) := by
  unfold swapReserved llLocalSwap
  cases made : llReservedNew true newFree (rowFromTree newIdx) with
  | none => trivial
  | some new =>
    simp only [localSwap, Prog.step_bind, Prog.ret_bind, Prog.pure_eq]
    refine within_table (fun _ => slotFits_new made) fun old _ => ?_
    split_ifs
    · exact within_table known fun _ _ => trivial
    · trivial

theorem atMost_reserveOrStealCb {cls : Nat} (known : F → cls < maxClasses) (order index idx : Nat) :
    (upTerms F).AtMost 147 (reserveOrStealCb K order cls index idx) := by
  simp only [reserveOrStealCb, treesReserveOrSteal, allocateTaken, lowerGetStep, Prog.step_bind,
    Prog.ret_bind, Prog.pure_eq]
  refine within_table (n := 146) known fun taken given => ?_
  rcases taken with _ | ⟨reserved, oldFree, target⟩
  · trivial
  · have kept : F → target < maxClasses := fun on => given on (known on) _ _ _ rfl
    have undo : ∀ r : Result, (upTerms F).AtMost 2
        (undoReserveOrSteal idx (2 ^ order) reserved oldFree target >>= fun _ => .ret r) := fun r =>
      Terms.atMost_mono
        (Terms.atMost_bind (m := 0) (atMost_undoReserveOrSteal kept ..) fun _ => trivial)
        (by decide)
    by_cases slotless : (K.locals target).getD 0 = 0
    · simp only [if_pos slotless]
      exact Terms.atMost_mono (undo _) (by decide)
    · simp only [if_neg slotless]
      refine atMost_lower (n := 2) fun res => ?_
      by_cases done : res.error = .ok
      · rw [if_pos done]
        cases reserved with
        | true => exact Terms.atMost_bind (m := 0) (atMost_swapReserved kept ..) fun _ => trivial
        | false => trivial
      · rw [if_neg done]
        exact undo res

theorem atMost_stealCb {cls : Nat} (known : F → cls < maxClasses) (order idx : Nat) :
    (upTerms F).AtMost 146 (stealCb order cls idx) := by
  simp only [stealCb, treesSteal, lowerGetStep, treesPut, Prog.step_bind, Prog.ret_bind,
    Prog.pure_eq]
  refine within_table (n := 145) known fun stolen _ => ?_
  cases stolen with
  | none => trivial
  | some stolen =>
    refine atMost_lower (n := 1) fun res => ?_
    split_ifs
    · trivial
    · exact within_table trivial fun _ _ => trivial

theorem atMost_searchAndReserve {cls : Nat} (known : F → cls < maxClasses)
    (index order start : Nat) :
    (upTerms F).AtMost (158 * K.treesLen + 2796) (searchAndReserve K cls index order start) := by
  have search : ∀ start offset len rate, (upTerms F).AtMost ((len - offset) * 148 + 1176)
      (treesSearchBest K start offset len rate (reserveOrStealCb K order cls index)) :=
    fun start offset len rate => Terms.atMost_mono
      (atMost_treesSearchBest start offset len rate (atMost_reserveOrStealCb known order index))
      (by omega)
  refine Terms.within_assert fun _ => ?_
  dsimp only [cacheSize]
  split_ifs
  · -- the trees near the last one are a sixteenth of all, or four
    refine Terms.atMost_mono (Terms.atMost_bind (search ..) (m := K.treesLen * 148 + 1176)
      fun res => ?_) (by omega)
    split_ifs
    · trivial
    · exact Terms.atMost_mono (search ..) (by omega)
  · exact Terms.atMost_mono (search ..) (by omega)

/-! ## Calls -/

theorem atMost_getLocalWith {miss : LocalResult → UpProg (Result × Option Nat)} {m : Nat}
    (cls index order : Nat) (frame : Option Nat) (enough : 145 ≤ m)
    (missed : ∀ old, (upTerms F).AtMost m (miss old)) :
    (upTerms F).AtMost (m + 1) (getLocalWith cls index order frame miss) := by
  simp only [getLocalWith, llLocalGet, localDec, lowerGetStep, llLocalSetStart, localSetStart,
    treesPut, Prog.step_bind, Prog.ret_bind, Prog.pure_eq, makeResult]
  refine within_table trivial fun got _ => ?_
  split_ifs
  · refine Terms.atMost_mono (atMost_lower (n := 1) fun res => ?_) enough
    split_ifs
    · exact within_table trivial fun _ _ => trivial
    · trivial
    · exact within_table trivial fun _ _ => trivial
  · exact missed _

theorem atMost_syncWithGlobal (cls index needed : Nat) (old : LocalResult) :
    (upTerms F).AtMost 3 (syncWithGlobal cls index needed old) := by
  refine Terms.within_assert fun _ => ?_
  simp only [llLocalPut, localInc, treesSyncSteal, treesPut, Prog.step_bind, Prog.ret_bind,
    Prog.pure_eq]
  split_ifs
  · trivial
  · refine within_table (n := 2) trivial fun stolen _ => ?_
    cases stolen with
    | none => trivial
    | some stolen =>
      refine within_table (n := 1) trivial fun done _ => ?_
      split_ifs
      · trivial
      · exact within_table trivial fun _ _ => trivial

theorem atMost_getLocal (cls index order : Nat) (frame : Option Nat) (sync : Bool) :
    (upTerms F).AtMost 150 (getLocal cls index order frame sync) := by
  refine atMost_getLocalWith (m := 149) cls index order frame (by decide) fun old => ?_
  split_ifs
  · refine Terms.atMost_bind (n := 3) (m := 146) (atMost_syncWithGlobal ..) fun done => ?_
    split_ifs
    · exact atMost_getLocalWith (m := 145) cls index order frame (le_refl _) fun _ => trivial
    · trivial
  · trivial

theorem atMost_stealLocal (request : Request) (frame : Option Nat) :
    (upTerms F).AtMost (slotCount K + 145) (stealLocal K request frame) := by
  refine Terms.atMost_bind (atMost_llLocalSteal ..) fun res => ?_
  simp only [lowerGetStep, treesPut, Prog.step_bind, Prog.ret_bind, Prog.pure_eq]
  by_cases success : res.success = true
  · simp only [if_pos success]
    refine atMost_lower (n := 1) fun res2 => ?_
    split_ifs
    · trivial
    · exact within_table trivial fun _ _ => trivial
    · exact within_table trivial fun _ _ => trivial
  · simp only [if_neg success]
    trivial

theorem atMost_demoteLocal {request : Request} (known : F → request.cls < maxClasses)
    (frame : Option Nat) :
    (upTerms F).AtMost (2 * slotCount K + 146) (demoteLocal K request frame) := by
  refine Terms.within_bind (within_llLocalDemoteAny known ..) fun dem small => ?_
  have last : (upTerms F).AtMost 145 (do
      let res ← lowerGetStep (frameFromRow dem.row) request.order frame
      if res.error = .ok then return llfreeOk res.frame request.cls
      else
        treesPut (treeFromRow dem.row) (2 ^ request.order)
        return if res.error ≠ .memory then res else llfreeErr .memory) := by
    simp only [lowerGetStep, treesPut, Prog.step_bind, Prog.ret_bind, Prog.pure_eq]
    refine atMost_lower (n := 1) fun res => ?_
    split_ifs
    · trivial
    · exact within_table trivial fun _ _ => trivial
    · exact within_table trivial fun _ _ => trivial
  split_ifs
  · exact within_table (n := 145) small fun _ _ => last
  · exact Terms.atMost_mono last (by decide)
  · trivial

theorem atMost_stealOrDemoteLocal {request : Request} (known : F → request.cls < maxClasses)
    (frame : Option Nat) :
    (upTerms F).AtMost (3 * slotCount K + 291) (stealOrDemoteLocal K request frame) := by
  refine Terms.atMost_mono (Terms.atMost_bind (m := 2 * slotCount K + 146)
    (atMost_stealLocal request frame) fun res => ?_) (by omega)
  split_ifs
  · trivial
  · exact atMost_demoteLocal known frame

theorem atMost_llfreeGetAt {request : Request} (known : F → request.cls < maxClasses)
    (frame : Nat) :
    (upTerms F).AtMost (3 * slotCount K + 442) (llfreeGetAt K frame request) := by
  have global : (upTerms F).AtMost (3 * slotCount K + 292) (getAtGlobal K frame request) := by
    simp only [getAtGlobal, treesSteal, lowerGetStep, treesPut, Prog.step_bind, Prog.ret_bind,
      Prog.pure_eq]
    refine within_table (n := 3 * slotCount K + 291) known fun stolen _ => ?_
    cases stolen with
    | none => exact atMost_stealOrDemoteLocal known (some frame)
    | some stolen =>
      refine Terms.atMost_mono (atMost_lower (n := 1) fun res => ?_) (by omega)
      split_ifs
      · trivial
      · exact within_table trivial fun _ _ => trivial
  refine Terms.within_assert fun _ => ?_
  cases request.slot with
  | none => exact Terms.atMost_mono global (by omega)
  | some index =>
    refine Terms.atMost_mono (Terms.atMost_bind (m := 3 * slotCount K + 292)
      (atMost_getLocal ..) fun res => ?_) (by omega)
    dsimp only
    split_ifs
    · trivial
    · exact global

theorem atMost_getSearch {request : Request} (known : F → request.cls < maxClasses) :
    (upTerms F).AtMost (158 * K.treesLen + 2946) (getSearch K request) := by
  have global : ∀ start, (upTerms F).AtMost (158 * K.treesLen + 2946)
      (treesSearchBest K start 0 K.treesLen
      (rateGlobalTree K request.cls (2 ^ request.order)) (stealCb request.order request.cls)) :=
    fun start => Terms.atMost_mono (atMost_treesSearchBest start 0 K.treesLen _
      (atMost_stealCb known request.order)) (by omega)
  unfold getSearch
  cases request.slot with
  | none => exact global 0
  | some index =>
    simp only
    by_cases enough : (K.locals request.cls).getD 0 ≠ 0 ∧ (K.locals request.cls).getD 0 < K.treesLen
    · rw [if_pos enough]
      refine Terms.atMost_mono (Terms.atMost_bind (m := 158 * K.treesLen + 2796)
        (atMost_getLocal ..) fun res => ?_) (by omega)
      dsimp only
      split_ifs
      · trivial
      · exact atMost_searchAndReserve known ..
    · rw [if_neg enough]
      exact global _

private theorem validated_cls {request : Request} {frame : Option Nat}
    (valid : ¬ validateRequest K request frame = false) : request.cls < maxClasses := by
  by_contra large
  refine valid ?_
  have none : K.locals request.cls = none := if_pos (Nat.le_of_not_lt large)
  simp [validateRequest, none]

theorem atMost_llfreeGet (frame : Option Nat) (request : Request) :
    (upTerms F).AtMost (callBound K) (llfreeGet K frame request) := by
  unfold llfreeGet callBound
  split_ifs with invalid
  · trivial
  · have known : F → request.cls < maxClasses := fun _ => validated_cls invalid
    cases frame with
    | some frame => exact Terms.atMost_mono (atMost_llfreeGetAt known frame) (by omega)
    | none =>
      refine Terms.atMost_mono (Terms.atMost_bind (m := 3 * slotCount K + 291)
        (atMost_getSearch known) fun res => ?_) (by omega)
      split_ifs
      · trivial
      · exact atMost_stealOrDemoteLocal known none

theorem atMost_llfreePut (frame : Nat) (request : Request) :
    (upTerms F).AtMost (callBound K) (llfreePut K frame request) := by
  unfold callBound
  simp only [llfreePut, lowerPutStep, llLocalPut, localInc, treesPut, Prog.step_bind, Prog.ret_bind,
    Prog.pure_eq]
  split_ifs
  · trivial
  · refine Terms.atMost_mono (atMost_lower (n := 2) fun res => ?_) (by omega)
    split_ifs
    · trivial
    · cases request.slot with
      | none =>
        exact Terms.atMost_mono (within_table (n := 0) trivial fun _ _ => trivial) (by decide)
      | some index =>
        refine within_table (n := 1) trivial fun done _ => ?_
        split_ifs
        · trivial
        · exact within_table trivial fun _ _ => trivial

theorem atMost_llfreeDrain : (upTerms F).AtMost (callBound K) (llfreeDrain K) := by
  refine Terms.atMost_mono (Terms.atMost_each (c := 2) _ fun x member => ?_)
    (show slotCount K * 2 ≤ callBound K by unfold callBound; omega)
  have known : x.1 < maxClasses := by
    obtain ⟨t, less, own⟩ := List.mem_flatMap.mp member
    obtain ⟨i, -, rfl⟩ := List.mem_map.mp own
    exact List.mem_range.mp less
  simp only [llLocalDrain, localSwap, treesUnreserve, Prog.step_bind, Prog.ret_bind, Prog.pure_eq]
  refine within_table (n := 1) (fun _ => slotFits_none) fun old _ => ?_
  split_ifs
  · exact within_table (fun _ => known) fun _ _ => trivial
  · trivial

/-! ## Single accesses -/

def wordTerms (F : Prop) : Terms WordOp WordOp.Res where
  cost _ := 1
  asks
    | .lower o => (loTerms F).asks o
    | .buffer _ => False
    | .table o => tableAsks F o
  given
    | .lower o, r => (loTerms F).given o r
    | .buffer _, _ => True
    | .table o, r => tableGiven F o r

theorem lowerWords_atMost {p : LoProg α} (bounded : (loTerms F).AtMost n p) :
    (wordTerms F).AtMost n (lowerWords p) := by
  refine Terms.within_expand (fun o asks => ?_) bounded
  have one : (wordTerms F).asks (.lower o) := asks
  exact Terms.within_step (m := 0) one fun _ given => given

theorem words_atMost {p : UpProg α} (bounded : (upTerms F).AtMost n p) :
    (wordTerms F).AtMost n (words K p) := by
  refine Terms.within_expand (fun o asks => ?_) bounded
  cases o with
  | lower c => exact lowerWords_atMost (atMost_lowerCall K.frames c)
  | lowerStatsAt frame order => exact absurd asks id
  | table o =>
    have one : (wordTerms F).asks (.table o) := asks
    exact Terms.within_step (m := 0) one fun _ given => given

end LLFree.Upper.Effort

/- module: LLFree/Lower/Statistics
   digest: The statistics of frames, children, trees and the whole allocator agree. -/

import LLFree.Lower.FrameSet
import LLFree.Lower.FreeCount
import Mathlib.Algebra.BigOperators.Group.Finset.Piecewise
import Mathlib.Algebra.BigOperators.Intervals

set_option autoImplicit false
set_option relaxedAutoImplicit false

namespace LLFree.Lower.Statistics

open LLFree.Atomic.Program LLFree.Code.Types LLFree.Code.Entries LLFree.Code.Lower
open LLFree.Lower.Holding LLFree.Lower.Quiet LLFree.Lower.FrameSet LLFree.Lower.FreeCount

/-! ## Sums over a range -/

theorem range_sum (f : Nat → Nat) (n : Nat) :
    ((List.range n).map f).sum = ∑ t ∈ Finset.range n, f t := by
  induction n with
  | zero => rfl
  | succ n ih => simp [List.range_succ, Finset.sum_range_succ, ih]

theorem range_countP (p : Nat → Bool) (n : Nat) :
    (List.range n).countP p = ∑ t ∈ Finset.range n, (p t).toNat := by
  induction n with
  | zero => rfl
  | succ n ih =>
    rw [List.range_succ, List.countP_append, Finset.sum_range_succ, ih]
    cases last : p n <;> simp [last]

/-! ## One frame and one child -/

variable {N : Nat} {l l' : Lower}

theorem stats_frame (cons : Consistent N l) (f : Nat) :
    (lowerStatsAt l f 0).freeFrames = if IsFree l f then 1 else 0 := by
  by_cases past : f ≥ l.frames
  · have taken : ¬ IsFree l f := cons.tail f (cons.frames ▸ past)
    rw [lowerStatsAt, if_pos past, if_neg taken]
  have real : f / 512 < l.childCount := by
    simp only [Lower.childCount, divCeil, childSize]
    omega
  have inside : f / 512 < l.entryCount := by
    simp only [Lower.entryCount, alignUp, alignDown, treeChildren]
    omega
  have member : f ∈ Finset.Ico (f / 512 * 512) (f / 512 * 512 + 512) :=
    Finset.mem_Ico.mpr (by omega)
  have counter := child_free cons inside
  rw [lowerStatsAt, if_neg past, if_pos rfl]
  dsimp only
  by_cases whole : (l.children (f / 512)).free = 512
  · -- no frame of the child is taken
    have all : (Finset.Ico (f / 512 * 512) (f / 512 * 512 + 512)).filter (IsFree l) =
        Finset.Ico (f / 512 * 512) (f / 512 * 512 + 512) := by
      apply Finset.eq_of_subset_of_card_le (Finset.filter_subset ..)
      rw [Nat.card_Ico]
      simp only [among] at counter
      omega
    have free : IsFree l f := (Finset.mem_filter.mp (all ▸ member)).2
    rw [if_pos (show (l.children (childFromFrame f)).free = childSize from whole), if_pos free]
  · rw [if_neg (show ¬ (l.children (childFromFrame f)).free = childSize from whole)]
    by_cases some : (l.children (f / 512)).free > 0
    · have small : (l.children (f / 512)).huge = false := by
        cases huge : (l.children (f / 512)).huge with
        | false => rfl
        | true =>
          have none := (cons.huge _ inside huge).1
          omega
      have row : f / 512 * 8 + f % 512 / 64 = f / 64 := by omega
      have bit : f % 512 % 64 = f % 64 := by omega
      have free : IsFree l f ↔ bitSet l f = false := by simp [IsFree, real, small]
      rw [if_pos (show (l.children (childFromFrame f)).free > 0 from some)]
      simp only [childFromFrame, childSize, fieldIsFree, fieldN, atomicSize, row, bit, free, bitSet]
      cases (l.rows (f / 64)).getLsbD (f % 64) <;> rfl
    · have taken : ¬ IsFree l f := by
        intro free
        have pos : 0 < among (IsFree l) (f / 512 * 512) 512 :=
          Finset.card_pos.mpr ⟨f, Finset.mem_filter.mpr ⟨member, free⟩⟩
        omega
      rw [if_neg (show ¬ (l.children (childFromFrame f)).free > 0 from some), if_neg taken]

theorem stats_frames (cons : Consistent N l) (c : Nat) :
    ∑ g ∈ Finset.range childSize, (lowerStatsAt l (frameFromChild c + g) 0).freeFrames =
      among (IsFree l) (c * 512) 512 := by
  simp only [stats_frame cons]
  rw [among, Finset.card_filter, Finset.sum_Ico_eq_sum_range, Nat.add_sub_cancel_left]
  rfl

theorem stats_child (cons : Consistent N l) {c : Nat} (inside : c < l.entryCount) :
    lowerStatsAt l (frameFromChild c) hugeOrder =
      ⟨(l.children c).free, ((l.children c).free == childSize).toNat, 0⟩ := by
  have own : childFromFrame (frameFromChild c) = c := Nat.mul_div_cancel c (by decide)
  by_cases real : c < l.childCount
  · have below : ¬ frameFromChild c ≥ l.frames := by
      simp only [Lower.childCount, divCeil, frameFromChild, childSize] at real ⊢
      omega
    simp only [lowerStatsAt, if_neg below, own]
    rfl
  · have past : frameFromChild c ≥ l.frames := by
      simp only [Lower.childCount, divCeil, frameFromChild, childSize] at real ⊢
      omega
    have empty : (l.children c).free = 0 := by
      cases huge : (l.children c).huge with
      | true => exact (cons.huge c inside huge).1
      | false => exact absurd (cons.small c inside huge).1 real
    rw [lowerStatsAt, if_pos past, empty]
    rfl

/-! ## Trees -/

theorem stats_tree (cons : Consistent N l) {frame t : Nat} (inside : frame < N)
    (here : frame / 4096 = t) : lowerStatsAt l frame treeOrder =
      ⟨groupFree l (t * 8), groupHuge l (t * 8), (groupFree l (t * 8) == treeSize).toNat⟩ := by
  have below : ¬ frame ≥ l.frames := by
    rw [cons.frames]
    omega
  have start : alignDown (childFromFrame frame) treeChildren = t * 8 := by
    simp only [alignDown, childFromFrame, childSize, treeChildren]
    omega
  simp only [lowerStatsAt, if_neg below, start]
  rfl

theorem stats_tree_free (cons : Consistent N l) {frame t : Nat} (inside : frame < N)
    (here : frame / 4096 = t) :
    (lowerStatsAt l frame treeOrder).freeFrames = groupFree l (t * 8) := by
  rw [stats_tree cons inside here]

theorem childrenCount_eq (cons : Consistent N l) : l.childrenCount = divCeil N treeSize := by
  simp only [Lower.childrenCount, Lower.childCount, cons.frames, divCeil, childSize, treeChildren,
    treeSize]
  omega

/-- The statistics of the lower allocator are the counters of all children, tree by tree. -/
theorem stats_groups (cons : Consistent N l) : (lowerStats l).freeFrames =
    ∑ t ∈ Finset.range (divCeil N treeSize), groupFree l (t * 8) := by
  simp only [lowerStats, range_sum]
  rw [childrenCount_eq cons]

/-! ## All granularities -/

/-- The statistics of each level are the sums of those one level down. -/
structure StatsAgree (N : Nat) (l : Lower) : Prop where
  frames : ∀ f < N, (lowerStatsAt l f 0).freeFrames = if IsFree l f then 1 else 0
  children : ∀ c,
    ∑ g ∈ Finset.range childSize, (lowerStatsAt l (frameFromChild c + g) 0).freeFrames =
      (lowerStatsAt l (frameFromChild c) hugeOrder).freeFrames
  trees : ∀ t,
    ∑ j ∈ Finset.range treeChildren,
        (lowerStatsAt l (frameFromChild (t * treeChildren + j)) hugeOrder).freeFrames =
      (lowerStatsAt l (frameFromTree t) treeOrder).freeFrames
  huge : ∀ t,
    ∑ j ∈ Finset.range treeChildren,
        (lowerStatsAt l (frameFromChild (t * treeChildren + j)) hugeOrder).freeHuge =
      (lowerStatsAt l (frameFromTree t) treeOrder).freeHuge
  all : lowerStats l =
    ⟨∑ t ∈ Finset.range (divCeil N treeSize),
        (lowerStatsAt l (frameFromTree t) treeOrder).freeFrames,
      ∑ t ∈ Finset.range (divCeil N treeSize),
        (lowerStatsAt l (frameFromTree t) treeOrder).freeHuge,
      ∑ t ∈ Finset.range (divCeil N treeSize),
        (lowerStatsAt l (frameFromTree t) treeOrder).freeTrees⟩

private theorem stats_past {frame order : Nat} (past : l.frames ≤ frame) :
    lowerStatsAt l frame order = ⟨0, 0, 0⟩ := if_pos past

private theorem tree_sums (cons : Consistent N l) (t : Nat) :
    ∑ j ∈ Finset.range treeChildren,
        (lowerStatsAt l (frameFromChild (t * treeChildren + j)) hugeOrder).freeFrames =
        (lowerStatsAt l (frameFromTree t) treeOrder).freeFrames ∧
      ∑ j ∈ Finset.range treeChildren,
        (lowerStatsAt l (frameFromChild (t * treeChildren + j)) hugeOrder).freeHuge =
        (lowerStatsAt l (frameFromTree t) treeOrder).freeHuge := by
  by_cases inside : frameFromTree t < N
  · have tree : t < divCeil N 4096 := by
      simp only [frameFromTree, treeSize, divCeil] at inside ⊢
      omega
    have here : frameFromTree t / 4096 = t := Nat.mul_div_cancel t (by decide)
    have child : ∀ j ∈ Finset.range treeChildren,
        lowerStatsAt l (frameFromChild (t * treeChildren + j)) hugeOrder =
          ⟨(l.children (t * 8 + j)).free, ((l.children (t * 8 + j)).free == childSize).toNat, 0⟩ :=
      fun j member => stats_child cons (entryCount_trees cons tree (Finset.mem_range.mp member))
    rw [stats_tree cons inside here]
    constructor
    · rw [groupFree, range_sum]
      exact Finset.sum_congr rfl fun j member => congrArg Stats.freeFrames (child j member)
    · rw [groupHuge, range_countP]
      exact Finset.sum_congr rfl fun j member => congrArg Stats.freeHuge (child j member)
  · have past : ∀ j, l.frames ≤ frameFromChild (t * treeChildren + j) := by
      intro j
      rw [cons.frames]
      simp only [frameFromTree, treeSize, frameFromChild, treeChildren, childSize] at inside ⊢
      omega
    have beyond : l.frames ≤ frameFromTree t := cons.frames ▸ Nat.le_of_not_lt inside
    simp only [stats_past (past _), stats_past beyond, Finset.sum_const_zero]
    exact ⟨trivial, trivial⟩

private theorem lowerStats_trees (cons : Consistent N l) : lowerStats l =
    ⟨∑ t ∈ Finset.range (divCeil N treeSize),
        (lowerStatsAt l (frameFromTree t) treeOrder).freeFrames,
      ∑ t ∈ Finset.range (divCeil N treeSize),
        (lowerStatsAt l (frameFromTree t) treeOrder).freeHuge,
      ∑ t ∈ Finset.range (divCeil N treeSize),
        (lowerStatsAt l (frameFromTree t) treeOrder).freeTrees⟩ := by
  have tree : ∀ t ∈ Finset.range (divCeil N treeSize), lowerStatsAt l (frameFromTree t) treeOrder =
      ⟨groupFree l (t * 8), groupHuge l (t * 8), (groupFree l (t * 8) == treeSize).toNat⟩ := by
    intro t member
    have less := Finset.mem_range.mp member
    apply stats_tree cons
    · simp only [frameFromTree, divCeil, treeSize] at less ⊢
      omega
    · exact Nat.mul_div_cancel t (by decide)
  rw [lowerStats, range_sum, range_sum, range_countP, childrenCount_eq cons]
  rw [Finset.sum_congr rfl fun t member => congrArg Stats.freeFrames (tree t member),
    Finset.sum_congr rfl fun t member => congrArg Stats.freeHuge (tree t member),
    Finset.sum_congr rfl fun t member => congrArg Stats.freeTrees (tree t member)]

theorem stats_agree (cons : Consistent N l) : StatsAgree N l := by
  refine ⟨fun f _ => stats_frame cons f, fun c => ?_, fun t => (tree_sums cons t).1,
    fun t => (tree_sums cons t).2, lowerStats_trees cons⟩
  rw [stats_frames cons]
  by_cases inside : c < l.entryCount
  · rw [child_free cons inside, stats_child cons inside]
  · have past : l.frames ≤ c * 512 := by
      simp only [Lower.entryCount, Lower.childCount, alignUp, alignDown, divCeil, childSize,
        treeChildren] at inside
      omega
    have beyond : l.frames ≤ frameFromChild c := past
    rw [stats_past beyond]
    apply among_eq_zero
    intro g low _
    apply cons.tail
    rw [← cons.frames]
    omega

/-! ## Runs -/

/-- Calls of the orders of a row or a huge frame, for frames below the overflow of the range
check. -/
def RowRequest : LowerCall → Prop
  | .get _ order target => (order ≤ atomicOrder ∨ order = hugeOrder) ∧ ∀ t, target = some t →
    t < 2 ^ 63
  | .put frame order => (order ≤ atomicOrder ∨ order = hugeOrder) ∧ frame < 2 ^ 63

theorem request_consistent {c : LowerCall} {r : Result} (cons : Consistent N l)
    (request : RowRequest c)
    (run : Prog.run LoOp.exec (c.prog N) l = some (r, l')) : Consistent N l' := by
  cases c with
  | get start order target =>
    obtain ⟨row, fits⟩ := request
    simp only [atomicOrder, hugeOrder] at row
    have args : GetArgs N start target := by
      refine ⟨?_, fits⟩
      rintro rfl
      exact start_of_run (by omega) run
    exact (get_sound cons args (by omega) run).1
  | put frame order =>
    obtain ⟨r', l'', done, cons', -⟩ := call_refines cons (.put frame order) request
    rw [run] at done
    cases done
    exact cons'

/-- In every state that calls reach from a fresh allocator the statistics agree. -/
theorem statistics_agree (fresh : Fresh N l) (run : LowerRun N (fun c _ => RowRequest c) l l') :
    StatsAgree N l' := by
  have cons : Consistent N l' := by
    induction run with
    | refl => exact fresh_consistent fresh
    | call c before request step ih => exact request_consistent ih request step
  exact stats_agree cons

/-- 600 frames after an allocation of one frame: the second child is not whole. -/
theorem statistics_agree_taken :
    ∃ l, Prog.run LoOp.exec (lowerGet 600 0 0 none) (lowerInit zeroed 600 .free).2 =
      some (llfreeOk 0 0, l) ∧ StatsAgree 600 l :=
  ⟨_, rfl, statistics_agree ⟨zeroed, .free, Or.inl rfl, rfl⟩
    (.call (.get 0 0 none) (.refl _) ⟨by decide, by simp⟩ rfl)⟩

end LLFree.Lower.Statistics

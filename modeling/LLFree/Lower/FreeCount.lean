/- module: LLFree/Lower/FreeCount
   digest: How many frames of a tree are free: after single blocks moved, and by the counters. -/

import LLFree.Lower.FrameSet
import Mathlib.Data.Finset.Card
import Mathlib.Order.Interval.Finset.Nat

set_option autoImplicit false
set_option relaxedAutoImplicit false

namespace LLFree.Lower.FreeCount

open LLFree.Code.Types LLFree.Code.Entries LLFree.Code.Lower LLFree.Words.Lanes
open LLFree.Lower.Holding LLFree.Lower.GetPut LLFree.Lower.Quiet LLFree.Lower.FrameSet

noncomputable def inTree (S : Set Nat) (t : Nat) : Finset Nat := by
  classical
  exact (Finset.Ico (t * 4096) ((t + 1) * 4096)).filter (· ∈ S)

/-- The number of free frames of tree `t` when `S` is the set of free frames. -/
noncomputable def treeFree (S : Set Nat) (t : Nat) : Nat := (inTree S t).card

theorem mem_inTree {S : Set Nat} {t g : Nat} : g ∈ inTree S t ↔ g / 4096 = t ∧ g ∈ S := by
  simp only [inTree, Finset.mem_filter, Finset.mem_Ico]
  have same : t * 4096 ≤ g ∧ g < (t + 1) * 4096 ↔ g / 4096 = t := by omega
  rw [same]

theorem treeFree_le (S : Set Nat) (t : Nat) : treeFree S t ≤ 4096 := by
  classical
  have bound := Finset.card_filter_le (Finset.Ico (t * 4096) ((t + 1) * 4096)) (· ∈ S)
  rw [Nat.card_Ico] at bound
  unfold treeFree inTree
  omega

theorem treeFree_mono {A B : Set Nat} (sub : A ⊆ B) (t : Nat) : treeFree A t ≤ treeFree B t := by
  refine Finset.card_le_card fun g member => ?_
  obtain ⟨here, free⟩ := mem_inTree.mp member
  exact mem_inTree.mpr ⟨here, sub free⟩

theorem treeFree_eq_zero {S : Set Nat} {t : Nat} :
    treeFree S t = 0 ↔ ∀ g ∈ S, g / 4096 ≠ t := by
  rw [treeFree, Finset.card_eq_zero, Finset.eq_empty_iff_forall_notMem]
  constructor
  · intro none g free same
    exact none g (mem_inTree.mpr ⟨same, free⟩)
  · intro none g member
    obtain ⟨same, free⟩ := mem_inTree.mp member
    exact none g free same

theorem treeFree_pos {S : Set Nat} {g : Nat} (free : g ∈ S) : 0 < treeFree S (g / 4096) := by
  by_contra zero
  exact treeFree_eq_zero.mp (by omega) g free rfl

theorem treeFree_full {S : Set Nat} {t : Nat} (full : treeFree S t = 4096) {g : Nat}
    (here : g / 4096 = t) : g ∈ S := by
  classical
  have all : inTree S t = Finset.Ico (t * 4096) ((t + 1) * 4096) := by
    refine Finset.eq_of_subset_of_card_le (Finset.filter_subset _ _) ?_
    rw [Nat.card_Ico]
    unfold treeFree at full
    omega
  have member : g ∈ inTree S t := by
    rw [all, Finset.mem_Ico]
    omega
  exact (mem_inTree.mp member).2

theorem treeFree_of_full {S : Set Nat} {t : Nat} (free : ∀ g, g / 4096 = t → g ∈ S) :
    treeFree S t = 4096 := by
  have range : Finset.Ico (t * 4096) ((t + 1) * 4096) ⊆ inTree S t := by
    intro g member
    have bounds := Finset.mem_Ico.mp member
    have here : g / 4096 = t := by omega
    exact mem_inTree.mpr ⟨here, free g here⟩
  have card := Finset.card_le_card range
  have most := treeFree_le S t
  rw [Nat.card_Ico] at card
  unfold treeFree at most ⊢
  omega

theorem treeFree_union {A B : Set Nat} (apart : ∀ g ∈ A, g ∉ B) (t : Nat) :
    treeFree (A ∪ B) t = treeFree A t + treeFree B t := by
  classical
  have split : inTree (A ∪ B) t = inTree A t ∪ inTree B t := by
    ext g
    simp only [Finset.mem_union, mem_inTree, Set.mem_union]
    tauto
  rw [treeFree, split, Finset.card_union_of_disjoint]
  · rfl
  · rw [Finset.disjoint_left]
    intro g one other
    exact apart g (mem_inTree.mp one).2 (mem_inTree.mp other).2

variable {f order t : Nat}

theorem treeFree_block (aligned : 2 ^ order ∣ f) (small : order ≤ 12) :
    treeFree (blockSet f order) t = if f / 4096 = t then 2 ^ order else 0 := by
  split_ifs with here
  · have all : inTree (blockSet f order) t = Finset.Ico f (f + 2 ^ order) := by
      ext g
      rw [mem_inTree, Finset.mem_Ico]
      constructor
      · exact fun both => both.2
      · exact fun within => ⟨(block_in_tree aligned small within).trans here, within⟩
    rw [treeFree, all, Nat.card_Ico]
    omega
  · refine treeFree_eq_zero.mpr fun g within same => here ?_
    exact (block_in_tree aligned small within).symm.trans same

theorem treeFree_take {S : Set Nat} (aligned : 2 ^ order ∣ f) (small : order ≤ 12)
    (free : blockSet f order ⊆ S) :
    treeFree (S \ blockSet f order) t + (if f / 4096 = t then 2 ^ order else 0) = treeFree S t := by
  rw [← treeFree_block aligned small, ← treeFree_union fun g rest => rest.2,
    Set.sdiff_union_of_subset free]

theorem treeFree_give {S : Set Nat} (aligned : 2 ^ order ∣ f) (small : order ≤ 12)
    (taken : blockSet f order ∩ S = ∅) :
    treeFree (S ∪ blockSet f order) t = treeFree S t + (if f / 4096 = t then 2 ^ order else 0) := by
  rw [← treeFree_block aligned small]
  refine treeFree_union (fun g free within => ?_) t
  have both : g ∈ blockSet f order ∩ S := ⟨within, free⟩
  rw [taken] at both
  exact both

/-! ## Counters -/

def among (p : Nat → Prop) [DecidablePred p] (a n : Nat) : Nat :=
  ((Finset.Ico a (a + n)).filter p).card

variable {p : Nat → Prop} [DecidablePred p]

theorem among_add (a m n : Nat) : among p a (m + n) = among p a m + among p (a + m) n := by
  have split : Finset.Ico a (a + (m + n)) =
      Finset.Ico a (a + m) ∪ Finset.Ico (a + m) (a + m + n) := by
    ext g
    simp only [Finset.mem_union, Finset.mem_Ico]
    omega
  rw [among, split, Finset.filter_union, Finset.card_union_of_disjoint]
  · rfl
  · rw [Finset.disjoint_left]
    intro g one other
    have low := (Finset.mem_Ico.mp (Finset.mem_filter.mp one).1).2
    have high := (Finset.mem_Ico.mp (Finset.mem_filter.mp other).1).1
    omega

theorem among_mul (a k n : Nat) :
    among p a (n * k) = ((List.range n).map fun i => among p (a + i * k) k).sum := by
  induction n with
  | zero => simp [among]
  | succ n ih =>
    rw [Nat.succ_mul, among_add, ih, List.range_succ, List.map_append, List.sum_append]
    simp

theorem among_eq_zero {a n : Nat} (none : ∀ g, a ≤ g → g < a + n → ¬ p g) : among p a n = 0 := by
  rw [among, Finset.card_eq_zero, Finset.filter_eq_empty_iff]
  intro g member
  have inside := Finset.mem_Ico.mp member
  exact none g inside.1 inside.2

variable {N : Nat} {l : Lower}

private theorem row_free (cons : Consistent N l) {c r : Nat} (inside : c < l.entryCount)
    (small : (l.children c).huge = false) (less : r < 8) :
    among (IsFree l) (c * 512 + r * 64) 64 + ones (l.rows (c * 8 + r)) = 64 := by
  have real := (cons.small c inside small).1
  have free : ∀ i < 64, (IsFree l (c * 512 + r * 64 + i) ↔
      ¬ (l.rows (c * 8 + r)).getLsbD i = true) := by
    intro i bound
    have child : (c * 512 + r * 64 + i) / 512 = c := by omega
    have row : (c * 512 + r * 64 + i) / 64 = c * 8 + r := by omega
    have bit : (c * 512 + r * 64 + i) % 64 = i := by omega
    simp [IsFree, bitSet, child, row, bit, real, small]
  have count : among (IsFree l) (c * 512 + r * 64) 64 =
      ((Finset.range 64).filter fun i => ¬ (l.rows (c * 8 + r)).getLsbD i = true).card := by
    refine Finset.card_bij' (fun g _ => g - (c * 512 + r * 64)) (fun i _ => c * 512 + r * 64 + i)
      (fun g member => ?_) (fun i member => ?_) (fun g member => ?_) fun i _ => ?_
    · obtain ⟨range, status⟩ := Finset.mem_filter.mp member
      have bounds := Finset.mem_Ico.mp range
      have less : g - (c * 512 + r * 64) < 64 := by omega
      refine Finset.mem_filter.mpr ⟨Finset.mem_range.mpr less, (free _ less).mp ?_⟩
      rwa [show c * 512 + r * 64 + (g - (c * 512 + r * 64)) = g by omega]
    · obtain ⟨range, status⟩ := Finset.mem_filter.mp member
      have less := Finset.mem_range.mp range
      exact Finset.mem_filter.mpr ⟨Finset.mem_Ico.mpr (by omega), (free i less).mpr status⟩
    · have bounds := Finset.mem_Ico.mp (Finset.mem_filter.mp member).1
      omega
    · simp
  rw [count, ones_eq_card, add_comm, Finset.card_filter_add_card_filter_not, Finset.card_range]

theorem child_free (cons : Consistent N l) {c : Nat} (inside : c < l.entryCount) :
    among (IsFree l) (c * 512) 512 = (l.children c).free := by
  cases kind : (l.children c).huge with
  | true =>
    rw [(cons.huge c inside kind).1]
    refine among_eq_zero fun g low high free => ?_
    have here : g / 512 = c := by omega
    have small := free.2.1
    rw [here, kind] at small
    cases small
  | false =>
    have total := (cons.small c inside kind).2
    have row := fun r less => row_free cons (r := r) inside kind less
    have rows : among (IsFree l) (c * 512) 512 = _ := among_mul (c * 512) 64 8
    simp only [List.range_succ, List.range_zero, List.nil_append, List.map_append, List.map_cons,
      List.map_nil, List.sum_append, List.sum_cons, List.sum_nil] at rows
    rw [fieldCountOnes_eq] at total
    have r0 := row 0 (by omega)
    have r1 := row 1 (by omega)
    have r2 := row 2 (by omega)
    have r3 := row 3 (by omega)
    have r4 := row 4 (by omega)
    have r5 := row 5 (by omega)
    have r6 := row 6 (by omega)
    have r7 := row 7 (by omega)
    simp only [Nat.zero_mul, Nat.one_mul, Nat.add_zero] at r0 r1 r2 r3 r4 r5 r6 r7 rows
    omega

theorem entryCount_trees (cons : Consistent N l) {t j : Nat} (tree : t < divCeil N 4096)
    (less : j < 8) : t * 8 + j < l.entryCount := by
  rw [cons.backed.entryCount_eq]
  simp only [entriesOf, childrenOf, alignUp, alignDown, divCeil, treeChildren, childSize] at tree ⊢
  omega

theorem groupFree_eq (cons : Consistent N l) {t : Nat} (tree : t < divCeil N 4096) :
    groupFree l (t * 8) = treeFree (freeSet l) t := by
  classical
  have whole : treeFree (freeSet l) t = among (IsFree l) (t * 4096) (8 * 512) := by
    refine congrArg Finset.card (Finset.ext fun g => ?_)
    rw [mem_inTree, Finset.mem_filter, Finset.mem_Ico, freeSet, Set.mem_ofPred_eq]
    have same : g / 4096 = t ↔ t * 4096 ≤ g ∧ g < t * 4096 + 8 * 512 := by omega
    rw [same]
  rw [whole, among_mul, groupFree]
  refine congrArg List.sum (List.map_congr_left fun j member => ?_)
  have less : j < 8 := List.mem_range.mp member
  have start : t * 4096 + j * 512 = (t * 8 + j) * 512 := by omega
  rw [start, child_free cons (entryCount_trees cons tree less)]

end LLFree.Lower.FreeCount

/- module: LLFree/Lower/Effort
   digest: How many accesses a call of the lower allocator makes at most. -/

import LLFree.Atomic.Bounded
import LLFree.Code.Lower

set_option autoImplicit false
set_option relaxedAutoImplicit false

namespace LLFree.Lower.Effort

open LLFree.Atomic.Program LLFree.Atomic.Bounded LLFree.Code.Types LLFree.Code.Entries
open LLFree.Code.Lower

variable {α : Type} {F : Prop} {n : Nat}

abbrev childFreeBits : Nat := 15

def ChildFits (child : Child) : Prop := child.free < 2 ^ childFreeBits

/-- The terms of calls of the lower allocator. If entries are bit fields (`F`), they exchange
nothing but what fits these, and are given nothing else. -/
def loTerms (F : Prop) : Terms LoOp LoOp.Res where
  cost _ := 1
  asks
    | .childCas _ expected desired => F → ChildFits expected ∧ ChildFits desired
    | _ => True
  given
    | .childLoad _, child => F → ChildFits child
    | _, _ => True

abbrev lowerBound : Nat := 144

theorem atMost_access {o : LoOp} {k : o.Res → LoProg α} (asks : (loTerms F).asks o)
    (rest : ∀ r, (loTerms F).given o r → (loTerms F).AtMost n (k r)) :
    (loTerms F).AtMost (n + 1) (.step o k) :=
  Terms.atMost_mono (Terms.within_step asks rest) (Nat.le_of_eq (Nat.add_comm 1 n))

private theorem atMost_undo {o : Nat → LoOp} {q : (j : Nat) → (o j).Res → Prop}
    [∀ j r, Decidable (q j r)] (i : Nat) (a : α) (asks : ∀ j, (loTerms F).asks (o j)) :
    (loTerms F).AtMost i
      (Prog.each (List.range i) (fun j => .step (o j) fun r => Prog.assert (q j r)) >>=
        fun _ => .ret a) := by
  have turns := Terms.atMost_each (E := loTerms F) (c := 1)
    (f := fun j => .step (o j) fun r => Prog.assert (q j r)) (List.range i)
    fun j _ => atMost_access (asks j) fun _ _ => Terms.atMost_assert
  rw [List.length_range, Nat.mul_one] at turns
  exact Terms.atMost_bind (m := 0) turns fun _ => trivial

/-! ## Bitfields -/

theorem atMost_setEntries (base i left : Nat) :
    (loTerms F).AtMost (i + 2 * left) (setEntries base i left) := by
  induction left generalizing i with
  | zero => trivial
  | succ left ih =>
    rw [setEntries]
    simp only [rowCas, Prog.step_bind, Prog.ret_bind, Prog.pure_eq]
    refine Terms.atMost_mono (atMost_access (n := i + 1 + 2 * left) trivial fun r _ => ?_)
      (by omega)
    split_ifs
    · exact ih (i + 1)
    · exact Terms.atMost_mono (atMost_undo i false fun _ => trivial) (by omega)

theorem atMost_toggleEntries (base : Nat) (mask : Row) (i left : Nat) :
    (loTerms F).AtMost (i + 2 * left) (toggleEntries base mask i left) := by
  induction left generalizing i with
  | zero => trivial
  | succ left ih =>
    rw [toggleEntries]
    simp only [rowCas, Prog.step_bind, Prog.ret_bind, Prog.pure_eq]
    refine Terms.atMost_mono (atMost_access (n := i + 1 + 2 * left) trivial fun r _ => ?_)
      (by omega)
    split_ifs
    · exact ih (i + 1)
    · exact Terms.atMost_mono (atMost_undo i _ fun _ => trivial) (by omega)

theorem atMost_fieldToggle (field index : Nat) {order : Nat} (expected : Bool)
    (small : order ≤ childOrder) :
    (loTerms F).AtMost 16 (fieldToggle field index order expected) := by
  have entries : 2 ^ order / atomicSize ≤ fieldN :=
    (Nat.div_le_div_right (Nat.pow_le_pow_right (by decide) small)).trans (by decide)
  refine Terms.within_assert fun _ => ?_
  simp only [rowToggleAt, Prog.step_bind, Prog.ret_bind, Prog.pure_eq]
  by_cases wide : 2 ^ order > atomicSize
  · rw [if_pos wide]
    exact Terms.atMost_mono (atMost_toggleEntries _ _ 0 _) (by simp only [fieldN] at entries; omega)
  · rw [if_neg wide]
    refine atMost_access (n := 15) trivial fun r _ => ?_
    split_ifs <;> trivial

theorem atMost_fieldSetNext (field startFrame order : Nat) :
    (loTerms F).AtMost 16 (fieldSetNext field startFrame order) := by
  refine Terms.within_assert fun _ => ?_
  simp only [rowZerosAt, Prog.step_bind, Prog.ret_bind, Prog.pure_eq]
  split_ifs with row
  · refine Terms.atMost_bind (m := 0) ?_ fun _ => trivial
    refine Terms.atMost_mono (Terms.atMost_firstSome (c := 1) _ fun i _ => ?_)
      (by simp [forOffsetted, fieldN])
    exact atMost_access trivial fun _ _ => trivial
  · -- all candidates of a field together have its eight rows
    refine Terms.atMost_bind (m := 0) ?_ fun _ => trivial
    refine Terms.atMost_mono (Terms.atMost_firstSome (c := 2 * (2 ^ order / atomicSize)) _
      fun i _ => ?_) ?_
    · exact Terms.atMost_mono (Terms.atMost_bind (m := 0) (atMost_setEntries _ 0 _)
        fun _ => trivial) (by omega)
    · have whole := Nat.div_mul_le_self fieldN (2 ^ order / atomicSize)
      simp only [forOffsetted, List.length_map, List.length_range]
      rw [Nat.mul_left_comm]
      exact Nat.mul_le_mul_left 2 whole

/-! ## Children -/

theorem atMost_tryUpdateHugeFrom {expected desired : Child} (fits : ChildFits expected)
    (fits' : ChildFits desired) (baseIdx i left : Nat) :
    (loTerms F).AtMost (i + 2 * left) (tryUpdateHugeFrom baseIdx expected desired i left) := by
  induction left generalizing i with
  | zero => trivial
  | succ left ih =>
    rw [tryUpdateHugeFrom]
    simp only [childCas, Prog.step_bind, Prog.ret_bind, Prog.pure_eq]
    refine Terms.atMost_mono (atMost_access (n := i + 1 + 2 * left) (fun _ => ⟨fits, fits'⟩)
      fun r _ => ?_) (by omega)
    split_ifs
    · exact ih (i + 1)
    · exact Terms.atMost_mono (atMost_undo i false fun _ _ => ⟨fits', fits⟩) (by omega)

theorem atMost_tryUpdateHugeN {expected desired : Child} (fits : ChildFits expected)
    (fits' : ChildFits desired) (baseIdx hNum : Nat) :
    (loTerms F).AtMost (2 * hNum) (tryUpdateHugeN baseIdx hNum expected desired) :=
  Terms.atMost_mono (atMost_tryUpdateHugeFrom fits fits' baseIdx 0 hNum) (by omega)

private theorem fits_free : ChildFits (childNew childSize false) :=
  show childSize < 2 ^ childFreeBits by decide

private theorem fits_huge : ChildFits (childNew 0 true) := show 0 < 2 ^ childFreeBits by decide

private theorem fits_split : ChildFits (childNew 0 false) := show 0 < 2 ^ childFreeBits by decide

private theorem huge_children {order : Nat} (valid : order ≤ treeOrder) :
    2 ^ (order - hugeOrder) ≤ 8 :=
  Nat.pow_le_pow_right (by decide) (Nat.sub_le_sub_right valid hugeOrder)

theorem atMost_lowerGetAt (frames frame : Nat) {order : Nat} (valid : order ≤ treeOrder) :
    (loTerms F).AtMost 18 (lowerGetAt frames frame order) := by
  have children := huge_children valid
  rw [lowerGetAt]
  simp only [childDecAt, childIncAt, Prog.step_bind, Prog.ret_bind, Prog.pure_eq]
  split_ifs with invalid huge
  · trivial
  · refine Terms.atMost_mono (Terms.atMost_bind (m := 0)
      (atMost_tryUpdateHugeN fits_free fits_huge _ _) fun r => ?_) (by omega)
    split_ifs <;> trivial
  · refine atMost_access (n := 17) trivial fun r _ => ?_
    split_ifs
    · refine Terms.atMost_bind (m := 1) (atMost_fieldToggle _ _ _ (Nat.le_of_not_le huge))
        fun ret => ?_
      split_ifs
      · trivial
      · exact atMost_access trivial fun _ _ => Terms.within_assert fun _ => trivial
    · trivial

theorem atMost_getGroup (hNum i : Nat) : (loTerms F).AtMost (2 * hNum) (getGroup hNum i) := by
  refine Terms.atMost_bind (m := 0) (atMost_tryUpdateHugeN fits_free fits_huge _ _) fun r => ?_
  split_ifs <;> trivial

theorem atMost_getChild (startFrame order i : Nat) :
    (loTerms F).AtMost 18 (getChild startFrame order i) := by
  rw [getChild]
  simp only [childDecAt, childIncAt, Prog.step_bind, Prog.ret_bind, Prog.pure_eq]
  refine atMost_access (n := 17) trivial fun r _ => ?_
  split_ifs
  · refine Terms.atMost_bind (m := 1) (atMost_fieldSetNext _ _ _) fun pos => ?_
    split_ifs
    · trivial
    · exact atMost_access trivial fun _ _ => Terms.within_assert fun _ => trivial
  · trivial

theorem atMost_lowerGet (frames startFrame order : Nat) (frame : Option Nat) :
    (loTerms F).AtMost lowerBound (lowerGet frames startFrame order frame) := by
  refine Terms.within_assert fun valid => ?_
  cases frame with
  | some frame => exact Terms.atMost_mono (atMost_lowerGetAt frames frame valid) (by decide)
  | none =>
    refine Terms.within_assert fun _ => Terms.within_assert fun _ => ?_
    split_ifs
    · refine Terms.atMost_bind (m := 0) ?_ fun _ => trivial
      refine Terms.atMost_mono (Terms.atMost_firstSome _ fun i _ => atMost_getGroup _ i) ?_
      have whole := Nat.div_mul_le_self treeChildren (2 ^ (order - hugeOrder))
      simp only [forOffsetted, List.length_map, List.length_range]
      rw [Nat.mul_left_comm]
      exact (Nat.mul_le_mul_left 2 whole).trans (by decide)
    · refine Terms.atMost_bind (m := 0) ?_ fun _ => trivial
      exact Terms.atMost_mono (Terms.atMost_firstSome _ fun i _ => atMost_getChild _ _ i)
        (by simp [forOffsetted, treeChildren])

theorem atMost_splitWait (child left : Nat) : (loTerms F).AtMost left (splitWait child left) := by
  induction left with
  | zero => trivial
  | succ left ih =>
    rw [splitWait]
    simp only [childLoad, Prog.step_bind, Prog.ret_bind, Prog.pure_eq]
    refine atMost_access trivial fun c _ => ?_
    split_ifs
    · exact ih
    · trivial

theorem atMost_splitHuge {old : Child} (child : Nat) (fits : F → ChildFits old) :
    (loTerms F).AtMost 20 (splitHuge old child) := by
  refine Terms.atMost_bind (m := 4) (atMost_fieldToggle _ _ _ (le_refl _)) fun res => ?_
  simp only [childCas, Prog.step_bind, Prog.ret_bind, Prog.pure_eq]
  split_ifs
  · exact atMost_access (fun on => ⟨fits on, fits_split⟩) fun _ _ =>
      Terms.within_assert fun _ => trivial
  · exact atMost_splitWait child retries

theorem atMost_putField (childIdx frame : Nat) {order : Nat} (small : order ≤ childOrder) :
    (loTerms F).AtMost 17 (putField childIdx frame order) := by
  refine Terms.atMost_bind (m := 1) (atMost_fieldToggle _ _ _ small) fun ret => ?_
  simp only [childIncAt, Prog.step_bind, Prog.ret_bind, Prog.pure_eq]
  split_ifs
  · exact atMost_access trivial fun _ _ => Terms.within_assert fun _ => trivial
  · trivial

theorem atMost_lowerPut (frames frame order : Nat) :
    (loTerms F).AtMost lowerBound (lowerPut frames frame order) := by
  refine Terms.within_assert fun valid => ?_
  have children := huge_children valid
  simp only [childLoad, Prog.step_bind, Prog.ret_bind, Prog.pure_eq]
  split_ifs with invalid huge misplaced
  · trivial
  · trivial
  · refine Terms.atMost_mono (Terms.atMost_bind (m := 0)
      (atMost_tryUpdateHugeN fits_huge fits_free _ _) fun r => ?_)
      ((Nat.mul_le_mul_left 2 children).trans (by decide))
    split_ifs <;> trivial
  · refine Terms.atMost_mono (atMost_access (n := 37) trivial fun old fits => ?_) (by decide)
    have small : order ≤ childOrder := Nat.le_of_not_le huge
    split_ifs
    · refine Terms.atMost_bind (m := 17) (atMost_splitHuge _ fits) fun res => ?_
      split_ifs
      · exact atMost_putField _ _ small
      · trivial
    · exact Terms.atMost_mono (atMost_putField _ _ small) (by decide)

theorem atMost_lowerCall (frames : Nat) (c : LowerCall) :
    (loTerms F).AtMost lowerBound (c.prog frames) := by
  cases c with
  | get start order target => exact atMost_lowerGet frames start order target
  | put frame order => exact atMost_lowerPut frames frame order

end LLFree.Lower.Effort

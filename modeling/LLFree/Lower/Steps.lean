/- module: LLFree/Lower/Steps
   digest: The accounting of the lower allocator and one rule for each of its accesses. -/

import LLFree.Atomic.Escrow
import LLFree.Lower.Holding
import LLFree.Lower.Rows
import Mathlib.Algebra.Group.Pi.Lemmas
import Mathlib.Algebra.Ring.Int.Defs
import Mathlib.Tactic.Ring

set_option autoImplicit false
set_option relaxedAutoImplicit false

namespace LLFree.Lower.Steps

open LLFree.Atomic.Escrow LLFree.Code.Types LLFree.Code.Entries LLFree.Words.Lanes
open LLFree.Lower.Rows LLFree.Lower.Holding LLFree.Lower.Holding.Held

def used (c : Child) : Int := (if c.huge then 0 else 512) - c.free

def lag : Held →+ (Nat → Int) where
  toFun m c := m.credit c - 64 * (m.huge c).sum
  map_zero' := by
    funext c
    simp
  map_add' a b := by
    funext c
    simp only [Held.add_credit, Held.add_huge, Multiset.sum_add, Pi.add_apply, Nat.cast_add]
    ring

/-- What an access adds to the lag of each child: frames taken from an entry count up, bits
set in the bitfield count down. -/
def lagDelta : (o : LoOp) → o.Res → Nat → Int
  | .childCas c expected desired, true => Pi.single c (used desired - used expected)
  | .childInc c order, true => Pi.single c (-2 ^ order)
  | .childDec c order, true => Pi.single c (2 ^ order)
  | .rowZeros row order, some _ => Pi.single (row / 8) (-2 ^ order)
  | .rowToggle row mask expected, true =>
    Pi.single (row / 8) (if expected then ones mask else -ones mask)
  | .rowCas row expected desired, true => Pi.single (row / 8) (ones expected - ones desired)
  | _, _ => 0

def lowerAccounting (N : Nat) (mayAbort : Prop) :
    Accounting LoOp LoOp.Res Lower Held (Nat → Int) where
  sys := Sys.ofExec LoOp.exec
  inv := Backed N
  amt := lag
  delta := lagDelta
  mayAbort := mayAbort

section Access

variable (c order : Nat) (done : Bool)

@[simp] theorem lagDelta_childLoad (v : Child) : lagDelta (.childLoad c) v = 0 := rfl

@[simp] theorem lagDelta_childCas (expected desired : Child) :
    lagDelta (.childCas c expected desired) done =
      if done then Pi.single c (used desired - used expected) else 0 := by
  cases done <;> rfl

@[simp] theorem lagDelta_childInc :
    lagDelta (.childInc c order) done = if done then Pi.single c (-2 ^ order) else 0 := by
  cases done <;> rfl

@[simp] theorem lagDelta_childDec :
    lagDelta (.childDec c order) done = if done then Pi.single c (2 ^ order) else 0 := by
  cases done <;> rfl

@[simp] theorem lagDelta_rowZeros (row : Nat) (found : Option Nat) :
    lagDelta (.rowZeros row order) found =
      if found.isSome then Pi.single (row / 8) (-2 ^ order) else 0 := by
  cases found <;> rfl

@[simp] theorem lagDelta_rowToggle (row : Nat) (mask : Row) (expected : Bool) :
    lagDelta (.rowToggle row mask expected) done =
      if done then Pi.single (row / 8) (if expected then (ones mask : Int) else -(ones mask : Int))
        else 0 := by
  cases done <;> rfl

@[simp] theorem lagDelta_rowCas (row : Nat) (expected desired : Row) :
    lagDelta (.rowCas row expected desired) done =
      if done then Pi.single (row / 8) ((ones expected : Int) - ones desired) else 0 := by
  cases done <;> rfl

end Access

section Discipline

variable (N : Nat) (A : Prop)

@[simp] theorem lowerAccounting_amt : (lowerAccounting N A).amt = lag := rfl
@[simp] theorem lowerAccounting_delta : (lowerAccounting N A).delta = lagDelta := rfl

end Discipline

theorem lag_apply (m : Held) (c : Nat) : lag m c = m.credit c - 64 * (m.huge c).sum := rfl

@[simp] theorem lag_taken (c n : Nat) : lag (taken c n) = Pi.single c (n : Int) := by
  funext i
  by_cases same : i = c <;> simp [lag_apply, same]

@[simp] theorem lag_run (f n : Nat) : lag (run f n) = 0 := by
  funext i
  simp [lag_apply]

@[simp] theorem lag_whole (c k : Nat) : lag (whole c k) = Pi.single c (-64 * (k : Int)) := by
  funext i
  by_cases same : i = c <;> simp [lag_apply, same]

variable {N : Nat} {A : Prop} {C : Held → Prop} {α : Type} {Q : α → Held → Prop} {m : Held}

/-! ## Child entries -/

theorem safe_childDec {c order : Nat} {k : Bool → LoProg α} (bound : c < entriesOf N) (cond : C m)
    (yes : (lowerAccounting N A).Safe C (k true) (m + taken c (2 ^ order)) Q)
    (no : (lowerAccounting N A).Safe C (k false) m Q) :
    (lowerAccounting N A).Safe C (.step (.childDec c order) k) m Q := by
  refine Accounting.safe_exec rfl cond fun s F (inv : Backed N s (m + F)) => ?_
  rw [← inv.entryCount_eq] at bound
  by_cases enough : (s.children c).huge = false ∧ 2 ^ order ≤ (s.children c).free
  · obtain ⟨small, le⟩ := enough
    refine ⟨true, s.setChild c ⟨(s.children c).free - 2 ^ order, false⟩,
      by simp [bound, update, childDec, small, le], _, ?_, ?_, yes⟩
    · refine inv.count bound small ?_ (fun i other => ?_) ?_ ?_
      · simp
        omega
      · simp [other]
      · funext g
        simp
      · funext i
        simp
    · simp
  · have refuse : childDec (s.children c) order = none := by
      simp only [childDec]
      rw [if_neg]
      simpa using enough
    exact ⟨false, s, by simp [bound, update, refuse], m, inv,
      by simp, no⟩

theorem safe_childInc {c order : Nat} {k : Bool → LoProg α} (bound : c < entriesOf N)
    (cond : C (m + taken c (2 ^ order)))
    (yes : (lowerAccounting N A).Safe C (k true) m Q) :
    (lowerAccounting N A).Safe C (.step (.childInc c order) k) (m + taken c (2 ^ order)) Q := by
  refine Accounting.safe_exec rfl cond fun s F (inv : Backed N s _) => ?_
  rw [← inv.entryCount_eq] at bound
  obtain ⟨raised, backed⟩ := inv.raise bound
  refine ⟨true, s.setChild c ⟨(s.children c).free + 2 ^ order, false⟩, ?_, m, backed, ?_, yes⟩
  · simp only [LoOp.exec_childInc, bound, if_true, raised, update]
  · simp [add_assoc, Pi.single_neg]

theorem safe_takeWhole {c : Nat} {k : Bool → LoProg α} (bound : c < entriesOf N) (cond : C m)
    (yes : (lowerAccounting N A).Safe C (k true) (m + whole c 0) Q)
    (no : (lowerAccounting N A).Safe C (k false) m Q) :
    (lowerAccounting N A).Safe C (.step (.childCas c ⟨512, false⟩ ⟨0, true⟩) k) m Q := by
  refine Accounting.safe_exec rfl cond fun s F (inv : Backed N s (m + F)) => ?_
  rw [← inv.entryCount_eq] at bound
  by_cases free : s.children c = ⟨512, false⟩
  · exact ⟨true, s.setChild c ⟨0, true⟩, by simp [bound, update, free], _,
      inv.takeWhole bound free, by simp [used], yes⟩
  · exact ⟨false, s, by simp [bound, update, free], m, inv,
      by simp, no⟩

theorem safe_freeWhole {c : Nat} {k : Bool → LoProg α} (real : c < childrenOf N)
    (cond : C (m + whole c 0)) (yes : (lowerAccounting N A).Safe C (k true) m Q) :
    (lowerAccounting N A).Safe C (.step (.childCas c ⟨0, true⟩ ⟨512, false⟩) k)
      (m + whole c 0) Q := by
  refine Accounting.safe_exec rfl cond fun s F (inv : Backed N s _) => ?_
  have bound : c < s.entryCount := by
    rw [inv.entryCount_eq]
    exact real.trans_le (childrenOf_le_entriesOf N)
  rw [← inv.childCount_eq] at real
  have entry := (inv.whole_alone bound).1
  exact ⟨true, s.setChild c ⟨512, false⟩, by simp [bound, update, entry], m,
    inv.freeWhole bound real, by simp [used], yes⟩

theorem safe_refuseWhole {c g n : Nat} {k : Bool → LoProg α} (bound : c < entriesOf N)
    (here : g / 512 = c) (pos : 0 < n) (cond : C (m + run g n))
    (no : (lowerAccounting N A).Safe C (k false) (m + run g n) Q) :
    (lowerAccounting N A).Safe C (.step (.childCas c ⟨0, true⟩ ⟨512, false⟩) k)
      (m + run g n) Q := by
  refine Accounting.safe_exec rfl cond fun s F (inv : Backed N s _) => ?_
  rw [← inv.entryCount_eq] at bound
  have small : (s.children c).huge = false := by
    refine inv.not_huge bound (Or.inr ⟨g, here, ?_⟩)
    have within : g ≤ g ∧ g < g + n := by omega
    simp only [Held.add_bit, run_bit, if_pos within]
    omega
  have differ : s.children c ≠ ⟨0, true⟩ := by
    intro same
    rw [same] at small
    cases small
  exact ⟨false, s, by simp [bound, update, differ], _, inv,
    by simp, no⟩

theorem safe_splitDone {c : Nat} {k : Bool → LoProg α} (real : c < childrenOf N)
    (cond : C (m + whole c 8))
    (yes : (lowerAccounting N A).Safe C (k true) (m + run (c * 512) 512) Q) :
    (lowerAccounting N A).Safe C (.step (.childCas c ⟨0, true⟩ ⟨0, false⟩) k)
      (m + whole c 8) Q := by
  refine Accounting.safe_exec rfl cond fun s F (inv : Backed N s _) => ?_
  have bound : c < s.entryCount := by
    rw [inv.entryCount_eq]
    exact real.trans_le (childrenOf_le_entriesOf N)
  rw [← inv.childCount_eq] at real
  have entry := (inv.whole_alone bound).1
  refine ⟨true, s.setChild c ⟨0, false⟩, by simp [bound, update, entry], _,
    inv.splitDone bound real, ?_, yes⟩
  simp [used, add_assoc, ← Pi.single_add]

theorem safe_loadWhole {c j : Nat} {k : Child → LoProg α} (bound : c < entriesOf N)
    (cond : C (m + whole c j))
    (yes : (lowerAccounting N A).Safe C (k ⟨0, true⟩) (m + whole c j) Q) :
    (lowerAccounting N A).Safe C (.step (.childLoad c) k) (m + whole c j) Q := by
  refine Accounting.safe_exec rfl cond fun s F (inv : Backed N s _) => ?_
  rw [← inv.entryCount_eq] at bound
  have entry := (inv.whole_alone bound).1
  exact ⟨⟨0, true⟩, s, by simp [bound, entry], _, inv,
    by simp, yes⟩

theorem safe_loadSmall {c g n : Nat} {k : Child → LoProg α} (bound : c < entriesOf N)
    (here : g / 512 = c) (pos : 0 < n) (cond : C (m + run g n))
    (yes : ∀ v : Child, v.huge = false →
      (lowerAccounting N A).Safe C (k v) (m + run g n) Q) :
    (lowerAccounting N A).Safe C (.step (.childLoad c) k) (m + run g n) Q := by
  refine Accounting.safe_exec rfl cond fun s F (inv : Backed N s _) => ?_
  rw [← inv.entryCount_eq] at bound
  have small : (s.children c).huge = false := by
    refine inv.not_huge bound (Or.inr ⟨g, here, ?_⟩)
    have within : g ≤ g ∧ g < g + n := by omega
    simp only [Held.add_bit, run_bit, if_pos within]
    omega
  exact ⟨s.children c, s, by simp [bound], _, inv,
    by simp, yes _ small⟩

/-! ## Bitfield rows -/

private theorem row_bound {s : Lower} {F : Held} {c r n : Nat}
    (inv : Backed N s (m + taken c n + F)) (here : r / 8 = c) (bound : c < s.entryCount)
    (pos : 0 < n) : r < s.rowCount := by
  have small : (s.children c).huge = false := by
    refine inv.not_huge bound (Or.inl ?_)
    simp only [Held.add_credit, taken_credit, if_true]
    omega
  have real := (inv.small c bound small).real
  simp only [Lower.rowCount, fieldN]
  omega

private theorem row_bound_of_run {s : Lower} {F : Held} {c r p n : Nat}
    (inv : Backed N s (m + run (r * 64 + p) n + F)) (here : r / 8 = c) (bound : c < s.entryCount)
    (pos : 0 < n) (fits : p + n ≤ 64) : r < s.rowCount := by
  have small : (s.children c).huge = false := by
    refine inv.not_huge bound (Or.inr ⟨r * 64 + p, by omega, ?_⟩)
    have within : r * 64 + p ≤ r * 64 + p ∧ r * 64 + p < r * 64 + p + n := by omega
    simp only [Held.add_bit, run_bit, if_pos within]
    omega
  have real := (inv.small c bound small).real
  simp only [Lower.rowCount, fieldN]
  omega

theorem safe_rowZeros {c r order : Nat} {k : Option Nat → LoProg α} (bound : c < entriesOf N)
    (here : r / 8 = c) (small : order ≤ 6) (cond : C (m + taken c (2 ^ order)))
    (hit : ∀ p, 2 ^ order ∣ p → p + 2 ^ order ≤ 64 →
      (lowerAccounting N A).Safe C (k (some p)) (m + run (r * 64 + p) (2 ^ order)) Q)
    (miss : (lowerAccounting N A).Safe C (k none) (m + taken c (2 ^ order)) Q) :
    (lowerAccounting N A).Safe C (.step (.rowZeros r order) k) (m + taken c (2 ^ order)) Q := by
  refine Accounting.safe_exec rfl cond fun s F (inv : Backed N s _) => ?_
  have pos : 0 < 2 ^ order := Nat.two_pow_pos order
  rw [← inv.entryCount_eq] at bound
  have inside := row_bound inv here bound pos
  rcases firstZerosAligned_spec (s.rows r) small
    with ⟨p, found, aligned, fits, clear, -⟩ | ⟨found, -⟩
  · refine ⟨some p, s.setRow r (s.rows r ||| rowMask p order),
      by simp [inside, found], _,
      inv.set here bound pos (isRun_rowMask small fits)
        ((and_rowMask_eq_zero small fits).mpr clear), ?_, hit p aligned fits⟩
    simp [here, add_assoc, Pi.single_neg]
  · exact ⟨none, s, by simp [inside, found], _, inv,
      by simp, miss⟩

theorem safe_toggleOn {c r p order : Nat} {k : Bool → LoProg α} (bound : c < entriesOf N)
    (here : r / 8 = c) (small : order ≤ 6) (fits : p + 2 ^ order ≤ 64)
    (cond : C (m + taken c (2 ^ order)))
    (yes : (lowerAccounting N A).Safe C (k true) (m + run (r * 64 + p) (2 ^ order)) Q)
    (no : (lowerAccounting N A).Safe C (k false) (m + taken c (2 ^ order)) Q) :
    (lowerAccounting N A).Safe C (.step (.rowToggle r (rowMask p order) false) k)
      (m + taken c (2 ^ order)) Q := by
  refine Accounting.safe_exec rfl cond fun s F (inv : Backed N s _) => ?_
  have pos : 0 < 2 ^ order := Nat.two_pow_pos order
  rw [← inv.entryCount_eq] at bound
  have inside := row_bound inv here bound pos
  by_cases clear : s.rows r &&& rowMask p order = 0#64
  · refine ⟨true, s.setRow r (s.rows r ||| rowMask p order),
      by simp [inside, rowToggle, clear, update], _,
      inv.set here bound pos (isRun_rowMask small fits) clear, ?_, yes⟩
    simp [here, add_assoc, Pi.single_neg,
      (isRun_rowMask small fits).ones_eq]
  · exact ⟨false, s, by simp [inside, rowToggle, clear, update], _, inv,
      by simp, no⟩

theorem safe_toggleOff {c r p order : Nat} {k : Bool → LoProg α} (bound : c < entriesOf N)
    (here : r / 8 = c) (small : order ≤ 6) (fits : p + 2 ^ order ≤ 64)
    (cond : C (m + run (r * 64 + p) (2 ^ order)))
    (yes : (lowerAccounting N A).Safe C (k true) (m + taken c (2 ^ order)) Q) :
    (lowerAccounting N A).Safe C (.step (.rowToggle r (rowMask p order) true) k)
      (m + run (r * 64 + p) (2 ^ order)) Q := by
  refine Accounting.safe_exec rfl cond fun s F (inv : Backed N s _) => ?_
  have pos : 0 < 2 ^ order := Nat.two_pow_pos order
  rw [← inv.entryCount_eq] at bound
  have inside := row_bound_of_run inv here bound pos fits
  obtain ⟨set, backed⟩ := inv.clear here bound pos (isRun_rowMask small fits)
  refine ⟨true, s.setRow r (s.rows r &&& ~~~rowMask p order),
    by simp [inside, rowToggle, set, update], _, backed, ?_, yes⟩
  simp [here, (isRun_rowMask small fits).ones_eq]

private theorem ones_zero : ones (0#64) = 0 := ones_eq_zero.mpr rfl

theorem safe_rowOn {c r : Nat} {k : Bool → LoProg α} (bound : c < entriesOf N) (here : r / 8 = c)
    (cond : C (m + taken c 64))
    (yes : (lowerAccounting N A).Safe C (k true) (m + run (r * 64) 64) Q)
    (no : (lowerAccounting N A).Safe C (k false) (m + taken c 64) Q) :
    (lowerAccounting N A).Safe C (.step (.rowCas r 0#64 (BitVec.allOnes 64)) k)
      (m + taken c 64) Q := by
  refine Accounting.safe_exec rfl cond fun s F (inv : Backed N s _) => ?_
  rw [← inv.entryCount_eq] at bound
  have inside := row_bound inv here bound (by omega)
  by_cases clear : s.rows r = 0#64
  · have backed := inv.set here bound (by omega) isRun_allOnes (by simp [clear])
    rw [clear, BitVec.zero_or, Nat.add_zero] at backed
    refine ⟨true, s.setRow r (BitVec.allOnes 64), ?_, _, backed, ?_, yes⟩
    · simp only [LoOp.exec_rowCas, inside, if_true, update]
      rw [if_pos clear]
    · simp only [lowerAccounting_amt, lowerAccounting_delta, lagDelta_rowCas, if_true, map_add,
        lag_run, lag_taken, here, isRun_allOnes.ones_eq]
      simp [ones_zero, add_assoc, Pi.single_neg]
  · refine ⟨false, s, ?_, _, inv, by simp, no⟩
    simp only [LoOp.exec_rowCas, inside, if_true, update]
    rw [if_neg clear]

theorem safe_rowOff {c r : Nat} {k : Bool → LoProg α} (bound : c < entriesOf N) (here : r / 8 = c)
    (cond : C (m + run (r * 64) 64))
    (yes : (lowerAccounting N A).Safe C (k true) (m + taken c 64) Q) :
    (lowerAccounting N A).Safe C (.step (.rowCas r (BitVec.allOnes 64) 0#64) k)
      (m + run (r * 64) 64) Q := by
  refine Accounting.safe_exec rfl cond fun s F (inv : Backed N s (m + run (r * 64 + 0) 64 + F)) =>
    ?_
  rw [← inv.entryCount_eq] at bound
  have inside := row_bound_of_run inv here bound (by omega) (by omega)
  obtain ⟨set, backed⟩ := inv.clear here bound (by omega) isRun_allOnes
  rw [BitVec.and_allOnes] at set
  rw [set, BitVec.and_not_self] at backed
  refine ⟨true, s.setRow r 0#64, ?_, _, backed, ?_, yes⟩
  · simp only [LoOp.exec_rowCas, inside, if_true, update]
    rw [if_pos set]
  · simp only [lowerAccounting_amt, lowerAccounting_delta, lagDelta_rowCas, if_true, map_add,
      lag_run, lag_taken, here, isRun_allOnes.ones_eq]
    simp [ones_zero]

theorem safe_rowRefuse {c r : Nat} {k : Bool → LoProg α} (bound : c < entriesOf N)
    (here : r / 8 = c) (cond : C (m + run (r * 64) 64))
    (no : (lowerAccounting N A).Safe C (k false) (m + run (r * 64) 64) Q) :
    (lowerAccounting N A).Safe C (.step (.rowCas r 0#64 (BitVec.allOnes 64)) k)
      (m + run (r * 64) 64) Q := by
  refine Accounting.safe_exec rfl cond fun s F (inv : Backed N s (m + run (r * 64 + 0) 64 + F)) =>
    ?_
  rw [← inv.entryCount_eq] at bound
  have inside := row_bound_of_run inv here bound (by omega) (by omega)
  have set := (inv.clear here bound (by omega) isRun_allOnes).1
  rw [BitVec.and_allOnes] at set
  refine ⟨false, s, ?_, _, inv, by simp, no⟩
  simp only [LoOp.exec_rowCas, inside, if_true, update, set]
  rfl

theorem safe_rowSplit {c j : Nat} {k : Bool → LoProg α} (real : c < childrenOf N) (more : j < 8)
    (cond : C (m + whole c j))
    (yes : (lowerAccounting N A).Safe C (k true) (m + whole c (j + 1)) Q) :
    (lowerAccounting N A).Safe C (.step (.rowCas (c * 8 + j) 0#64 (BitVec.allOnes 64)) k)
      (m + whole c j) Q := by
  refine Accounting.safe_exec rfl cond fun s F (inv : Backed N s _) => ?_
  have bound : c < s.entryCount := by
    rw [inv.entryCount_eq]
    exact real.trans_le (childrenOf_le_entriesOf N)
  rw [← inv.childCount_eq] at real
  have inside : c * 8 + j < s.rowCount := by
    simp only [Lower.rowCount, fieldN]
    omega
  obtain ⟨clear, backed⟩ := inv.splitRow bound real more
  refine ⟨true, s.setRow (c * 8 + j) (BitVec.allOnes 64), ?_, _, backed, ?_, yes⟩
  · simp only [LoOp.exec_rowCas, inside, if_true, update]
    rw [if_pos clear]
  · have here : (c * 8 + j) / 8 = c := by omega
    simp only [lowerAccounting_amt, lowerAccounting_delta, lagDelta_rowCas, if_true, map_add,
      lag_whole, here, isRun_allOnes.ones_eq]
    simp only [ones_zero, add_assoc, ← Pi.single_add]
    congr 2
    push_cast
    ring

end LLFree.Lower.Steps

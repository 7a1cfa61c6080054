/- module: LLFree/Lower/Runs
   digest: What each access of the lower allocator does to its words in a run. -/

import LLFree.Lower.Quiet

set_option autoImplicit false
set_option relaxedAutoImplicit false

namespace LLFree.Lower.Runs

open LLFree.Atomic.Program LLFree.Code.Types LLFree.Code.Entries LLFree.Lower.Rows
open LLFree.Lower.Holding

variable {l : Lower} {α : Type}

/-! ## Child entries -/

theorem run_childLoad {c : Nat} {k : Child → LoProg α} (bound : c < l.entryCount) :
    Prog.run LoOp.exec (.step (.childLoad c) k) l = Prog.run LoOp.exec (k (l.children c)) l := by
  rw [Prog.run_step]
  simp only [LoOp.exec_childLoad, if_pos bound, Option.bind_some]

theorem run_childCas {c : Nat} {x y : Child} {k : Bool → LoProg α} (bound : c < l.entryCount) :
    Prog.run LoOp.exec (.step (.childCas c x y) k) l =
      if l.children c = x then Prog.run LoOp.exec (k true) (l.setChild c y)
      else Prog.run LoOp.exec (k false) l := by
  rw [Prog.run_step]
  simp only [LoOp.exec_childCas, if_pos bound]
  split_ifs
  · rfl
  · rfl

theorem run_childDec {c order : Nat} {k : Bool → LoProg α} (bound : c < l.entryCount) :
    Prog.run LoOp.exec (.step (.childDec c order) k) l =
      if (l.children c).huge = false ∧ 2 ^ order ≤ (l.children c).free then
        Prog.run LoOp.exec (k true) (l.setChild c ⟨(l.children c).free - 2 ^ order, false⟩)
      else Prog.run LoOp.exec (k false) l := by
  rw [Prog.run_step]
  simp only [LoOp.exec_childDec, if_pos bound, Option.bind_some, childDec, Bool.not_eq_true]
  by_cases room : (l.children c).huge = false ∧ (l.children c).free ≥ 2 ^ order
  · rw [if_pos room, if_pos room, room.1]
    rfl
  · rw [if_neg room, if_neg room]
    rfl

theorem run_childInc {c order : Nat} {k : Bool → LoProg α} (bound : c < l.entryCount) :
    Prog.run LoOp.exec (.step (.childInc c order) k) l =
      if (l.children c).huge = false ∧ (l.children c).free + 2 ^ order ≤ 512 then
        Prog.run LoOp.exec (k true) (l.setChild c ⟨(l.children c).free + 2 ^ order, false⟩)
      else Prog.run LoOp.exec (k false) l := by
  rw [Prog.run_step]
  simp only [LoOp.exec_childInc, if_pos bound, Option.bind_some, childInc, childSize]
  by_cases room : (l.children c).huge = false ∧ (l.children c).free + 2 ^ order ≤ 512
  · have fits : ¬ ((l.children c).huge = true ∨ (l.children c).free + 2 ^ order > 512) := by
      rw [room.1]
      simpa using room.2
    rw [if_neg fits, if_pos room, room.1]
    rfl
  · have full : (l.children c).huge = true ∨ (l.children c).free + 2 ^ order > 512 := by
      by_contra fits
      rw [not_or, Bool.not_eq_true, not_lt] at fits
      exact room fits
    rw [if_pos full, if_neg room]
    rfl

theorem run_giveBack {c order : Nat} {k : Bool → LoProg α} (bound : c < l.entryCount)
    (small : (l.children c).huge = false) (le : (l.children c).free ≤ 512)
    (room : 2 ^ order ≤ (l.children c).free) :
    Prog.run LoOp.exec (.step (.childInc c order) k)
        (l.setChild c ⟨(l.children c).free - 2 ^ order, false⟩) =
      Prog.run LoOp.exec (k true) l := by
  have same : (l.setChild c ⟨(l.children c).free - 2 ^ order, false⟩).setChild c
      ⟨(l.children c).free - 2 ^ order + 2 ^ order, false⟩ = l := by
    have entry : (⟨(l.children c).free, false⟩ : Child) = l.children c := by rw [← small]
    simp only [Lower.setChild, Function.update_idem, Nat.sub_add_cancel room, entry,
      Function.update_eq_self]
  rw [run_childInc (show c < (l.setChild c _).entryCount from bound), setChild_self]
  rw [if_pos ⟨rfl, by simp only [Nat.sub_add_cancel room, le]⟩, same]

/-! ## Rows -/

theorem run_rowCas {r : Nat} {x y : Row} {k : Bool → LoProg α} (bound : r < l.rowCount) :
    Prog.run LoOp.exec (.step (.rowCas r x y) k) l =
      if l.rows r = x then Prog.run LoOp.exec (k true) (l.setRow r y)
      else Prog.run LoOp.exec (k false) l := by
  rw [Prog.run_step]
  simp only [LoOp.exec_rowCas, if_pos bound]
  split_ifs
  · rfl
  · rfl

def flipped (row mask : Row) (expected : Bool) : Row :=
  if expected then row &&& ~~~mask else row ||| mask

def pattern (mask : Row) (expected : Bool) : Row := if expected then mask else 0#64

theorem run_rowToggle {r : Nat} {mask : Row} {expected : Bool} {k : Bool → LoProg α}
    (bound : r < l.rowCount) :
    Prog.run LoOp.exec (.step (.rowToggle r mask expected) k) l =
      if l.rows r &&& mask = pattern mask expected then
        Prog.run LoOp.exec (k true) (l.setRow r (flipped (l.rows r) mask expected))
      else Prog.run LoOp.exec (k false) l := by
  rw [Prog.run_step]
  simp only [LoOp.exec_rowToggle, if_pos bound, Option.bind_some, rowToggle, pattern, flipped]
  cases expected with
  | true =>
    simp only [if_true]
    split_ifs
    · rfl
    · rfl
  | false =>
    simp only [Bool.false_eq_true, if_false]
    split_ifs
    · rfl
    · rfl

/-- A row is searched with success exactly when it has an aligned clear run, and the lowest one is
taken. -/
theorem run_rowZeros {r order : Nat} {k : Option Nat → LoProg α} (bound : r < l.rowCount)
    (small : order ≤ 6) :
    (∃ p, 2 ^ order ∣ p ∧ p + 2 ^ order ≤ 64 ∧ ClearRun (l.rows r) p (2 ^ order) ∧
        (∀ q, 2 ^ order ∣ q → q < p → ¬ ClearRun (l.rows r) q (2 ^ order)) ∧
        Prog.run LoOp.exec (.step (.rowZeros r order) k) l =
          Prog.run LoOp.exec (k (some p)) (l.setRow r (l.rows r ||| rowMask p order))) ∨
      (∀ p, 2 ^ order ∣ p → p + 2 ^ order ≤ 64 → ¬ ClearRun (l.rows r) p (2 ^ order)) ∧
        Prog.run LoOp.exec (.step (.rowZeros r order) k) l = Prog.run LoOp.exec (k none) l := by
  rw [Prog.run_step]
  rcases firstZerosAligned_spec (l.rows r) small with
    ⟨p, found, aligned, fits, clear, first⟩ | ⟨found, full⟩
  · left
    refine ⟨p, aligned, fits, clear, first, ?_⟩
    simp only [LoOp.exec_rowZeros, if_pos bound, found]
    rfl
  · right
    refine ⟨full, ?_⟩
    simp only [LoOp.exec_rowZeros, if_pos bound, found]
    rfl

end LLFree.Lower.Runs

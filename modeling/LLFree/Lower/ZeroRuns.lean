/- module: LLFree/Lower/ZeroRuns
   digest: The search for an aligned run of clear bits in one word is exact. -/

import LLFree.Code.Updates
import LLFree.Lower.Rows

set_option autoImplicit false
set_option relaxedAutoImplicit false

namespace LLFree.Lower.ZeroRuns

open LLFree.Code.Types LLFree.Code.Entries LLFree.Code.Updates LLFree.Lower.Rows

variable {v : Row} {order p : Nat}

private theorem rowMask_shift (order : Nat) (low : Row)
    (same : BitVec.allOnes 64 >>> (atomicSize - 2 ^ order) = low) (p : Nat) :
    rowMask p order = low <<< p := by
  rw [rowMask, same]

/-- Where there is no room the switch leaves the word alone, elsewhere it sets the run at `p`. -/
theorem firstZerosSwitch_eq (v : Row) (order : Nat) :
    firstZerosSwitch v order =
      (firstZerosPos v order).map fun p => (p, if p < 64 then v ||| rowMask p order else v) := by
  match order with
  | 0 =>
    simp only [rowMask_shift 0 1#64 (by decide)]
    rfl
  | 1 =>
    simp only [rowMask_shift 1 0b11#64 (by decide)]
    rfl
  | 2 =>
    simp only [rowMask_shift 2 0b1111#64 (by decide)]
    rfl
  | 3 =>
    simp only [rowMask_shift 3 0xff#64 (by decide)]
    rfl
  | 4 =>
    simp only [rowMask_shift 4 0xffff#64 (by decide)]
    rfl
  | 5 =>
    simp only [rowMask_shift 5 0xffffffff#64 (by decide), firstZerosSwitch,
      firstZerosPos, Option.map_some]
    by_cases low : v.setWidth 32 = 0#32
    · simp [low]
    · by_cases high : v >>> 32 = 0#64
      · simp [low, high]
      · simp [low, high]
  | 6 =>
    simp only [rowMask_shift 6 (BitVec.allOnes 64) (by decide), firstZerosSwitch,
      firstZerosPos, Option.map_some]
    by_cases zero : v = 0#64
    · simp [zero]
    · simp [zero]
  | _ + 7 => rfl

theorem firstZerosInto_eq (v : Row) (order pos : Nat) :
    firstZerosInto v order pos = (firstZerosAligned v order).map fun found =>
      match found with
      | some (p, new) => ⟨true, new, p⟩
      | none => ⟨false, v, pos⟩ := by
  rw [firstZerosInto, firstZerosSwitch_eq, firstZerosAligned, Option.map_map, Option.map_map]
  congr 1
  funext p
  dsimp only [Function.comp_apply]
  split_ifs <;> rfl

structure AlignedRun (v : Row) (order p : Nat) : Prop where
  aligned : 2 ^ order ∣ p
  fits : p + 2 ^ order ≤ 64
  clear : ClearRun v p (2 ^ order)

/-- `first_zeros_aligned` finds a run exactly when there is one. It sets the bits of the lowest one
and nothing else, and without a run it leaves the word alone. -/
theorem firstZeros_exact (v : Row) (small : order ≤ 6) (pos : Nat) :
    ∃ out, firstZerosInto v order pos = some out ∧
      (out.found = true ↔ ∃ p, AlignedRun v order p) ∧
      (out.found = true → AlignedRun v order out.pos ∧ (∀ p, AlignedRun v order p → out.pos ≤ p) ∧
        ∀ i < 64, out.v.getLsbD i =
          (v.getLsbD i || decide (out.pos ≤ i ∧ i < out.pos + 2 ^ order))) ∧
      (out.found = false → out.v = v ∧ out.pos = pos) := by
  rw [firstZerosInto_eq]
  rcases firstZerosAligned_spec v small
    with ⟨p, found, aligned, fits, clear, first⟩ | ⟨missed, none⟩
  · have run : AlignedRun v order p := ⟨aligned, fits, clear⟩
    rw [found]
    refine ⟨_, rfl, ⟨fun _ => ⟨p, run⟩, fun _ => rfl⟩,
      fun _ => ⟨run, fun q other => ?_, ?_⟩, by simp⟩
    · by_contra lower
      exact first q other.aligned (Nat.lt_of_not_le lower) other.clear
    · intro i inside
      rw [BitVec.getLsbD_or, getLsbD_rowMask small inside]
  · rw [missed]
    refine ⟨_, rfl, ⟨by simp, fun ⟨p, run⟩ => ?_⟩, by simp, fun _ => ⟨rfl, rfl⟩⟩
    exact absurd run.clear (none p run.aligned run.fits)

/-- The first byte of this word is clear, and the borrow raises a false hit in the second one. -/
theorem firstZeros_exact_borrow :
    ∃ out, firstZerosInto 0x0100#64 3 0 = some out ∧ out.found = true ∧ out.pos ≤ 0 := by
  have run : AlignedRun 0x0100#64 3 0 := ⟨by decide, by decide, by unfold ClearRun; decide⟩
  obtain ⟨out, done, exact, lowest, -⟩ := firstZeros_exact 0x0100#64 (show 3 ≤ 6 by decide) 0
  have found := exact.mpr ⟨0, run⟩
  exact ⟨out, done, found, (lowest found).2.1 0 run⟩

end LLFree.Lower.ZeroRuns

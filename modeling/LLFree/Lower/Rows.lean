/- module: LLFree/Lower/Rows
   digest: What the updates of one bitfield row find, set and clear. -/

import LLFree.Code.Entries

set_option autoImplicit false
set_option relaxedAutoImplicit false

namespace LLFree.Lower.Rows

open LLFree.Code.Types LLFree.Code.Entries LLFree.Words.Lanes

def ClearRun (v : Row) (p n : Nat) : Prop := ∀ i < n, v.getLsbD (p + i) = false

/-- `p` starts the lowest aligned run of `n` clear bits, or is 64 when there is none. -/
def FirstRun (v : Row) (n p : Nat) : Prop :=
  (n ∣ p ∧ p + n ≤ 64 ∧ ClearRun v p n ∧ ∀ q, n ∣ q → q < p → ¬ ClearRun v q n) ∨
    (p = 64 ∧ ∀ q, n ∣ q → q + n ≤ 64 → ¬ ClearRun v q n)

theorem getLsbD_rowMask {p o i : Nat} (small : o ≤ 6) (inside : i < 64) :
    (rowMask p o).getLsbD i = decide (p ≤ i ∧ i < p + 2 ^ o) := by
  have le : 2 ^ o ≤ 2 ^ 6 := Nat.pow_le_pow_right (by omega) small
  simp only [rowMask, BitVec.getLsbD_shiftLeft, BitVec.getLsbD_ushiftRight,
    BitVec.getLsbD_allOnes, atomicSize]
  by_cases low : i < p
  · have not_le : ¬ p ≤ i := by omega
    simp [low, not_le]
  · have ge : p ≤ i := by omega
    have same : 64 - 2 ^ o + (i - p) < 64 ↔ i < p + 2 ^ o := by omega
    simp [low, ge, inside, same]

structure IsRun (mask : Row) (p n : Nat) : Prop where
  fits : p + n ≤ 64
  bits : ∀ i < 64, mask.getLsbD i = decide (p ≤ i ∧ i < p + n)

theorem isRun_rowMask {p o : Nat} (small : o ≤ 6) (fits : p + 2 ^ o ≤ 64) :
    IsRun (rowMask p o) p (2 ^ o) :=
  ⟨fits, fun _ inside => getLsbD_rowMask small inside⟩

theorem isRun_allOnes : IsRun (BitVec.allOnes 64) 0 64 :=
  ⟨le_refl _, fun i inside => by
    rw [BitVec.getLsbD_allOnes]
    simp⟩

theorem IsRun.ones_eq {mask : Row} {p n : Nat} (run : IsRun mask p n) : ones mask = n :=
  ones_run run.fits run.bits

theorem IsRun.ones_set {mask v : Row} {p n : Nat} (run : IsRun mask p n)
    (clear : v &&& mask = 0#64) : ones (v ||| mask) = ones v + n := by
  rw [ones_or clear, run.ones_eq]

theorem IsRun.ones_clear {mask v : Row} {p n : Nat} (run : IsRun mask p n)
    (set : v &&& mask = mask) : ones (v &&& ~~~mask) + n = ones v := by
  have apart : (v &&& ~~~mask) &&& mask = 0#64 := by
    refine BitVec.eq_of_getLsbD_eq fun i inside => ?_
    simp [inside]
  have whole : (v &&& ~~~mask) ||| mask = v := by
    refine BitVec.eq_of_getLsbD_eq fun i inside => ?_
    have bit := congrArg (fun x => x.getLsbD i) set
    simp only [BitVec.getLsbD_and] at bit
    simp only [BitVec.getLsbD_or, BitVec.getLsbD_and, BitVec.getLsbD_not, inside, decide_true,
      Bool.true_and]
    cases hm : mask.getLsbD i <;> cases hv : v.getLsbD i <;> simp_all
  rw [← run.ones_set apart, whole]

theorem and_rowMask_eq_zero {v : Row} {p o : Nat} (small : o ≤ 6) (fits : p + 2 ^ o ≤ 64) :
    v &&& rowMask p o = 0#64 ↔ ClearRun v p (2 ^ o) := by
  constructor
  · intro zero i low
    have inside : p + i < 64 := by omega
    have bit := congrArg (fun x => x.getLsbD (p + i)) zero
    simpa [getLsbD_rowMask small inside, low] using bit
  · intro clear
    refine BitVec.eq_of_getLsbD_eq fun i inside => ?_
    rw [BitVec.getLsbD_and, getLsbD_rowMask small inside, BitVec.getLsbD_zero]
    by_cases within : p ≤ i ∧ i < p + 2 ^ o
    · have bit := clear (i - p) (by omega)
      rw [Nat.add_sub_cancel' within.1] at bit
      simp [bit]
    · simp [within]

theorem and_rowMask_eq_mask {v : Row} {p o : Nat} (small : o ≤ 6) (fits : p + 2 ^ o ≤ 64) :
    v &&& rowMask p o = rowMask p o ↔ ∀ i < 2 ^ o, v.getLsbD (p + i) = true := by
  constructor
  · intro same i low
    have inside : p + i < 64 := by omega
    have bit := congrArg (fun x => x.getLsbD (p + i)) same
    simpa [getLsbD_rowMask small inside, low] using bit
  · intro set
    refine BitVec.eq_of_getLsbD_eq fun i inside => ?_
    rw [BitVec.getLsbD_and, getLsbD_rowMask small inside]
    by_cases within : p ≤ i ∧ i < p + 2 ^ o
    · have bit := set (i - p) (by omega)
      rw [Nat.add_sub_cancel' within.1] at bit
      simp [bit, within]
    · simp [within]

/-! ## `first_zeros_aligned` -/

private theorem odd_bits :
    ∀ i < 64, (0xaaaaaaaaaaaaaaaa#64).getLsbD i = decide (i % 2 = 1) := by
  decide

private theorem firstRun_of_single (v : Row) : FirstRun v 1 (lowestSet (~~~v)) := by
  have run_iff : ∀ q < 64, (~~~v).getLsbD q = true ↔ ClearRun v q 1 := by
    intro q inside
    simp [ClearRun, inside]
  rcases lowestSet_spec (~~~v) with ⟨inside, hit, below⟩ | ⟨all, clear⟩
  · refine Or.inl ⟨Nat.one_dvd _, inside, (run_iff _ inside).mp hit, fun q _ low run => ?_⟩
    have bit := (run_iff q (by omega)).mpr run
    rw [below q low] at bit
    cases bit
  · refine Or.inr ⟨all, fun q _ fits run => ?_⟩
    have bit := (run_iff q (by omega)).mpr run
    rw [clear q (by omega)] at bit
    cases bit

private theorem firstRun_of_pair (v : Row) :
    FirstRun v 2 (lowestSet (~~~((v ||| (v >>> 1)) ||| 0xaaaaaaaaaaaaaaaa#64))) := by
  have run_iff : ∀ q < 64, (~~~((v ||| (v >>> 1)) ||| 0xaaaaaaaaaaaaaaaa#64)).getLsbD q = true ↔
      2 ∣ q ∧ ClearRun v q 2 := by
    intro q inside
    have even : 2 ∣ q ↔ ¬ q % 2 = 1 := by omega
    have two : ClearRun v q 2 ↔ v.getLsbD q = false ∧ v.getLsbD (1 + q) = false := by
      constructor
      · intro run
        exact ⟨run 0 (by omega), by simpa [Nat.add_comm] using run 1 (by omega)⟩
      · rintro ⟨zero, one⟩ i low
        obtain rfl | rfl : i = 0 ∨ i = 1 := by omega
        · exact zero
        · rwa [Nat.add_comm]
    rw [even, two, BitVec.getLsbD_not, BitVec.getLsbD_or, BitVec.getLsbD_or,
      BitVec.getLsbD_ushiftRight, odd_bits q inside]
    simp [inside]
    tauto
  rcases lowestSet_spec (~~~((v ||| (v >>> 1)) ||| 0xaaaaaaaaaaaaaaaa#64)) with
    ⟨inside, hit, below⟩ | ⟨all, clear⟩
  · obtain ⟨even, run⟩ := (run_iff _ inside).mp hit
    refine Or.inl ⟨even, by omega, run, fun q aligned low other => ?_⟩
    have bit := (run_iff q (by omega)).mpr ⟨aligned, other⟩
    rw [below q low] at bit
    cases bit
  · refine Or.inr ⟨all, fun q aligned fits other => ?_⟩
    have bit := (run_iff q (by omega)).mpr ⟨aligned, other⟩
    rw [clear q (by omega)] at bit
    cases bit

private theorem firstRun_of_lanes (W n : Nat) (mask v : Row) (width : 0 < W) (size : 64 = W * n)
    (repeated : mask.toNat = repunit W n) : FirstRun v W (lowestSet (zeroLanes W mask v)) := by
  have lane_of : ∀ q, W ∣ q → q + W ≤ 64 → ∃ j < n, q = W * j := by
    rintro q ⟨j, rfl⟩ fits
    refine ⟨j, ?_, rfl⟩
    have up : W * (j + 1) ≤ W * n := by
      rw [Nat.mul_succ, ← size]
      exact fits
    exact Nat.lt_of_succ_le (Nat.le_of_mul_le_mul_left up width)
  rcases lowestSet_zeroLanes mask v width size repeated with
    ⟨j, inside, clear, first, lowest⟩ | ⟨none, lowest⟩
  · have fits : W * j + W ≤ 64 := by
      have up : W * (j + 1) ≤ W * n := Nat.mul_le_mul_left W inside
      rw [Nat.mul_succ, ← size] at up
      exact up
    rw [lowest]
    refine Or.inl ⟨Nat.dvd_mul_right W j, fits, clear, fun q aligned low run => ?_⟩
    obtain ⟨i, rfl⟩ := aligned
    exact first i (Nat.lt_of_mul_lt_mul_left low) run
  · rw [lowest]
    refine Or.inr ⟨rfl, fun q aligned fits run => ?_⟩
    obtain ⟨j, inside, rfl⟩ := lane_of q aligned fits
    exact none j inside run

private theorem firstRun_of_half (v : Row) :
    FirstRun v 32 (if v.setWidth 32 = 0#32 then 0 else if v >>> 32 = 0#64 then 32 else 64) := by
  have low_iff : v.setWidth 32 = 0#32 ↔ ClearRun v 0 32 := by
    constructor
    · intro zero i low
      have bit := congrArg (fun x => x.getLsbD i) zero
      simpa [low] using bit
    · intro run
      refine BitVec.eq_of_getLsbD_eq fun i low => ?_
      simpa [low] using run i low
  have high_iff : v >>> 32 = 0#64 ↔ ClearRun v 32 32 := by
    constructor
    · intro zero i low
      have bit := congrArg (fun x => x.getLsbD i) zero
      simpa using bit
    · intro run
      refine BitVec.eq_of_getLsbD_eq fun i inside => ?_
      rw [BitVec.getLsbD_ushiftRight, BitVec.getLsbD_zero]
      by_cases low : i < 32
      · exact run i low
      · exact BitVec.getLsbD_of_ge v (32 + i) (by omega)
  have two : ∀ q, 32 ∣ q → q + 32 ≤ 64 → q = 0 ∨ q = 32 := by omega
  by_cases low : ClearRun v 0 32
  · rw [if_pos (low_iff.mpr low)]
    exact Or.inl ⟨by omega, by omega, low, fun q _ less => by omega⟩
  · rw [if_neg (low_iff.not.mpr low)]
    by_cases high : ClearRun v 32 32
    · rw [if_pos (high_iff.mpr high)]
      refine Or.inl ⟨by omega, by omega, high, fun q aligned less run => ?_⟩
      obtain rfl : q = 0 := by omega
      exact low run
    · rw [if_neg (high_iff.not.mpr high)]
      refine Or.inr ⟨rfl, fun q aligned fits run => ?_⟩
      rcases two q aligned fits with rfl | rfl
      · exact low run
      · exact high run

private theorem firstRun_of_word (v : Row) : FirstRun v 64 (if v = 0#64 then 0 else 64) := by
  have zero_iff : v = 0#64 ↔ ClearRun v 0 64 := by
    constructor
    · rintro rfl i _
      simp
    · intro run
      refine BitVec.eq_of_getLsbD_eq fun i inside => ?_
      simpa using run i inside
  by_cases zero : v = 0#64
  · rw [if_pos zero]
    exact Or.inl ⟨by omega, by omega, zero_iff.mp zero, fun q _ less => by omega⟩
  · rw [if_neg zero]
    refine Or.inr ⟨rfl, fun q aligned fits run => ?_⟩
    obtain rfl : q = 0 := by omega
    exact zero (zero_iff.mpr run)

/-- The position that `first_zeros_aligned` computes is exact for every order up to a row. -/
theorem firstZerosPos_spec (v : Row) {order : Nat} (small : order ≤ 6) :
    ∃ p, firstZerosPos v order = some p ∧ FirstRun v (2 ^ order) p := by
  match order, small with
  | 0, _ => exact ⟨_, rfl, firstRun_of_single v⟩
  | 1, _ => exact ⟨_, rfl, firstRun_of_pair v⟩
  | 2, _ => exact ⟨_, rfl, firstRun_of_lanes 4 16 _ v (by omega) rfl (by decide)⟩
  | 3, _ => exact ⟨_, rfl, firstRun_of_lanes 8 8 _ v (by omega) rfl (by decide)⟩
  | 4, _ => exact ⟨_, rfl, firstRun_of_lanes 16 4 _ v (by omega) rfl (by decide)⟩
  | 5, _ => exact ⟨_, rfl, firstRun_of_half v⟩
  | 6, _ => exact ⟨_, rfl, firstRun_of_word v⟩

/-- `first_zeros_aligned` sets the lowest aligned run of clear bits, and fails only when there
is none. -/
theorem firstZerosAligned_spec (v : Row) {order : Nat} (small : order ≤ 6) :
    (∃ p, firstZerosAligned v order = some (some (p, v ||| rowMask p order)) ∧
        2 ^ order ∣ p ∧ p + 2 ^ order ≤ 64 ∧ ClearRun v p (2 ^ order) ∧
        ∀ q, 2 ^ order ∣ q → q < p → ¬ ClearRun v q (2 ^ order)) ∨
      (firstZerosAligned v order = some none ∧
        ∀ q, 2 ^ order ∣ q → q + 2 ^ order ≤ 64 → ¬ ClearRun v q (2 ^ order)) := by
  have pos : 0 < 2 ^ order := Nat.two_pow_pos order
  obtain ⟨p, found, run⟩ := firstZerosPos_spec v small
  rcases run with ⟨aligned, fits, clear, first⟩ | ⟨rfl, none⟩
  · have inside : p < 64 := by omega
    exact Or.inl ⟨p, by simp [firstZerosAligned, found, inside], aligned, fits, clear, first⟩
  · exact Or.inr ⟨by simp [firstZerosAligned, found], none⟩

end LLFree.Lower.Rows

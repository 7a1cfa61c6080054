/- module: LLFree/Words/Lanes
   digest: Lowest set bits of machine words, and the borrow trick that finds a zero lane. -/

import Mathlib.Data.Nat.Bitwise
import Mathlib.Order.Interval.Finset.Nat
import Mathlib.Tactic.Ring

set_option autoImplicit false
set_option relaxedAutoImplicit false

namespace LLFree.Words.Lanes

variable {w : Nat}

/-- The position of the lowest set bit, or the width when there is none. -/
def lowestSet (v : BitVec w) : Nat := ((List.range w).find? (fun i => v.getLsbD i)).getD w

def ones (v : BitVec w) : Nat := (List.range w).countP (fun i => v.getLsbD i)

theorem lowestSet_eq {v : BitVec w} {p : Nat} (bound : p < w) (hit : v.getLsbD p = true)
    (below : ∀ i < p, v.getLsbD i = false) : lowestSet v = p := by
  have found : (List.range w).find? (fun i => v.getLsbD i) = some p := by
    rw [List.find?_range_eq_some]
    exact ⟨hit, List.mem_range.mpr bound, fun i low => by simp [below i low]⟩
  simp [lowestSet, found]

theorem lowestSet_none {v : BitVec w} (clear : ∀ i < w, v.getLsbD i = false) :
    lowestSet v = w := by
  have missing : (List.range w).find? (fun i => v.getLsbD i) = none := by
    rw [List.find?_range_eq_none]
    intro i low
    simp [clear i low]
  simp [lowestSet, missing]

theorem lowestSet_spec (v : BitVec w) :
    (lowestSet v < w ∧ v.getLsbD (lowestSet v) = true ∧
        ∀ i < lowestSet v, v.getLsbD i = false) ∨
      (lowestSet v = w ∧ ∀ i < w, v.getLsbD i = false) := by
  by_cases clear : ∀ i < w, v.getLsbD i = false
  · exact Or.inr ⟨lowestSet_none clear, clear⟩
  · have some_set : ∃ i, i < w ∧ v.getLsbD i = true := by
      simpa using clear
    have least := Nat.find_spec some_set
    have below : ∀ i < Nat.find some_set, v.getLsbD i = false := by
      intro i low
      have no := Nat.find_min some_set low
      have inside : i < w := low.trans least.1
      simpa [inside] using no
    rw [lowestSet_eq least.1 least.2 below]
    exact Or.inl ⟨least.1, least.2, below⟩

/-! ## Counting set bits -/

theorem ones_eq_card (v : BitVec w) :
    ones v = ((Finset.range w).filter (fun i => v.getLsbD i = true)).card := by
  have distinct : ((List.range w).filter (fun i => v.getLsbD i)).Nodup := List.nodup_range.filter _
  rw [ones, List.countP_eq_length_filter, ← List.toFinset_card_of_nodup distinct]
  congr 1
  ext i
  simp

theorem ones_le (v : BitVec w) : ones v ≤ w := by
  rw [ones_eq_card]
  exact (Finset.card_filter_le _ _).trans_eq (Finset.card_range w)

theorem ones_or {v m : BitVec w} (disjoint : v &&& m = 0#w) : ones (v ||| m) = ones v + ones m := by
  have apart : ∀ i, ¬ (v.getLsbD i = true ∧ m.getLsbD i = true) := by
    intro i both
    have bit := congrArg (fun x => x.getLsbD i) disjoint
    simp [both.1, both.2] at bit
  rw [ones_eq_card, ones_eq_card, ones_eq_card, ← Finset.card_union_of_disjoint]
  · congr 1
    ext i
    simp only [Finset.mem_filter, Finset.mem_union, BitVec.getLsbD_or, Bool.or_eq_true]
    tauto
  · rw [Finset.disjoint_filter]
    intro i _ hv hm
    exact apart i ⟨hv, hm⟩

theorem ones_run {v : BitVec w} {a n : Nat} (fits : a + n ≤ w)
    (bits : ∀ i < w, v.getLsbD i = decide (a ≤ i ∧ i < a + n)) : ones v = n := by
  have run : (Finset.range w).filter (fun i => v.getLsbD i = true) = Finset.Ico a (a + n) := by
    ext i
    simp only [Finset.mem_filter, Finset.mem_range, Finset.mem_Ico]
    constructor
    · rintro ⟨inside, bit⟩
      simpa [bits i inside] using bit
    · rintro ⟨low, high⟩
      have inside : i < w := high.trans_le fits
      exact ⟨inside, by simp [bits i inside, low, high]⟩
  rw [ones_eq_card, run, Nat.card_Ico]
  omega

theorem ones_eq_zero {v : BitVec w} : ones v = 0 ↔ v = 0#w := by
  constructor
  · intro none
    rw [ones_eq_card, Finset.card_eq_zero, Finset.filter_eq_empty_iff] at none
    refine BitVec.eq_of_getLsbD_eq fun i inside => ?_
    simpa using none (Finset.mem_range.mpr inside)
  · rintro rfl
    simp [ones]

/-! ## Lanes -/

def repunit (W : Nat) : Nat → Nat
  | 0 => 0
  | n + 1 => repunit W n + 2 ^ (W * n)

def lane (W V j : Nat) : Nat := V / 2 ^ (W * j) % 2 ^ W

private theorem pow_lane_succ (W n : Nat) : 2 ^ (W * (n + 1)) = 2 ^ (W * n) * 2 ^ W := by
  rw [Nat.mul_succ, Nat.pow_add]

theorem repunit_lt {W : Nat} (width : 0 < W) (n : Nat) : repunit W n < 2 ^ (W * n) := by
  induction n with
  | zero => simp [repunit]
  | succ n ih =>
    have two : 2 ≤ 2 ^ W := Nat.le_self_pow (by omega) 2
    have grow : 2 ^ (W * n) * 2 ≤ 2 ^ (W * n) * 2 ^ W := Nat.mul_le_mul_left _ two
    rw [repunit, pow_lane_succ]
    omega

/-- Below lane `j` the ones of the first `j` lanes remain, above it those of the others. -/
theorem repunit_split (W j k : Nat) :
    repunit W (j + k) = repunit W j + 2 ^ (W * j) * repunit W k := by
  induction k with
  | zero => simp [repunit]
  | succ k ih =>
    rw [← Nat.add_assoc, repunit, ih, repunit, Nat.mul_add W, Nat.pow_add]
    ring

theorem repunit_le_low {W V j : Nat} (low : ∀ i < j, lane W V i ≠ 0) :
    repunit W j ≤ V % 2 ^ (W * j) := by
  induction j with
  | zero => simp [repunit]
  | succ j ih =>
    have rest := ih (fun i below => low i (by omega))
    have here : 1 ≤ lane W V j := Nat.one_le_iff_ne_zero.mpr (low j (by omega))
    have step : 2 ^ (W * j) * 1 ≤ 2 ^ (W * j) * lane W V j := Nat.mul_le_mul_left _ here
    rw [pow_lane_succ, Nat.mod_mul, repunit]
    unfold lane at step
    omega

/-- After subtracting a one from every lane, the lowest lanes hold what a subtraction
without borrow leaves there, up to and including the first zero lane. -/
theorem lane_sub_repunit {W n j : Nat} (V : Nat) (width : 0 < W) (inside : j < n)
    (low : ∀ i < j, lane W V i ≠ 0) :
    lane W ((2 ^ (W * n) - repunit W n + V) % 2 ^ (W * n)) j =
      (lane W V j + (2 ^ W - 1)) % 2 ^ W := by
  obtain ⟨k, rfl⟩ : ∃ k, n = j + (k + 1) := ⟨n - j - 1, by omega⟩
  have split := repunit_split W j (k + 1)
  have top : repunit W (k + 1) = 1 + 2 ^ W * repunit W k := by
    have := repunit_split W 1 k
    simpa [repunit, Nat.add_comm] using this
  have less := repunit_lt width (k + 1)
  have paid := repunit_le_low low
  generalize hA : 2 ^ (W * j) = A at *
  have posA : 0 < A := by rw [← hA]; exact Nat.two_pow_pos _
  have whole : 2 ^ (W * (j + (k + 1))) = A * (2 ^ W * 2 ^ (W * k)) := by
    rw [← hA, Nat.mul_add, Nat.pow_add, Nat.mul_add, Nat.mul_one, Nat.pow_add]
    ring
  have part : 2 ^ (W * (k + 1)) = 2 ^ W * 2 ^ (W * k) := by
    rw [pow_lane_succ, Nat.mul_comm]
  rw [part] at less
  rw [whole, split]
  generalize hB : 2 ^ W * 2 ^ (W * k) = B at *
  have posW : 0 < 2 ^ W := Nat.two_pow_pos W
  -- the borrow-free form: low part, then the quotient by the lower lanes
  have shape : A * B - (repunit W j + A * repunit W (k + 1)) + V =
      A * (B - repunit W (k + 1) + V / A) + (V % A - repunit W j) := by
    have value := Nat.div_add_mod V A
    have up : A * repunit W (k + 1) + A ≤ A * B := by
      calc A * repunit W (k + 1) + A = A * (repunit W (k + 1) + 1) := by ring
        _ ≤ A * B := Nat.mul_le_mul_left _ less
    have rep : repunit W j < A := lt_of_le_of_lt paid (Nat.mod_lt _ posA)
    rw [Nat.mul_add, Nat.mul_sub]
    omega
  have small : V % A - repunit W j < A := lt_of_le_of_lt (Nat.sub_le _ _) (Nat.mod_lt _ posA)
  rw [shape, lane, hA, Nat.mod_mul, lane, hA]
  have quotient : (A * (B - repunit W (k + 1) + V / A) + (V % A - repunit W j)) / A =
      B - repunit W (k + 1) + V / A := by
    rw [Nat.mul_add_div posA, Nat.div_eq_of_lt small, Nat.add_zero]
  rw [quotient, Nat.add_mul_div_left _ _ posA, Nat.div_eq_of_lt (Nat.mod_lt _ posA), Nat.zero_add,
    ← hB, Nat.mod_mul_right_mod]
  have gap : 2 ^ W * 2 ^ (W * k) - repunit W (k + 1) =
      2 ^ W * (2 ^ (W * k) - repunit W k - 1) + (2 ^ W - 1) := by
    rw [top]
    have lessk := repunit_lt width k
    have up : 2 ^ W * (repunit W k + 1) ≤ 2 ^ W * 2 ^ (W * k) := Nat.mul_le_mul_left _ lessk
    rw [Nat.mul_sub, Nat.mul_sub, Nat.mul_one]
    rw [Nat.mul_add, Nat.mul_one] at up
    omega
  rw [gap, Nat.add_assoc, Nat.mul_add_mod, Nat.add_comm (2 ^ W - 1), Nat.mod_add_mod]

theorem lane_eq_zero_iff (W V j : Nat) :
    lane W V j = 0 ↔ ∀ i < W, V.testBit (W * j + i) = false := by
  constructor
  · intro zero i low
    have bit := congrArg (fun x => x.testBit i) zero
    simpa [lane, low, Nat.testBit_div_two_pow, Nat.add_comm] using bit
  · intro clear
    refine Nat.eq_of_testBit_eq fun i => ?_
    rw [lane, Nat.testBit_mod_two_pow, Nat.testBit_div_two_pow, Nat.zero_testBit]
    by_cases low : i < W
    · simpa [low, Nat.add_comm] using clear i low
    · simp [low]

private theorem testBit_repunit {W : Nat} (width : 0 < W) (n p : Nat) :
    (repunit W n).testBit p = decide (p % W = 0 ∧ p < W * n) := by
  induction n with
  | zero => simp [repunit]
  | succ n ih =>
    rw [repunit, Nat.add_comm, ← Nat.mul_one (2 ^ (W * n)),
      Nat.testBit_two_pow_mul_add 1 (repunit_lt width n), ih]
    by_cases low : p < W * n
    · have up : p < W * (n + 1) := lt_of_lt_of_le low (Nat.mul_le_mul_left W (Nat.le_succ n))
      simp [low, up]
    · simp only [low, if_false]
      have bit : Nat.testBit 1 (p - W * n) = decide (p - W * n = 0) := by
        cases p - W * n <;> simp [Nat.testBit_succ]
      rw [bit]
      congr 1
      apply propext
      constructor
      · intro same
        have exact : p = W * n := by omega
        subst exact
        exact ⟨Nat.mul_mod_right W n, Nat.mul_lt_mul_of_pos_left (Nat.lt_succ_self n) width⟩
      · rintro ⟨aligned, up⟩
        obtain ⟨q, rfl⟩ := Nat.dvd_of_mod_eq_zero aligned
        have q_lt : q < n + 1 := Nat.lt_of_mul_lt_mul_left up
        have q_ge : n ≤ q := Nat.le_of_mul_le_mul_left (Nat.le_of_not_lt low) width
        have exact : q = n := by omega
        subst exact
        exact Nat.sub_self _

private theorem testBit_top_sub {W d : Nat} (width : 0 < W) (bound : d < 2 ^ W) :
    (((d + (2 ^ W - 1)) % 2 ^ W).testBit (W - 1) && !d.testBit (W - 1)) = decide (d = 0) := by
  obtain ⟨u, rfl⟩ : ∃ u, W = u + 1 := ⟨W - 1, by omega⟩
  have twice : 2 ^ (u + 1) = 2 * 2 ^ u := by rw [Nat.pow_succ, Nat.mul_comm]
  have pos : 0 < 2 ^ u := Nat.two_pow_pos u
  have topBit : ∀ x < 2 ^ (u + 1), x.testBit u = decide (2 ^ u ≤ x) := by
    intro x small
    rw [Nat.testBit_eq_decide_div_mod_eq]
    congr 1
    apply propext
    constructor
    · intro odd
      by_contra less
      rw [Nat.div_eq_of_lt (by omega)] at odd
      omega
    · intro le
      have one : x / 2 ^ u = 1 := by
        apply Nat.div_eq_of_lt_le <;> omega
      rw [one]
  rw [Nat.add_sub_cancel, topBit _ (Nat.mod_lt _ (Nat.two_pow_pos _)), topBit d bound]
  by_cases zero : d = 0
  · subst zero
    rw [Nat.zero_add, Nat.mod_eq_of_lt (by omega)]
    have le : 2 ^ u ≤ 2 ^ (u + 1) - 1 := by omega
    have not_le : ¬ 2 ^ u ≤ 0 := by omega
    simp [le, not_le]
  · have wrap : (d + (2 ^ (u + 1) - 1)) % 2 ^ (u + 1) = d - 1 := by
      have eq : d + (2 ^ (u + 1) - 1) = d - 1 + 2 ^ (u + 1) := by omega
      rw [eq, Nat.add_mod_right, Nat.mod_eq_of_lt (by omega)]
    rw [wrap]
    by_cases le : 2 ^ u ≤ d
    · simp [le, zero]
    · have not_le : ¬ 2 ^ u ≤ d - 1 := by omega
      simp [le, not_le, zero]

/-- Subtract a one from every lane, keep the top bits that became set, and bring them to the
bottom of their lanes. Above the first zero lane a borrow may leave false hits. -/
def zeroLanes (W : Nat) (mask v : BitVec w) : BitVec w :=
  (((v - mask) &&& ~~~v) >>> (W - 1)) &&& mask

def ClearLane (W : Nat) (v : BitVec w) (j : Nat) : Prop := ∀ i < W, v.getLsbD (W * j + i) = false

private theorem getLsbD_zeroLanes {W n : Nat} {mask v : BitVec w} (width : 0 < W)
    (size : w = W * n) (repeated : mask.toNat = repunit W n) {j : Nat} (inside : j < n)
    (low : ∀ i < j, ¬ ClearLane W v i) :
    (zeroLanes W mask v).getLsbD (W * j) = true ↔ ClearLane W v j := by
  have fits : W * j + (W - 1) < w := by
    have up : W * (j + 1) ≤ W * n := Nat.mul_le_mul_left W inside
    rw [Nat.mul_succ] at up
    omega
  have clear_iff : ∀ i, ClearLane W v i ↔ lane W v.toNat i = 0 := fun i => by
    rw [lane_eq_zero_iff]
    rfl
  have shifted := lane_sub_repunit v.toNat width inside
    (fun i below => (clear_iff i).not.mp (low i below))
  have bit_of_lane : ∀ V, V.testBit (W * j + (W - 1)) = (lane W V j).testBit (W - 1) := by
    intro V
    have inLane : W - 1 < W := by omega
    simp [lane, inLane, Nat.testBit_div_two_pow, Nat.add_comm]
  have diff : (v - mask).getLsbD (W * j + (W - 1)) =
      ((lane W v.toNat j + (2 ^ W - 1)) % 2 ^ W).testBit (W - 1) := by
    have total : 2 ^ w = 2 ^ (W * n) := congrArg (2 ^ ·) size
    rw [← BitVec.testBit_toNat, BitVec.toNat_sub, repeated, total, bit_of_lane, shifted]
  have own : v.getLsbD (W * j + (W - 1)) = (lane W v.toNat j).testBit (W - 1) := by
    rw [← BitVec.testBit_toNat, bit_of_lane]
  have bottom : mask.getLsbD (W * j) = true := by
    rw [← BitVec.testBit_toNat, repeated, testBit_repunit width]
    simp [width, inside]
  have top := testBit_top_sub width (Nat.mod_lt (v.toNat / 2 ^ (W * j)) (Nat.two_pow_pos W))
  rw [clear_iff, ← @decide_eq_true_iff (lane W v.toNat j = 0)]
  change _ ↔ decide (v.toNat / 2 ^ (W * j) % 2 ^ W = 0) = true
  rw [← top]
  change _ ↔ (((lane W v.toNat j + (2 ^ W - 1)) % 2 ^ W).testBit (W - 1) &&
    !(lane W v.toNat j).testBit (W - 1)) = true
  rw [← diff, ← own]
  simp [zeroLanes, bottom, fits, Nat.add_comm]

/-- The lowest hit of the borrow trick is exact: it is the bottom of the first zero lane, and
there is no hit when no lane is zero. -/
theorem lowestSet_zeroLanes {W n : Nat} (mask v : BitVec w) (width : 0 < W) (size : w = W * n)
    (repeated : mask.toNat = repunit W n) :
    (∃ j < n, ClearLane W v j ∧ (∀ i < j, ¬ ClearLane W v i) ∧
        lowestSet (zeroLanes W mask v) = W * j) ∨
      ((∀ j < n, ¬ ClearLane W v j) ∧ lowestSet (zeroLanes W mask v) = w) := by
  have aligned : ∀ p < w, (zeroLanes W mask v).getLsbD p = true → ∃ j < n, p = W * j := by
    intro p bound hit
    have inMask : mask.getLsbD p = true := by
      simp only [zeroLanes, BitVec.getLsbD_and, Bool.and_eq_true] at hit
      exact hit.2
    rw [← BitVec.testBit_toNat, repeated, testBit_repunit width, decide_eq_true_iff] at inMask
    obtain ⟨j, rfl⟩ := Nat.dvd_of_mod_eq_zero inMask.1
    exact ⟨j, Nat.lt_of_mul_lt_mul_left inMask.2, rfl⟩
  by_cases some_clear : ∃ j, j < n ∧ ClearLane W v j
  · classical
    obtain ⟨inside, clear⟩ := Nat.find_spec some_clear
    have first : ∀ i < Nat.find some_clear, ¬ ClearLane W v i := fun i below clear_i =>
      Nat.find_min some_clear below ⟨below.trans inside, clear_i⟩
    have bound : W * Nat.find some_clear < w :=
      lt_of_lt_of_eq (Nat.mul_lt_mul_of_pos_left inside width) size.symm
    refine Or.inl ⟨_, inside, clear, first, lowestSet_eq bound
      ((getLsbD_zeroLanes width size repeated inside first).mpr clear) fun p below => ?_⟩
    by_contra hit
    obtain ⟨j, j_lt, rfl⟩ := aligned p (below.trans bound) (by simpa using hit)
    have lower : j < Nat.find some_clear := Nat.lt_of_mul_lt_mul_left below
    exact first j lower ((getLsbD_zeroLanes width size repeated j_lt
      (fun i low => first i (low.trans lower))).mp (by simpa using hit))
  · have none_clear : ∀ j < n, ¬ ClearLane W v j := fun j inside clear =>
      some_clear ⟨j, inside, clear⟩
    refine Or.inr ⟨none_clear, lowestSet_none fun p bound => ?_⟩
    by_contra hit
    obtain ⟨j, inside, rfl⟩ := aligned p bound (by simpa using hit)
    exact none_clear j inside ((getLsbD_zeroLanes width size repeated inside
      (fun i low => none_clear i (low.trans inside))).mp (by simpa using hit))

end LLFree.Words.Lanes

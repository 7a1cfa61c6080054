/- module: LLFree/Lower/Fields
   digest: Searching, setting and clearing runs of a bitfield while others work on it. -/

import LLFree.Lower.Steps

set_option autoImplicit false
set_option relaxedAutoImplicit false

namespace LLFree.Lower.Fields

open LLFree.Atomic.Program LLFree.Atomic.Escrow LLFree.Code.Types LLFree.Code.Entries
open LLFree.Code.Lower LLFree.Lower.Holding LLFree.Lower.Holding.Held LLFree.Lower.Steps

variable {N : Nat} {A : Prop} {C : Held → Prop} {m : Held}

/-- Part `b` of the run of `n` frames at `f` is set, the others are taken from child `c`. -/
def partSet (m : Held) (c f a b n : Nat) : Held := m + run (f + a) b + taken c (n - b)

theorem partSet_none (m : Held) (c f a n : Nat) : partSet m c f a 0 n = m + taken c n := by
  rw [partSet, run_zero, add_zero, Nat.sub_zero]

theorem partSet_all (m : Held) (c f n : Nat) : partSet m c f 0 n n = m + run f n := by
  rw [partSet, Nat.sub_self, taken_zero, add_zero, Nat.add_zero]

private theorem partSet_on (m : Held) (c f b n : Nat) (more : b + 64 ≤ n) :
    ∃ x, partSet m c f 0 b n = x + taken c 64 ∧
      partSet m c f 0 (b + 64) n = x + run (f + b) 64 := by
  refine ⟨m + run f b + taken c (n - (b + 64)), ?_, ?_⟩
  · have rest : n - b = n - (b + 64) + 64 := by omega
    rw [partSet, rest, taken_add, Nat.add_zero, add_assoc, add_assoc, add_assoc]
  · rw [partSet, run_add, Nat.add_zero]
    simp only [add_assoc, add_comm (run (f + b) 64)]

private theorem partSet_off (m : Held) (c f a b n : Nat) (le : b + 64 ≤ n) :
    ∃ x, partSet m c f a (b + 64) n = x + run (f + a) 64 ∧
      partSet m c f (a + 64) b n = x + taken c 64 := by
  refine ⟨m + run (f + a + 64) b + taken c (n - (b + 64)), ?_, ?_⟩
  · rw [partSet, Nat.add_comm b 64, run_add]
    simp only [add_assoc, add_comm (run (f + a) 64)]
  · have rest : n - b = n - (b + 64) + 64 := by omega
    rw [partSet, rest, taken_add, ← Nat.add_assoc]
    simp only [add_assoc]

variable {c base n : Nat}

private theorem safe_undo (bound : c < entriesOf N) {rest : Nat} (first : Nat)
    (fits : (first + rest) * 64 ≤ n) (small : n ≤ 512) (inside : base % 8 * 64 + n ≤ 512)
    (here : base / 8 = c)
    (cond : ∀ a b, a + b ≤ n → C (partSet m c (base * 64) a b n)) :
    (lowerAccounting N A).Safe C
      (Prog.each (List.range' first rest) fun j => do
        let undone ← rowCas (base + j) (BitVec.allOnes 64) 0#64
        Prog.assert (undone = true))
      (partSet m c (base * 64) (first * 64) (rest * 64) n)
      (fun _ x => x = m + taken c n) := by
  induction rest generalizing first with
  | zero =>
    rw [Nat.zero_mul, partSet_none]
    have held := cond 0 0 (by omega)
    rw [partSet_none] at held
    exact ⟨held, rfl⟩
  | succ rest ih =>
    have more : rest * 64 + 64 ≤ n := by omega
    have size : (rest + 1) * 64 = rest * 64 + 64 := by omega
    obtain ⟨x, before, after⟩ := partSet_off m c (base * 64) (first * 64) (rest * 64) n more
    have held := cond (first * 64) (rest * 64 + 64) (by omega)
    have row_eq : base * 64 + first * 64 = (base + first) * 64 := by omega
    rw [before, row_eq] at held
    rw [size, before, row_eq, List.range'_succ]
    refine safe_rowOff bound (by omega) held ?_
    have next := ih (first + 1) (by omega)
    have shift : (first + 1) * 64 = first * 64 + 64 := by omega
    rw [shift, after] at next
    exact next

private theorem safe_setEntries (bound : c < entriesOf N) {left : Nat} (i : Nat)
    (size : (i + left) * 64 = n) (inside : base % 8 * 64 + n ≤ 512) (here : base / 8 = c)
    (cond : ∀ a b, a + b ≤ n → C (partSet m c (base * 64) a b n)) :
    (lowerAccounting N A).Safe C (setEntries base i left)
      (partSet m c (base * 64) 0 (i * 64) n)
      (fun done x => if done then x = m + run (base * 64) n else x = m + taken c n) := by
  induction left generalizing i with
  | zero =>
    have all : i * 64 = n := by omega
    have held := cond 0 n (by omega)
    rw [all, partSet_all]
    rw [partSet_all] at held
    exact ⟨held, rfl⟩
  | succ left ih =>
    have more : i * 64 + 64 ≤ n := by omega
    obtain ⟨x, before, after⟩ := partSet_on m c (base * 64) (i * 64) n more
    have held := cond 0 (i * 64) (by omega)
    have row_eq : base * 64 + i * 64 = (base + i) * 64 := by omega
    rw [before] at held
    rw [before]
    refine safe_rowOn bound (by omega) held ?_ ?_
    · have next := ih (i + 1) (by omega)
      have shift : (i + 1) * 64 = i * 64 + 64 := by omega
      rw [shift, after, row_eq] at next
      exact next
    · have undo : (lowerAccounting N A).Safe C _ (partSet m c (base * 64) (0 * 64) (i * 64) n) _ :=
        safe_undo bound 0 (by omega) (by omega) inside here cond
      rw [Nat.zero_mul, before, ← List.range_eq_range'] at undo
      change (lowerAccounting N A).Safe C (Prog.each (List.range i) _ >>= fun _ => .ret false) _ _
      refine Accounting.safe_bind (Accounting.safe_ends undo) ?_
      rintro _ y ⟨rfl, rest⟩
      exact ⟨rest, rfl⟩

/-! ## `field_set_next` -/

/-- A candidate block of order `order` in child `c`, partly set: what a search may hold. -/
def SearchMid (m : Held) (c order : Nat) (x : Held) : Prop :=
  ∃ f a b, 2 ^ order ∣ f ∧ f + 2 ^ order ≤ 512 ∧ a + b ≤ 2 ^ order ∧
    x = partSet m c (c * 512 + f) a b (2 ^ order)

private theorem searchMid_taken {order : Nat} (small : order ≤ 9) :
    SearchMid m c order (m + taken c (2 ^ order)) := by
  have le : 2 ^ order ≤ 2 ^ 9 := Nat.pow_le_pow_right (by omega) small
  exact ⟨0, 0, 0, Nat.dvd_zero _, by omega, Nat.zero_le _, (partSet_none ..).symm⟩

theorem mem_forOffsetted {start len i : Nat} (pos : 0 < len)
    (member : i ∈ forOffsetted start len) : i / len = start / len := by
  simp only [forOffsetted, List.mem_map, List.mem_range] at member
  obtain ⟨j, -, rfl⟩ := member
  have less := Nat.mod_lt (j + start % len) pos
  have base : start - start % len = start / len * len := by
    have split := Nat.div_add_mod start len
    rw [Nat.mul_comm] at split
    omega
  rw [base, Nat.mul_comm, Nat.mul_add_div pos, Nat.div_eq_of_lt less, Nat.add_zero]

/-- `field_set_next` turns the taken frames into a block of set bits, or keeps them taken. -/
theorem safe_fieldSetNext {order startFrame : Nat} (bound : c < entriesOf N) (small : order ≤ 8)
    (cond : ∀ x, SearchMid m c order x → C x) :
    (lowerAccounting N A).Safe C (fieldSetNext c startFrame order) (m + taken c (2 ^ order))
      (fun r x => (∃ f, 2 ^ order ∣ f ∧ f + 2 ^ order ≤ 512 ∧ r = llfreeOk f 0 ∧
          x = m + run (c * 512 + f) (2 ^ order)) ∨
        (r = llfreeErr .memory ∧ x = m + taken c (2 ^ order))) := by
  have le : 2 ^ order ≤ 2 ^ 8 := Nat.pow_le_pow_right (by omega) small
  have start := cond _ (searchMid_taken (m := m) (c := c) (show order ≤ 9 by omega))
  simp only [fieldSetNext, childSize, atomicSize, fieldN]
  refine Accounting.safe_assert (by omega) ?_
  by_cases one_row : 2 ^ order ≤ 64
  · rw [if_pos one_row]
    have tiny : order ≤ 6 := by
      by_contra big
      have ge : 2 ^ 7 ≤ 2 ^ order := Nat.pow_le_pow_right (by omega) (by omega)
      omega
    refine Accounting.safe_search start (Or.inr ⟨rfl, rfl⟩) fun i member => ?_
    have row := mem_forOffsetted (by omega) member
    have here : (c * 8 + i) / 8 = c := by omega
    refine safe_rowZeros bound here tiny start (fun p aligned fits => ?_) ⟨start, rfl⟩
    have pos_eq : (c * 8 + i) * 64 + p = c * 512 + (i * 64 + p) := by omega
    have unit : 2 ^ order ∣ i * 64 :=
      Dvd.dvd.mul_left (Nat.pow_dvd_pow 2 (show order ≤ 6 by omega)) i
    have aligned' : 2 ^ order ∣ i * 64 + p := Nat.dvd_add unit aligned
    have fits' : i * 64 + p + 2 ^ order ≤ 512 := by omega
    rw [pos_eq]
    refine ⟨cond _ ⟨i * 64 + p, 0, 2 ^ order, aligned', fits', by omega, ?_⟩,
      Or.inl ⟨i * 64 + p, aligned', fits', rfl, rfl⟩⟩
    rw [partSet_all]
  · rw [if_neg one_row]
    obtain ⟨e, kind, size⟩ : ∃ e, (e = 2 ∨ e = 4) ∧ e * 64 = 2 ^ order := by
      obtain rfl | rfl : order = 7 ∨ order = 8 := by
        by_contra other
        have tiny : 2 ^ order ≤ 2 ^ 6 := Nat.pow_le_pow_right (by omega) (by omega)
        omega
      · exact ⟨2, by omega, rfl⟩
      · exact ⟨4, by omega, rfl⟩
    have entries : 2 ^ order / 64 = e := by omega
    rw [entries]
    refine Accounting.safe_search start (Or.inr ⟨rfl, rfl⟩) fun i member => ?_
    have row : i * e + e ≤ 8 := by
      rcases kind with rfl | rfl
      · have range := mem_forOffsetted (by omega) member
        omega
      · have range := mem_forOffsetted (by omega) member
        omega
    generalize base_eq : i * e = b at *
    have frame_eq : (c * 8 + b) * 64 = c * 512 + b * 64 := by omega
    have aligned : 2 ^ order ∣ b * 64 := by
      rw [← size, ← base_eq, Nat.mul_assoc]
      exact Nat.dvd_mul_left (e * 64) i
    have fits : b * 64 + 2 ^ order ≤ 512 := by omega
    have set : (lowerAccounting N A).Safe C (setEntries (c * 8 + b) 0 e)
        (partSet m c ((c * 8 + b) * 64) 0 (0 * 64) (2 ^ order)) _ :=
      safe_setEntries bound 0 (by omega) (by omega) (by omega) fun a n le =>
        cond _ ⟨b * 64, a, n, aligned, fits, le, by rw [frame_eq]⟩
    rw [Nat.zero_mul, partSet_none, frame_eq] at set
    refine Accounting.safe_bind (Accounting.safe_ends set) ?_
    rintro done y ⟨result, held⟩
    cases done with
    | true => exact ⟨held, Or.inl ⟨b * 64, aligned, fits, rfl, result⟩⟩
    | false => exact ⟨held, result⟩

/-! ## `field_toggle` -/

-- A multi-row toggle sets all rows, or fails at the first one. Its undo never succeeds, so a later
-- failure ends in a failed assertion.
private theorem safe_toggleEntries_on (bound : c < entriesOf N) {left : Nat} (i : Nat)
    (abort : A) (size : (i + left) * 64 = n) (inside : base % 8 * 64 + n ≤ 512)
    (here : base / 8 = c) (cond : ∀ a b, a + b ≤ n → C (partSet m c (base * 64) a b n)) :
    (lowerAccounting N A).Safe C (toggleEntries base 0#64 i left)
      (partSet m c (base * 64) 0 (i * 64) n)
      (fun r x => (r = llfreeErr .ok ∧ x = m + run (base * 64) n) ∨
        (r = llfreeErr .memory ∧ x = m + taken c n)) := by
  induction left generalizing i with
  | zero =>
    have all : i * 64 = n := by omega
    have held := cond 0 n (by omega)
    rw [all, partSet_all]
    rw [partSet_all] at held
    exact ⟨held, Or.inl ⟨rfl, rfl⟩⟩
  | succ left ih =>
    have more : i * 64 + 64 ≤ n := by omega
    obtain ⟨x, before, after⟩ := partSet_on m c (base * 64) (i * 64) n more
    have held := cond 0 (i * 64) (by omega)
    have row_eq : base * 64 + i * 64 = (base + i) * 64 := by omega
    rw [before] at held
    rw [before]
    refine safe_rowOn bound (by omega) held ?_ ?_
    · have next := ih (i + 1) (by omega)
      have shift : (i + 1) * 64 = i * 64 + 64 := by omega
      rw [shift, after, row_eq] at next
      exact next
    · cases i with
      | zero =>
        rw [Nat.zero_mul, partSet_none] at before
        exact ⟨held, Or.inr ⟨rfl, before.symm⟩⟩
      | succ i =>
        have le : i * 64 + 64 ≤ n := by omega
        obtain ⟨y, -, last⟩ := partSet_on m c (base * 64) (i * 64) n le
        have shift : (i + 1) * 64 = i * 64 + 64 := by omega
        have row_eq' : base * 64 + i * 64 = (base + i) * 64 := by omega
        have same : x + taken c 64 = y + run ((base + i) * 64) 64 := by
          rw [← before, shift, last, row_eq']
        rw [same] at held ⊢
        change (lowerAccounting N A).Safe C
          (Prog.each (List.range (i + 1)) _ >>= fun _ => .ret (llfreeErr .memory)) _ _
        rw [List.range_succ_eq_map]
        exact safe_rowRefuse bound (show (base + i) / 8 = c by omega) held abort

private theorem safe_toggleEntries_off (bound : c < entriesOf N) {left : Nat} (i : Nat)
    (size : (i + left) * 64 = n) (inside : base % 8 * 64 + n ≤ 512)
    (here : base / 8 = c) (cond : ∀ a b, a + b ≤ n → C (partSet m c (base * 64) a b n)) :
    (lowerAccounting N A).Safe C (toggleEntries base (BitVec.allOnes 64) i left)
      (partSet m c (base * 64) (i * 64) (left * 64) n)
      (fun r x => r = llfreeErr .ok ∧ x = m + taken c n) := by
  induction left generalizing i with
  | zero =>
    have held := cond 0 0 (by omega)
    rw [partSet_none] at held
    rw [Nat.zero_mul, partSet_none]
    exact ⟨held, rfl, rfl⟩
  | succ left ih =>
    have more : left * 64 + 64 ≤ n := by omega
    have size' : (left + 1) * 64 = left * 64 + 64 := by omega
    obtain ⟨x, before, after⟩ := partSet_off m c (base * 64) (i * 64) (left * 64) n more
    have held := cond (i * 64) (left * 64 + 64) (by omega)
    have row_eq : base * 64 + i * 64 = (base + i) * 64 := by omega
    have flip : ~~~BitVec.allOnes 64 = 0#64 := by decide
    rw [before, row_eq] at held
    rw [size', before, row_eq, toggleEntries, flip]
    refine safe_rowOff bound (by omega) held ?_
    have next := ih (i + 1) (by omega)
    have shift : (i + 1) * 64 = i * 64 + 64 := by omega
    rw [shift, after] at next
    exact next

private theorem safe_toggleEntries_split (real : c < childrenOf N) {left : Nat} (i : Nat)
    (size : i + left = 8) (cond : ∀ j ≤ 8, C (m + whole c j)) :
    (lowerAccounting N A).Safe C (toggleEntries (c * 8) 0#64 i left) (m + whole c i)
      (fun r x => r = llfreeErr .ok ∧ x = m + whole c 8) := by
  induction left generalizing i with
  | zero =>
    obtain rfl : i = 8 := by omega
    exact ⟨cond 8 (by omega), rfl, rfl⟩
  | succ left ih =>
    refine safe_rowSplit real (by omega) (cond i (by omega)) ?_
    exact ih (i + 1) (by omega)

theorem rows_of_order {order : Nat} (big : 64 < 2 ^ order) :
    2 ^ order / 64 * 64 = 2 ^ order := by
  have ge : 6 ≤ order := by
    by_contra less
    have le : 2 ^ order ≤ 2 ^ 6 := Nat.pow_le_pow_right (by omega) (by omega)
    omega
  exact Nat.div_mul_cancel (Nat.pow_dvd_pow 2 ge)

theorem row_of_index {index order : Nat} (aligned : 2 ^ order ∣ index) :
    (64 < 2 ^ order → index % 64 = 0) ∧ (2 ^ order ≤ 64 → index % 64 + 2 ^ order ≤ 64) := by
  constructor
  · intro big
    have unit : 64 ∣ 2 ^ order := ⟨2 ^ order / 64, by rw [Nat.mul_comm, rows_of_order big]⟩
    exact Nat.mod_eq_zero_of_dvd (unit.trans aligned)
  · intro le
    have small : order ≤ 6 := by
      by_contra big
      have ge : 2 ^ 7 ≤ 2 ^ order := Nat.pow_le_pow_right (by omega) (by omega)
      omega
    have unit : 2 ^ order ∣ 64 := Nat.pow_dvd_pow 2 small
    have rest : 2 ^ order ∣ index % 64 := (Nat.dvd_mod_iff unit).mpr aligned
    obtain ⟨a, ha⟩ := rest
    obtain ⟨b, hb⟩ := unit
    have less : index % 64 < 64 := Nat.mod_lt _ (by omega)
    rw [ha, hb] at less
    have le_ab : a + 1 ≤ b := Nat.lt_of_mul_lt_mul_left less
    calc index % 64 + 2 ^ order = 2 ^ order * (a + 1) := by rw [ha, Nat.mul_succ]
      _ ≤ 2 ^ order * b := Nat.mul_le_mul_left _ le_ab
      _ = 64 := hb.symm

/-- Setting a given block of a child. Blocks of several rows may end in a failed assertion. -/
theorem safe_toggle_on {index order : Nat} (bound : c < entriesOf N) (small : order ≤ 6 ∨ A)
    (aligned : 2 ^ order ∣ index) (fits : index + 2 ^ order ≤ 512)
    (cond : ∀ a b, a + b ≤ 2 ^ order → C (partSet m c (c * 512 + index) a b (2 ^ order))) :
    (lowerAccounting N A).Safe C (fieldToggle c index order false) (m + taken c (2 ^ order))
      (fun r x => (r = llfreeErr .ok ∧ x = m + run (c * 512 + index) (2 ^ order)) ∨
        (r = llfreeErr .memory ∧ x = m + taken c (2 ^ order))) := by
  have pos : 0 < 2 ^ order := Nat.two_pow_pos order
  have none := cond 0 0 (Nat.zero_le _)
  rw [partSet_none] at none
  have all := cond 0 (2 ^ order) (by omega)
  rw [partSet_all] at all
  obtain ⟨row_start, row_inside⟩ := row_of_index aligned
  simp only [fieldToggle, childSize, atomicSize, fieldN]
  refine Accounting.safe_assert (by omega) ?_
  by_cases big : 2 ^ order > 64
  · have abort : A := by
      refine small.resolve_left fun le => ?_
      have le' : 2 ^ order ≤ 2 ^ 6 := Nat.pow_le_pow_right (by omega) le
      omega
    have start := row_start big
    have frame_eq : (c * 8 + index / 64) * 64 = c * 512 + index := by omega
    rw [if_pos big]
    have toggle : (lowerAccounting N A).Safe C
        (toggleEntries (c * 8 + index / 64) 0#64 0 (2 ^ order / 64))
        (partSet m c ((c * 8 + index / 64) * 64) 0 (0 * 64) (2 ^ order)) _ :=
      safe_toggleEntries_on bound 0 abort (by rw [Nat.zero_add]; exact rows_of_order big)
        (by omega) (by omega) (by rwa [frame_eq])
    rw [Nat.zero_mul, partSet_none, frame_eq] at toggle
    exact toggle
  · have inside := row_inside (by omega)
    have tiny : order ≤ 6 := by
      by_contra more
      have ge : 2 ^ 7 ≤ 2 ^ order := Nat.pow_le_pow_right (by omega) (by omega)
      omega
    have frame_eq : (c * 8 + index / 64) * 64 + index % 64 = c * 512 + index := by omega
    rw [if_neg big]
    refine safe_toggleOn bound (by omega) tiny inside none ?_ ?_
    · rw [frame_eq]
      exact ⟨all, Or.inl ⟨rfl, rfl⟩⟩
    · exact ⟨none, Or.inr ⟨rfl, rfl⟩⟩

theorem safe_toggle_off {index order : Nat} (bound : c < entriesOf N)
    (aligned : 2 ^ order ∣ index) (fits : index + 2 ^ order ≤ 512)
    (cond : ∀ a b, a + b ≤ 2 ^ order → C (partSet m c (c * 512 + index) a b (2 ^ order))) :
    (lowerAccounting N A).Safe C (fieldToggle c index order true)
      (m + run (c * 512 + index) (2 ^ order))
      (fun r x => r = llfreeErr .ok ∧ x = m + taken c (2 ^ order)) := by
  have pos : 0 < 2 ^ order := Nat.two_pow_pos order
  have none := cond 0 0 (Nat.zero_le _)
  rw [partSet_none] at none
  have all := cond 0 (2 ^ order) (by omega)
  rw [partSet_all] at all
  obtain ⟨row_start, row_inside⟩ := row_of_index aligned
  simp only [fieldToggle, childSize, atomicSize, fieldN]
  refine Accounting.safe_assert (by omega) ?_
  by_cases big : 2 ^ order > 64
  · have start := row_start big
    have frame_eq : (c * 8 + index / 64) * 64 = c * 512 + index := by omega
    rw [if_pos big]
    have toggle : (lowerAccounting N A).Safe C
        (toggleEntries (c * 8 + index / 64) (BitVec.allOnes 64) 0 (2 ^ order / 64))
        (partSet m c ((c * 8 + index / 64) * 64) (0 * 64) (2 ^ order / 64 * 64) (2 ^ order)) _ :=
      safe_toggleEntries_off bound 0 (by rw [Nat.zero_add]; exact rows_of_order big)
        (by omega) (by omega) (by rwa [frame_eq])
    rw [Nat.zero_mul, rows_of_order big, partSet_all, frame_eq] at toggle
    exact toggle
  · have inside := row_inside (by omega)
    have tiny : order ≤ 6 := by
      by_contra more
      have ge : 2 ^ 7 ≤ 2 ^ order := Nat.pow_le_pow_right (by omega) (by omega)
      omega
    have frame_eq : (c * 8 + index / 64) * 64 + index % 64 = c * 512 + index := by omega
    rw [if_neg big]
    rw [← frame_eq] at all ⊢
    exact safe_toggleOff bound (by omega) tiny inside all ⟨none, rfl, rfl⟩

theorem safe_splitHuge (real : c < childrenOf N) (cond : ∀ j ≤ 8, C (m + whole c j))
    (done : C (m + run (c * 512) 512)) :
    (lowerAccounting N A).Safe C (splitHuge ⟨0, true⟩ c) (m + whole c 0)
      (fun r x => r = llfreeErr .ok ∧ x = m + run (c * 512) 512) := by
  have toggle : (lowerAccounting N A).Safe C (fieldToggle c 0 childOrder false) (m + whole c 0)
      (fun r x => r = llfreeErr .ok ∧ x = m + whole c 8) := by
    simp only [fieldToggle, childSize, atomicSize, fieldN, childOrder]
    refine Accounting.safe_assert (by omega) ?_
    rw [if_pos (by omega)]
    exact safe_toggleEntries_split real 0 (by omega) cond
  refine Accounting.safe_bind toggle ?_
  rintro r x ⟨rfl, rfl⟩
  refine safe_splitDone real (cond 8 (by omega)) ?_
  exact ⟨done, rfl, rfl⟩

end LLFree.Lower.Fields

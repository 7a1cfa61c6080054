/- module: LLFree/Lower/NextFit
   digest: A search of a bitfield takes the first block with room, in cyclic order from its
   start. -/

import LLFree.Lower.Rollback

set_option autoImplicit false
set_option relaxedAutoImplicit false

namespace LLFree.Lower.NextFit

open LLFree.Atomic.Program LLFree.Code.Types LLFree.Code.Entries LLFree.Code.Lower
open LLFree.Lower.Rows LLFree.Lower.Fields LLFree.Lower.Runs LLFree.Lower.Rollback

variable {l : Lower} {start len i k c order : Nat}

/-! ## Cyclic order -/

/-- How many steps it takes from `start` on to come to `i`, in the cyclic order of `len` places. -/
def turn (start len i : Nat) : Nat := (i % len + (len - start % len)) % len

theorem turn_lt (start i : Nat) (pos : 0 < len) : turn start len i < len := Nat.mod_lt _ pos

theorem turn_mod (start len i : Nat) : turn (start % len) len i = turn start len i := by
  rw [turn, turn, Nat.mod_mod]

private theorem base_eq (start len : Nat) : start - start % len = len * (start / len) := by
  have split := Nat.div_add_mod start len
  omega

theorem forOffsetted_turn (pos : 0 < len) (same : i / len = start / len) :
    (forOffsetted start len)[turn start len i]? = some i := by
  have place := Nat.div_add_mod i len
  have less : i % len < len := Nat.mod_lt i pos
  have offset : start % len < len := Nat.mod_lt start pos
  have back : (turn start len i + start % len) % len = i % len := by
    rw [turn, Nat.mod_add_mod,
      show i % len + (len - start % len) + start % len = i % len + len by omega,
      Nat.add_mod_right, Nat.mod_mod]
  rw [forOffsetted, List.getElem?_map, List.getElem?_range (turn_lt start i pos), Option.map_some,
    back, base_eq, ← same, place]

theorem turn_of_forOffsetted (pos : 0 < len) (here : (forOffsetted start len)[k]? = some i) :
    i / len = start / len ∧ turn start len i = k := by
  have same := mem_forOffsetted pos (List.mem_of_getElem? here)
  refine ⟨same, ?_⟩
  rw [forOffsetted, List.getElem?_map, Option.map_eq_some_iff] at here
  obtain ⟨j, step, rfl⟩ := here
  obtain ⟨less, rfl⟩ := List.getElem?_eq_some_iff.mp step
  rw [List.length_range] at less
  have offset : start % len < len := Nat.mod_lt start pos
  rw [List.getElem_range, turn, base_eq, Nat.mul_add_mod, Nat.mod_mod, Nat.mod_add_mod,
    show k + start % len + (len - start % len) = k + len by omega, Nat.add_mod_right,
    Nat.mod_eq_of_lt less]

theorem turn_inj {j : Nat} (pos : 0 < len) (same : i / len = start / len)
    (other : j / len = start / len) (equal : turn start len i = turn start len j) : i = j := by
  have here := forOffsetted_turn pos same
  rw [equal, forOffsetted_turn pos other] at here
  exact (Option.some.inj here).symm

theorem mem_forOffsetted_of (pos : 0 < len) (same : i / len = start / len) :
    i ∈ forOffsetted start len :=
  List.mem_of_getElem? (forOffsetted_turn pos same)

/-- A search of a group of places takes the first one, in cyclic order from its start, that yields a
value, and fails only when none does. -/
theorem run_forOffsetted {f : Nat → LoProg (Option Result)} (pos : 0 < len) (A : Nat → Prop)
    (Q : Nat → Result → Lower → Prop)
    (settled : ∀ i, i / len = start / len →
      (Prog.run LoOp.exec (f i) l = some (none, l) ∧ A i) ∨
        ∃ a l', Prog.run LoOp.exec (f i) l = some (some a, l') ∧ Q i a l') :
    (Prog.run LoOp.exec (Prog.firstSome (forOffsetted start len) f >>= fun found =>
          pure (found.getD (llfreeErr .memory))) l = some (llfreeErr .memory, l) ∧
        ∀ i, i / len = start / len → A i) ∨
      ∃ i a l', i / len = start / len ∧
        (∀ j, j / len = start / len → turn start len j < turn start len i → A j) ∧
        Prog.run LoOp.exec (Prog.firstSome (forOffsetted start len) f >>= fun found =>
          pure (found.getD (llfreeErr .memory))) l = some (a, l') ∧ Q i a l' := by
  rcases Prog.run_firstSome_first A Q (forOffsetted start len)
      (fun i member => settled i (mem_forOffsetted pos member)) with
    ⟨miss, all⟩ | ⟨k, i, a, l', here, before, hit, good⟩
  · left
    refine ⟨by rw [Prog.run_bind_some miss]; rfl, ?_⟩
    intro i same
    exact all i (mem_forOffsetted_of pos same)
  · right
    obtain ⟨same, rfl⟩ := turn_of_forOffsetted pos here
    refine ⟨i, a, l', same, ?_, by rw [Prog.run_bind_some hit]; rfl, good⟩
    intro j other less
    exact before _ less j (forOffsetted_turn pos other)

/-! ## The rows of a group -/

private theorem run_unset {base n : Nat} (j : Nat) (bound : base + j + n ≤ l.rowCount)
    (clear : ∀ r < n, l.rows (base + j + r) = 0#64) :
    Prog.run LoOp.exec
        (Prog.each (List.range' j n) fun j => do
          let undone ← rowCas (base + j) (BitVec.allOnes 64) 0#64
          Prog.assert (undone = true))
        (setRows l (base + j) n (BitVec.allOnes 64)) = some ((), l) := by
  induction n generalizing j with
  | zero =>
    rw [setRows_zero]
    rfl
  | succ n ih =>
    have first : (setRows l (base + j) (n + 1) (BitVec.allOnes 64)).rows (base + j) =
        BitVec.allOnes 64 := if_pos ⟨le_refl _, by omega⟩
    have inside : base + j < (setRows l (base + j) (n + 1) (BitVec.allOnes 64)).rowCount :=
      show base + j < l.rowCount by omega
    have rest : (setRows l (base + j) (n + 1) (BitVec.allOnes 64)).setRow (base + j) 0#64 =
        setRows l (base + (j + 1)) n (BitVec.allOnes 64) := by
      simp only [setRows, Lower.setRow]
      congr 1
      funext r
      by_cases here : r = base + j
      · subst here
        rw [Function.update_self, if_neg (by omega)]
        exact (clear 0 (Nat.succ_pos n)).symm
      · rw [Function.update_of_ne here]
        have same : (base + j ≤ r ∧ r < base + j + (n + 1)) ↔
            (base + (j + 1) ≤ r ∧ r < base + (j + 1) + n) := by omega
        simp only [same]
    rw [List.range'_succ, Prog.each]
    simp only [rowCas, Prog.step_bind, Prog.ret_bind]
    rw [run_rowCas inside, if_pos first, Prog.assert_bind rfl, rest]
    apply ih (j + 1) (by omega)
    intro r less
    rw [show base + (j + 1) + r = base + j + (r + 1) by omega]
    exact clear (r + 1) (by omega)

private theorem run_setEntries_from {base left : Nat} (i : Nat)
    (bound : base + i + left ≤ l.rowCount) (clear : ∀ r < i, l.rows (base + r) = 0#64) :
    Prog.run LoOp.exec (setEntries base i left) (setRows l base i (BitVec.allOnes 64)) =
      if ∀ r < i + left, l.rows (base + r) = 0#64 then
        some (true, setRows l base (i + left) (BitVec.allOnes 64))
      else some (false, l) := by
  induction left generalizing i with
  | zero =>
    rw [Nat.add_zero, if_pos clear]
    rfl
  | succ left ih =>
    have inside : base + i < (setRows l base i (BitVec.allOnes 64)).rowCount :=
      show base + i < l.rowCount by omega
    have next : (setRows l base i (BitVec.allOnes 64)).rows (base + i) = l.rows (base + i) :=
      if_neg (by omega)
    simp only [setEntries, rowCas, Prog.step_bind, Prog.ret_bind]
    rw [run_rowCas inside, next]
    by_cases zero : l.rows (base + i) = 0#64
    · rw [if_pos zero, if_pos rfl, setRows_succ, ih (i + 1) (by omega),
        show i + 1 + left = i + (left + 1) by omega]
      intro r less
      rcases Nat.lt_succ_iff_lt_or_eq.mp less with before | rfl
      · exact clear r before
      · exact zero
    · rw [if_neg zero, if_neg Bool.false_ne_true, if_neg fun all => zero (all i (by omega))]
      have set : ∀ r < i, l.rows (base + 0 + r) = 0#64 := by simpa using clear
      have undo := run_unset 0 (by omega) set
      rw [← List.range_eq_range', Nat.add_zero] at undo
      exact Prog.run_bind_some undo

theorem run_setEntries {base n : Nat} (bound : base + n ≤ l.rowCount) :
    Prog.run LoOp.exec (setEntries base 0 n) l =
      if ∀ r < n, l.rows (base + r) = 0#64 then
        some (true, setRows l base n (BitVec.allOnes 64))
      else some (false, l) := by
  have none : ∀ r < 0, l.rows (base + r) = 0#64 := by simp
  have run := run_setEntries_from 0 bound none
  rwa [setRows_zero, Nat.zero_add] at run

/-! ## Blocks with room -/

/-- The aligned block of `2 ^ order` frames from `p` on lies in the bitfield and its bits are
clear. -/
def Room (l : Lower) (c order p : Nat) : Prop :=
  2 ^ order ∣ p ∧ p < childSize ∧ BitsAre l c p order false

instance (l : Lower) (c order p : Nat) : Decidable (Room l c order p) :=
  inferInstanceAs (Decidable (_ ∧ _ ∧ _))

def stride (order : Nat) : Nat := max atomicSize (2 ^ order)

theorem stride_pos (order : Nat) : 0 < stride order :=
  Nat.lt_of_lt_of_le (by decide) (Nat.le_max_left atomicSize (2 ^ order))

def NoLater (start order p q : Nat) : Prop :=
  turn (start / stride order) (childSize / stride order) (p / stride order) <
      turn (start / stride order) (childSize / stride order) (q / stride order) ∨
    p / stride order = q / stride order ∧ p ≤ q

-- The `i`-th stretch of the bitfield has no room.
private def Barren (l : Lower) (c order i : Nat) : Prop :=
  ∀ p, p / stride order = i → ¬ Room l c order p

-- The lowest block with room in the `i`-th stretch has been taken.
private def TookLowest (l : Lower) (c order i : Nat) (a : Result) (l' : Lower) : Prop :=
  ∃ p, a = llfreeOk p 0 ∧ p / stride order = i ∧ Room l c order p ∧
    (∀ q, q / stride order = i → Room l c order q → p ≤ q) ∧
    Inverted (c * childSize + p) (2 ^ order) l l'

private theorem stride_row (small : order ≤ 6) : stride order = 64 := by
  have le : 2 ^ order ≤ 2 ^ 6 := Nat.pow_le_pow_right (by omega) small
  simp only [stride, atomicSize]
  omega

private theorem stride_rows (big : 6 < order) : stride order = 2 ^ order := by
  have many : 64 < 2 ^ order := Nat.pow_lt_pow_right (by omega : 1 < 2) big
  simp only [stride, atomicSize]
  omega

private theorem room_row (small : order ≤ 6) {p : Nat} (inside : p < 512) : Room l c order p ↔
    2 ^ order ∣ p % 64 ∧ ClearRun (l.rows (c * 8 + p / 64)) (p % 64) (2 ^ order) := by
  have whole : 2 ^ order ∣ 64 := Nat.pow_dvd_pow 2 small
  have unit : 2 ^ order ∣ p % 64 ↔ 2 ^ order ∣ p := Nat.dvd_mod_iff whole
  constructor
  · rintro ⟨aligned, -, clear⟩
    exact ⟨unit.mpr aligned, (bitsAre_row small aligned).mp clear⟩
  · rintro ⟨aligned, clear⟩
    exact ⟨unit.mp aligned, inside, (bitsAre_row small (unit.mp aligned)).mpr clear⟩

private theorem run_row (real : c < l.childCount) (small : order ≤ 6) {r : Nat} (less : r < 8) :
    (Prog.run LoOp.exec (do
        let pos ← rowZerosAt (c * 8 + r) order
        pure (pos.map fun p => llfreeOk (r * 64 + p) 0)) l = some (none, l) ∧
      Barren l c order r) ∨
    ∃ a l', Prog.run LoOp.exec (do
        let pos ← rowZerosAt (c * 8 + r) order
        pure (pos.map fun p => llfreeOk (r * 64 + p) 0)) l = some (some a, l') ∧
      TookLowest l c order r a l' := by
  have bound : c * 8 + r < l.rowCount := by
    simp only [Lower.rowCount, fieldN]
    omega
  have pos : 0 < 2 ^ order := Nat.two_pow_pos order
  simp only [rowZerosAt, Prog.step_bind, Prog.ret_bind]
  rcases run_rowZeros (k := fun pos => pure (pos.map fun p => llfreeOk (r * 64 + p) 0)) bound small
    with ⟨p, aligned, fits, clear, first, run⟩ | ⟨full, run⟩
  · right
    have row : (r * 64 + p) / 64 = r := by omega
    have bit : (r * 64 + p) % 64 = p := by omega
    have room : Room l c order (r * 64 + p) := by
      rw [room_row small (by omega), row, bit]
      exact ⟨aligned, clear⟩
    refine ⟨_, _, run, r * 64 + p, rfl, by rw [stride_row small, row], room, ?_, ?_⟩
    · intro q here other
      rw [stride_row small] at here
      obtain ⟨unit, free⟩ := (room_row small other.2.1).mp other
      by_contra lower
      rw [here] at free
      exact first (q % 64) unit (by omega) free
    · have taken := inverted_row small room.1 room.2.2
      rwa [row, bit] at taken
  · left
    refine ⟨run, ?_⟩
    intro p here room
    rw [stride_row small] at here
    obtain ⟨unit, free⟩ := (room_row small room.2.1).mp room
    rw [here] at free
    have whole := (row_of_index room.1).2 (Nat.pow_le_pow_right (by omega : 0 < 2) small)
    exact full (p % 64) unit whole free

private theorem run_group (real : c < l.childCount) (big : 6 < order) (small : order < 9)
    (inside : i < 512 / 2 ^ order) :
    (Prog.run LoOp.exec (do
        let set ← setEntries (c * 8 + i * (2 ^ order / 64)) 0 (2 ^ order / 64)
        pure (if set then some (llfreeOk (i * (2 ^ order / 64) * 64) 0) else none)) l =
          some (none, l) ∧ Barren l c order i) ∨
    ∃ a l', Prog.run LoOp.exec (do
        let set ← setEntries (c * 8 + i * (2 ^ order / 64)) 0 (2 ^ order / 64)
        pure (if set then some (llfreeOk (i * (2 ^ order / 64) * 64) 0) else none)) l =
          some (some a, l') ∧ TookLowest l c order i a l' := by
  have many : 64 < 2 ^ order := Nat.pow_lt_pow_right (by omega : 1 < 2) big
  have rows := rows_of_order many
  have aligned : 2 ^ order ∣ i * 2 ^ order := Nat.dvd_mul_left _ _
  have place : i * (2 ^ order / 64) * 64 = i * 2 ^ order := by rw [Nat.mul_assoc, rows]
  have less : i * 2 ^ order < 512 := by
    have whole := Nat.div_mul_cancel (Nat.pow_dvd_pow 2 (show order ≤ 9 by omega))
    calc i * 2 ^ order < 512 / 2 ^ order * 2 ^ order :=
          Nat.mul_lt_mul_of_pos_right inside (Nat.two_pow_pos order)
      _ = 512 := whole
  have first : i * 2 ^ order / 64 = i * (2 ^ order / 64) := by omega
  have bound := (rows_inside real less aligned (show order ≤ 9 by omega)).2
  have clear : BitsAre l c (i * 2 ^ order) order false ↔
      ∀ r < 2 ^ order / 64, l.rows (c * 8 + i * 2 ^ order / 64 + r) = 0#64 :=
    bitsAre_rows big aligned
  rw [place, ← first]
  have run := run_setEntries bound
  by_cases all : BitsAre l c (i * 2 ^ order) order false
  · right
    rw [if_pos (clear.mp all)] at run
    refine ⟨_, _, Prog.run_bind_some run, i * 2 ^ order, rfl, ?_, ⟨aligned, less, all⟩, ?_, ?_⟩
    · rw [stride_rows big, Nat.mul_div_cancel i (Nat.two_pow_pos order)]
    · intro q here room
      rw [stride_rows big] at here
      exact here ▸ Nat.div_mul_le_self q (2 ^ order)
    · exact inverted_rows big aligned all
  · left
    rw [if_neg fun zero => all (clear.mpr zero)] at run
    refine ⟨Prog.run_bind_some run, ?_⟩
    intro p here room
    rw [stride_rows big] at here
    apply all
    rw [← here, Nat.div_mul_cancel room.1]
    exact room.2.2

private theorem run_stretches {first : Nat} {f : Nat → LoProg (Option Result)}
    (size : len * stride order = childSize) (many : 0 < len)
    (offset : first = start / stride order % len)
    (attempt : ∀ i < len, (Prog.run LoOp.exec (f i) l = some (none, l) ∧ Barren l c order i) ∨
      ∃ a l', Prog.run LoOp.exec (f i) l = some (some a, l') ∧ TookLowest l c order i a l') :
    (∃ p l', Room l c order p ∧ (∀ q, Room l c order q → NoLater start order p q) ∧
        Prog.run LoOp.exec (Prog.firstSome (forOffsetted first len) f >>= fun found =>
          pure (found.getD (llfreeErr .memory))) l = some (llfreeOk p 0, l') ∧
        Inverted (c * childSize + p) (2 ^ order) l l') ∨
      (∀ p, ¬ Room l c order p) ∧
        Prog.run LoOp.exec (Prog.firstSome (forOffsetted first len) f >>= fun found =>
          pure (found.getD (llfreeErr .memory))) l = some (llfreeErr .memory, l) := by
  have zero : first / len = 0 := by
    rw [offset]
    exact Nat.div_eq_of_lt (Nat.mod_lt _ many)
  have all : ∀ i, i / len = first / len ↔ i < len := by
    intro i
    rw [zero, Nat.div_eq_zero_iff]
    omega
  have stretch : ∀ p, Room l c order p → p / stride order < len := by
    intro p room
    have less := room.2.1
    rw [← size, Nat.mul_comm] at less
    exact Nat.div_lt_of_lt_mul less
  rcases run_forOffsetted many (Barren l c order) (TookLowest l c order)
      (fun i same => attempt i ((all i).mp same)) with
    ⟨run, barren⟩ | ⟨i, -, l', inside, before, run, p, rfl, here, room, lowest, inverted⟩
  · right
    refine ⟨?_, run⟩
    intro p room
    exact barren _ ((all _).mpr (stretch p room)) p rfl room
  · left
    refine ⟨p, l', room, ?_, run, inverted⟩
    intro q other
    have later : ¬ turn first len (q / stride order) < turn first len i := by
      intro earlier
      exact before _ ((all _).mpr (stretch q other)) earlier q rfl other
    have places : childSize / stride order = len := by
      rw [← size]
      exact Nat.mul_div_cancel len (stride_pos order)
    have wrapped : ∀ x, turn (start / stride order) len x = turn first len x := by
      intro x
      rw [offset, turn_mod]
    rw [NoLater, places, wrapped, wrapped, here]
    rcases Nat.lt_or_eq_of_le (not_lt.mp later) with less | equal
    · exact Or.inl less
    · have same := turn_inj many inside ((all _).mpr (stretch q other)) equal
      exact Or.inr ⟨same, lowest q same.symm other⟩

/-- What a search of a bitfield for `2 ^ order` frames does: it takes the first block with room, or
there is none and it changes nothing. -/
def SetNextExact (l : Lower) (c start order : Nat) : Prop :=
  (∃ p l', Room l c order p ∧ (∀ q, Room l c order q → NoLater start order p q) ∧
      Prog.run LoOp.exec (fieldSetNext c start order) l = some (llfreeOk p 0, l') ∧
      Inverted (c * childSize + p) (2 ^ order) l l') ∨
    (∀ p, ¬ Room l c order p) ∧
      Prog.run LoOp.exec (fieldSetNext c start order) l = some (llfreeErr .memory, l)

theorem setNext_exact (start : Nat) (real : c < l.childCount) (small : order < childOrder) :
    SetNextExact l c start order := by
  have tiny : order < 9 := small
  have fits : 2 ^ order < childSize := Nat.pow_lt_pow_right (by omega : 1 < 2) tiny
  simp only [SetNextExact, fieldSetNext]
  rw [Prog.assert_bind fits]
  by_cases row : order ≤ 6
  · have le : 2 ^ order ≤ atomicSize := Nat.pow_le_pow_right (by omega : 0 < 2) row
    simp only [if_pos le]
    apply run_stretches
    · rw [stride_row row]
      rfl
    · decide
    · rw [stride_row row]
      rfl
    · intro i less
      exact run_row real row less
  · have big : 6 < order := by omega
    have gt : ¬ 2 ^ order ≤ atomicSize :=
      not_le.mpr (Nat.pow_lt_pow_right (by omega : 1 < 2) big : 2 ^ 6 < 2 ^ order)
    simp only [if_neg gt]
    obtain ⟨size, many, offset⟩ : fieldN / (2 ^ order / atomicSize) * stride order = childSize ∧
        0 < fieldN / (2 ^ order / atomicSize) ∧
          rowFromFrame start % fieldN / (2 ^ order / atomicSize) =
          start / stride order % (fieldN / (2 ^ order / atomicSize)) := by
      obtain rfl | rfl : order = 7 ∨ order = 8 := by omega
      · refine ⟨by decide, by decide, ?_⟩
        show start / 64 % 8 / 2 = start / 128 % 4
        omega
      · refine ⟨by decide, by decide, ?_⟩
        show start / 64 % 8 / 4 = start / 256 % 2
        omega
    apply run_stretches size many offset
    intro i less
    apply run_group real big tiny
    rw [← stride_rows big, show 512 = childSize from rfl, ← size,
      Nat.mul_div_cancel _ (stride_pos order)]
    exact less

/-- A search succeeds exactly when the bitfield has room. It takes the first room from the row of
its start on, and otherwise changes nothing. -/
theorem fieldSetNext_first_fit (start : Nat) (real : c < l.childCount)
    (small : order < childOrder) :
    ∃ r l', Prog.run LoOp.exec (fieldSetNext c start order) l = some (r, l') ∧
      (r.error = .ok ↔ ∃ p, Room l c order p) ∧
      (r.error = .ok → r = llfreeOk r.frame 0 ∧ Room l c order r.frame ∧
        (∀ q, Room l c order q → NoLater start order r.frame q) ∧
        Inverted (c * childSize + r.frame) (2 ^ order) l l') ∧
      (r.error ≠ .ok → r = llfreeErr .memory ∧ l' = l) := by
  rcases setNext_exact start real small with ⟨p, l', room, first, run, inverted⟩ | ⟨full, run⟩
  · exact ⟨_, l', run, ⟨fun _ => ⟨p, room⟩, fun _ => rfl⟩, fun _ => ⟨rfl, room, first, inverted⟩,
      fun error => absurd rfl error⟩
  · refine ⟨_, l, run, ⟨by simp, ?_⟩, by simp, fun _ => ⟨rfl, rfl⟩⟩
    rintro ⟨p, room⟩
    exact absurd room (full p)

def spotted : Lower := (lowerInit zeroed 512 .free).2.setRow 6 1#64

/-- A search for two rows from row 7 on passes the group of row 6 and wraps. -/
theorem fieldSetNext_wraps :
    (Prog.run LoOp.exec (fieldSetNext 0 450 7) spotted).map Prod.fst = some (llfreeOk 0 0) ∧
      ∃ r l', Prog.run LoOp.exec (fieldSetNext 0 450 7) spotted = some (r, l') ∧
        (r.error = .ok ↔ ∃ p, Room spotted 0 7 p) ∧
        (r.error = .ok → r = llfreeOk r.frame 0 ∧ Room spotted 0 7 r.frame ∧
          (∀ q, Room spotted 0 7 q → NoLater 450 7 r.frame q) ∧
          Inverted (0 * childSize + r.frame) (2 ^ 7) spotted l') ∧
        (r.error ≠ .ok → r = llfreeErr .memory ∧ l' = spotted) :=
  ⟨by decide +kernel, fieldSetNext_first_fit 450 (by decide) (by decide)⟩

end LLFree.Lower.NextFit

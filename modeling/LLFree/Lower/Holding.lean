/- module: LLFree/Lower/Holding
   digest: What calls in progress and their callers hold of the lower allocator. -/

import LLFree.Code.Lower
import LLFree.Lower.Rows
import Mathlib.Algebra.Group.Pi.Basic
import Mathlib.Algebra.BigOperators.Group.Multiset.Basic
import Mathlib.Tactic.IntervalCases

/-!
A child entry and its bitfield change in separate steps, so at any moment frames may be
missing from the counter that are not yet set in the bitfield. A holding says who owns what:
`credit` are frames taken from a counter and not set in the bitfield, `bit` are set bits,
and `huge` are children taken as a whole; `{k}` says that the first `k` rows of the child
are already set by a split.
-/

set_option autoImplicit false
set_option relaxedAutoImplicit false

namespace LLFree.Lower.Holding

open LLFree.Code.Types LLFree.Code.Entries LLFree.Code.Lower LLFree.Words.Lanes LLFree.Lower.Rows

@[ext] structure Held where
  credit : Nat → Nat
  bit : Nat → Nat
  huge : Nat → Multiset Nat

namespace Held

instance : Zero Held := ⟨⟨0, 0, 0⟩⟩
instance : Add Held := ⟨fun a b => ⟨a.credit + b.credit, a.bit + b.bit, a.huge + b.huge⟩⟩

@[simp] theorem zero_credit (c : Nat) : (0 : Held).credit c = 0 := rfl
@[simp] theorem zero_bit (g : Nat) : (0 : Held).bit g = 0 := rfl
@[simp] theorem zero_huge (c : Nat) : (0 : Held).huge c = 0 := rfl
@[simp] theorem add_credit (a b : Held) (c : Nat) :
    (a + b).credit c = a.credit c + b.credit c := rfl
@[simp] theorem add_bit (a b : Held) (g : Nat) : (a + b).bit g = a.bit g + b.bit g := rfl
@[simp] theorem add_huge (a b : Held) (c : Nat) : (a + b).huge c = a.huge c + b.huge c := rfl

theorem ext_at {a b : Held} (credit : ∀ c, a.credit c = b.credit c)
    (bit : ∀ g, a.bit g = b.bit g) (huge : ∀ c, a.huge c = b.huge c) : a = b :=
  Held.ext (funext credit) (funext bit) (funext huge)

instance : AddCommMonoid Held where
  add_assoc a b c := ext_at (by simp [add_assoc]) (by simp [add_assoc]) (by simp [add_assoc])
  zero_add a := ext_at (by simp) (by simp) (by simp)
  add_zero a := ext_at (by simp) (by simp) (by simp)
  add_comm a b := ext_at (by simp [add_comm]) (by simp [add_comm]) (by simp [add_comm])
  nsmul := nsmulRec

def taken (c n : Nat) : Held := ⟨fun i => if i = c then n else 0, 0, 0⟩

def run (f n : Nat) : Held := ⟨0, fun g => if f ≤ g ∧ g < f + n then 1 else 0, 0⟩

def whole (c k : Nat) : Held := ⟨0, 0, fun i => if i = c then {k} else 0⟩

@[simp] theorem taken_credit (c n i : Nat) : (taken c n).credit i = if i = c then n else 0 := rfl
@[simp] theorem taken_bit (c n g : Nat) : (taken c n).bit g = 0 := rfl
@[simp] theorem taken_huge (c n i : Nat) : (taken c n).huge i = 0 := rfl
@[simp] theorem run_credit (f n c : Nat) : (run f n).credit c = 0 := rfl
@[simp] theorem run_bit (f n g : Nat) :
    (run f n).bit g = if f ≤ g ∧ g < f + n then 1 else 0 := rfl
@[simp] theorem run_huge (f n c : Nat) : (run f n).huge c = 0 := rfl
@[simp] theorem whole_credit (c k i : Nat) : (whole c k).credit i = 0 := rfl
@[simp] theorem whole_bit (c k g : Nat) : (whole c k).bit g = 0 := rfl
@[simp] theorem whole_huge (c k i : Nat) : (whole c k).huge i = if i = c then {k} else 0 := rfl

theorem taken_add (c a b : Nat) : taken c (a + b) = taken c a + taken c b := by
  refine ext_at (fun i => ?_) (fun g => rfl) (fun i => rfl)
  by_cases same : i = c <;> simp [same]

theorem taken_zero (c : Nat) : taken c 0 = 0 := by
  refine ext_at (fun i => ?_) (fun g => rfl) (fun i => rfl)
  simp

theorem run_add (f a b : Nat) : run f (a + b) = run f a + run (f + a) b := by
  refine ext_at (fun i => rfl) (fun g => ?_) (fun i => rfl)
  simp only [run_bit, add_bit]
  split_ifs <;> omega

theorem run_zero (f : Nat) : run f 0 = 0 := by
  refine ext_at (fun i => rfl) (fun g => ?_) (fun i => rfl)
  simp

end Held

open Held

/-! ## The memory behind a holding -/

def bitSet (l : Lower) (g : Nat) : Bool := (l.rows (g / 64)).getLsbD (g % 64)

/-- A child that is not huge: its counter misses what is set or taken, its bits are held. -/
structure SmallBacked (l : Lower) (m : Held) (c : Nat) : Prop where
  real : c < l.childCount
  count : (l.children c).free + m.credit c + fieldCountOnes l c = 512
  bits : ∀ g, g / 512 = c → m.bit g = (bitSet l g).toNat
  none : m.huge c = 0

/-- A child that is huge: its counter is zero, its rows are clear but for a split. -/
structure HugeBacked (l : Lower) (m : Held) (c : Nat) : Prop where
  zero : (l.children c).free = 0
  credit : m.credit c = 0
  bits : ∀ g, g / 512 = c → m.bit g = 0
  rows : ∃ k ≤ 8, m.huge c = {k} ∧ (c < l.childCount →
    ∀ r < 8, l.rows (c * 8 + r) = if r < k then BitVec.allOnes 64 else 0#64)

/-- All holdings together explain the memory of an allocator of `N` frames. -/
structure Backed (N : Nat) (l : Lower) (m : Held) : Prop where
  frames : l.frames = N
  small : ∀ c < l.entryCount, (l.children c).huge = false → SmallBacked l m c
  huge : ∀ c < l.entryCount, (l.children c).huge = true → HugeBacked l m c

variable {N : Nat} {l : Lower} {m : Held}

/-- The children of an allocator of `N` frames, and its entries with the padding. -/
def childrenOf (N : Nat) : Nat := divCeil N childSize
def entriesOf (N : Nat) : Nat := alignUp (childrenOf N) treeChildren

theorem Backed.childCount_eq (backed : Backed N l m) : l.childCount = childrenOf N := by
  rw [Lower.childCount, backed.frames, childrenOf]

theorem Backed.entryCount_eq (backed : Backed N l m) : l.entryCount = entriesOf N := by
  rw [Lower.entryCount, backed.childCount_eq, entriesOf]

theorem childrenOf_le_entriesOf (N : Nat) : childrenOf N ≤ entriesOf N := by
  simp only [entriesOf, alignUp, alignDown, treeChildren]
  omega

theorem childCount_le_entryCount (l : Lower) : l.childCount ≤ l.entryCount := by
  simp only [Lower.entryCount, alignUp, alignDown, treeChildren]
  omega

/-! ## Stores -/

@[simp] theorem setChild_frames (l : Lower) (c : Nat) (v : Child) :
    (l.setChild c v).frames = l.frames := rfl
@[simp] theorem setChild_rows (l : Lower) (c : Nat) (v : Child) :
    (l.setChild c v).rows = l.rows := rfl
@[simp] theorem setRow_frames (l : Lower) (r : Nat) (v : Row) :
    (l.setRow r v).frames = l.frames := rfl
@[simp] theorem setRow_children (l : Lower) (r : Nat) (v : Row) :
    (l.setRow r v).children = l.children := rfl
@[simp] theorem setChild_childCount (l : Lower) (c : Nat) (v : Child) :
    (l.setChild c v).childCount = l.childCount := rfl
@[simp] theorem setChild_entryCount (l : Lower) (c : Nat) (v : Child) :
    (l.setChild c v).entryCount = l.entryCount := rfl
@[simp] theorem setRow_childCount (l : Lower) (r : Nat) (v : Row) :
    (l.setRow r v).childCount = l.childCount := rfl
@[simp] theorem setRow_entryCount (l : Lower) (r : Nat) (v : Row) :
    (l.setRow r v).entryCount = l.entryCount := rfl
@[simp] theorem setChild_bitSet (l : Lower) (c : Nat) (v : Child) (g : Nat) :
    bitSet (l.setChild c v) g = bitSet l g := rfl
@[simp] theorem setChild_countOnes (l : Lower) (c : Nat) (v : Child) (i : Nat) :
    fieldCountOnes (l.setChild c v) i = fieldCountOnes l i := rfl

theorem setChild_self (l : Lower) (c : Nat) (v : Child) : (l.setChild c v).children c = v :=
  Function.update_self ..

theorem setChild_ne {c i : Nat} (l : Lower) (v : Child) (other : i ≠ c) :
    (l.setChild c v).children i = l.children i :=
  Function.update_of_ne other ..

theorem setRow_self (l : Lower) (r : Nat) (v : Row) : (l.setRow r v).rows r = v :=
  Function.update_self ..

theorem setRow_ne {r i : Nat} (l : Lower) (v : Row) (other : i ≠ r) :
    (l.setRow r v).rows i = l.rows i :=
  Function.update_of_ne other ..

theorem setRow_bitSet (l : Lower) (r : Nat) (v : Row) (g : Nat) :
    bitSet (l.setRow r v) g = if g / 64 = r then v.getLsbD (g % 64) else bitSet l g := by
  by_cases same : g / 64 = r
  · rw [if_pos same, bitSet, same, setRow_self]
  · rw [if_neg same, bitSet, setRow_ne l v same, bitSet]

theorem fieldCountOnes_eq (l : Lower) (c : Nat) :
    fieldCountOnes l c = ones (l.rows (c * 8)) + ones (l.rows (c * 8 + 1)) +
      ones (l.rows (c * 8 + 2)) + ones (l.rows (c * 8 + 3)) + ones (l.rows (c * 8 + 4)) +
      ones (l.rows (c * 8 + 5)) + ones (l.rows (c * 8 + 6)) + ones (l.rows (c * 8 + 7)) := by
  simp [fieldCountOnes, fieldN, List.range_succ]
  omega

theorem fieldCountOnes_setRow_self (l : Lower) {r c : Nat} (v : Row) (here : r / 8 = c) :
    fieldCountOnes (l.setRow r v) c + ones (l.rows r) = fieldCountOnes l c + ones v := by
  obtain ⟨i, less, rfl⟩ : ∃ i < 8, r = c * 8 + i := ⟨r % 8, by omega, by omega⟩
  rw [fieldCountOnes_eq, fieldCountOnes_eq]
  interval_cases i <;> simp [Lower.setRow] <;> omega

theorem fieldCountOnes_setRow_ne (l : Lower) {r c : Nat} (v : Row) (other : r / 8 ≠ c) :
    fieldCountOnes (l.setRow r v) c = fieldCountOnes l c := by
  have apart : ∀ i < 8, c * 8 + i ≠ r := by omega
  simp only [fieldCountOnes_eq]
  rw [setRow_ne l v (apart 1 (by omega)), setRow_ne l v (apart 2 (by omega)),
    setRow_ne l v (apart 3 (by omega)), setRow_ne l v (apart 4 (by omega)),
    setRow_ne l v (apart 5 (by omega)), setRow_ne l v (apart 6 (by omega)),
    setRow_ne l v (apart 7 (by omega)), setRow_ne l v (show c * 8 ≠ r from apart 0 (by omega))]

theorem fieldCountOnes_le (l : Lower) (c : Nat) : fieldCountOnes l c ≤ 512 := by
  rw [fieldCountOnes_eq]
  have bound := fun r => ones_le (l.rows r)
  have b0 := bound (c * 8)
  have b1 := bound (c * 8 + 1)
  have b2 := bound (c * 8 + 2)
  have b3 := bound (c * 8 + 3)
  have b4 := bound (c * 8 + 4)
  have b5 := bound (c * 8 + 5)
  have b6 := bound (c * 8 + 6)
  have b7 := bound (c * 8 + 7)
  omega

theorem fieldCountOnes_zero {l : Lower} {c : Nat} (none : fieldCountOnes l c = 0) :
    ∀ r < 8, l.rows (c * 8 + r) = 0#64 := by
  intro r less
  rw [fieldCountOnes_eq] at none
  rw [← ones_eq_zero]
  interval_cases r <;> (try rw [Nat.add_zero]) <;> omega

/-! ## Moves of a single entry -/

theorem Backed.not_huge (backed : Backed N l m) {c : Nat} (bound : c < l.entryCount)
    (some_held : 0 < m.credit c ∨ ∃ g, g / 512 = c ∧ 0 < m.bit g) :
    (l.children c).huge = false := by
  by_contra huge
  have held := backed.huge c bound (by simpa using huge)
  rcases some_held with credit | ⟨g, here, bit⟩
  · have := held.credit
    omega
  · have := held.bits g here
    omega

theorem Backed.is_huge (backed : Backed N l m) {c k : Nat} (bound : c < l.entryCount)
    (member : k ∈ m.huge c) : (l.children c).huge = true := by
  by_contra small
  have held := backed.small c bound (by simpa using small)
  rw [held.none] at member
  cases member

theorem Backed.count (backed : Backed N l m) {m' : Held} {c free : Nat} (bound : c < l.entryCount)
    (small : (l.children c).huge = false)
    (sum : free + m'.credit c = (l.children c).free + m.credit c)
    (credit : ∀ i, i ≠ c → m'.credit i = m.credit i)
    (bits : m'.bit = m.bit) (huge : m'.huge = m.huge) :
    Backed N (l.setChild c ⟨free, false⟩) m' := by
  have own := backed.small c bound small
  refine ⟨backed.frames, fun i inside kind => ?_, fun i inside kind => ?_⟩
  · by_cases same : i = c
    · subst same
      refine ⟨own.real, ?_, fun g here => by rw [bits]; exact own.bits g here, by
        rw [huge]; exact own.none⟩
      have total := own.count
      rw [setChild_self, setChild_countOnes]
      change free + _ + _ = _
      omega
    · rw [setChild_ne l _ same] at kind
      have held := backed.small i inside kind
      refine ⟨held.real, ?_, fun g here => by rw [bits]; exact held.bits g here, by
        rw [huge]; exact held.none⟩
      rw [setChild_ne l _ same, credit i same]
      exact held.count
  · have other : i ≠ c := by
      rintro rfl
      rw [setChild_self] at kind
      cases kind
    rw [setChild_ne l _ other] at kind
    have held := backed.huge i inside kind
    refine ⟨?_, ?_, fun g here => by rw [bits]; exact held.bits g here, ?_⟩
    · rw [setChild_ne l _ other]
      exact held.zero
    · rw [credit i other]
      exact held.credit
    · rw [huge]
      exact held.rows

/-- Rewrite a row of a child that is not huge: the bits belong to the holders, the rest of
the count to its credit. -/
theorem Backed.row (backed : Backed N l m) {m' : Held} {c r : Nat} {v : Row} (here : r / 8 = c)
    (bound : c < l.entryCount) (small : (l.children c).huge = false)
    (sum : m'.credit c + ones v = m.credit c + ones (l.rows r))
    (credit : ∀ i, i ≠ c → m'.credit i = m.credit i)
    (own_bits : ∀ i < 64, m'.bit (r * 64 + i) = (v.getLsbD i).toNat)
    (bits : ∀ g, g / 64 ≠ r → m'.bit g = m.bit g) (huge : m'.huge = m.huge) :
    Backed N (l.setRow r v) m' := by
  have own := backed.small c bound small
  refine ⟨backed.frames, fun i inside kind => ?_, fun i inside kind => ?_⟩
  · have held := backed.small i inside kind
    refine ⟨held.real, ?_, fun g at_child => ?_, by rw [huge]; exact held.none⟩
    · by_cases same : i = c
      · subst same
        have total := own.count
        have moved := fieldCountOnes_setRow_self l v here
        rw [setRow_children]
        omega
      · rw [setRow_children, credit i same,
          fieldCountOnes_setRow_ne l v (fun e => same (e.symm.trans here))]
        exact held.count
    · rw [setRow_bitSet]
      by_cases same : g / 64 = r
      · rw [if_pos same]
        have frame : g = r * 64 + g % 64 := by omega
        have bit := own_bits (g % 64) (by omega)
        rwa [← frame] at bit
      · rw [if_neg same, bits g same]
        exact held.bits g at_child
  · have other : i ≠ c := by
      rintro rfl
      rw [setRow_children, small] at kind
      cases kind
    have held := backed.huge i inside kind
    refine ⟨held.zero, by rw [credit i other]; exact held.credit, fun g at_child => ?_, ?_⟩
    · rw [bits g (by omega)]
      exact held.bits g at_child
    · obtain ⟨k, le, token, rows⟩ := held.rows
      refine ⟨k, le, by rw [huge]; exact token, fun real j less => ?_⟩
      rw [setRow_ne l v (by omega)]
      exact rows real j less

theorem Backed.set {F : Held} {c r p n : Nat} {mask : Row}
    (backed : Backed N l (m + taken c n + F)) (here : r / 8 = c) (bound : c < l.entryCount)
    (pos : 0 < n) (run : IsRun mask p n) (clear : l.rows r &&& mask = 0#64) :
    Backed N (l.setRow r (l.rows r ||| mask)) (m + Held.run (r * 64 + p) n + F) := by
  have fits := run.fits
  have small : (l.children c).huge = false := by
    refine backed.not_huge bound (Or.inl ?_)
    simp only [Held.add_credit, taken_credit, if_true]
    omega
  refine backed.row here bound small ?_ (fun i other => ?_) (fun i inside => ?_)
    (fun g other => ?_) ?_
  · have total := run.ones_set clear
    simp only [Held.add_credit, taken_credit, run_credit, if_true]
    omega
  · simp [other]
  · have bit := (backed.small c bound small).bits (r * 64 + i) (by omega)
    have row_eq : (r * 64 + i) / 64 = r := by omega
    have bit_eq : (r * 64 + i) % 64 = i := by omega
    have apart := congrArg (fun x => x.getLsbD i) clear
    simp only [BitVec.getLsbD_and, run.bits i inside, BitVec.getLsbD_zero] at apart
    simp only [Held.add_bit, taken_bit, Nat.add_zero, bitSet, row_eq, bit_eq] at bit
    simp only [Held.add_bit, run_bit, BitVec.getLsbD_or, run.bits i inside]
    by_cases within : p ≤ i ∧ i < p + n
    · have low : r * 64 + p ≤ r * 64 + i ∧ r * 64 + i < r * 64 + p + n := by omega
      have off : (l.rows r).getLsbD i = false := by simpa [within] using apart
      rw [off] at bit
      simp only [if_pos low, within, off]
      simp at bit ⊢
      omega
    · have high : ¬ (r * 64 + p ≤ r * 64 + i ∧ r * 64 + i < r * 64 + p + n) := by omega
      simp only [if_neg high, within, decide_false, Bool.or_false]
      omega
  · have outside : ¬ (r * 64 + p ≤ g ∧ g < r * 64 + p + n) := by omega
    simp [outside]
  · funext i
    simp

theorem Backed.clear {F : Held} {c r p n : Nat} {mask : Row}
    (backed : Backed N l (m + Held.run (r * 64 + p) n + F)) (here : r / 8 = c)
    (bound : c < l.entryCount) (pos : 0 < n) (run : IsRun mask p n) :
    l.rows r &&& mask = mask ∧
      Backed N (l.setRow r (l.rows r &&& ~~~mask)) (m + taken c n + F) := by
  have fits := run.fits
  have small : (l.children c).huge = false := by
    refine backed.not_huge bound (Or.inr ⟨r * 64 + p, by omega, ?_⟩)
    have within : r * 64 + p ≤ r * 64 + p ∧ r * 64 + p < r * 64 + p + n := by omega
    simp only [Held.add_bit, run_bit, if_pos within]
    omega
  have read : ∀ i < 64, (m + Held.run (r * 64 + p) n + F).bit (r * 64 + i) =
      ((l.rows r).getLsbD i).toNat := by
    intro i inside
    have row_eq : (r * 64 + i) / 64 = r := by omega
    have bit_eq : (r * 64 + i) % 64 = i := by omega
    rw [(backed.small c bound small).bits (r * 64 + i) (by omega), bitSet, row_eq, bit_eq]
  have set : l.rows r &&& mask = mask := by
    refine BitVec.eq_of_getLsbD_eq fun i inside => ?_
    rw [BitVec.getLsbD_and, run.bits i inside]
    by_cases within : p ≤ i ∧ i < p + n
    · have low : r * 64 + p ≤ r * 64 + i ∧ r * 64 + i < r * 64 + p + n := by omega
      have bit := read i inside
      simp only [Held.add_bit, run_bit, if_pos low] at bit
      cases on : (l.rows r).getLsbD i
      · rw [on] at bit
        simp at bit
      · simp [within]
    · simp [within]
  refine ⟨set, backed.row here bound small ?_ (fun i other => ?_) (fun i inside => ?_)
    (fun g other => ?_) ?_⟩
  · have total := run.ones_clear set
    simp only [Held.add_credit, taken_credit, run_credit, if_true]
    omega
  · simp [other]
  · have bit := read i inside
    simp only [Held.add_bit, run_bit] at bit
    simp only [Held.add_bit, taken_bit, Nat.add_zero, BitVec.getLsbD_and, BitVec.getLsbD_not,
      run.bits i inside, inside, decide_true, Bool.true_and]
    by_cases within : p ≤ i ∧ i < p + n
    · have low : r * 64 + p ≤ r * 64 + i ∧ r * 64 + i < r * 64 + p + n := by omega
      have le := Bool.toNat_le ((l.rows r).getLsbD i)
      simp only [if_pos low] at bit
      simp [within]
      omega
    · have high : ¬ (r * 64 + p ≤ r * 64 + i ∧ r * 64 + i < r * 64 + p + n) := by omega
      simp only [if_neg high] at bit
      simp [within]
      omega
  · have outside : ¬ (r * 64 + p ≤ g ∧ g < r * 64 + p + n) := by omega
    simp [outside]
  · funext i
    simp

theorem Backed.raise {F : Held} {c order : Nat} (backed : Backed N l (m + taken c (2 ^ order) + F))
    (bound : c < l.entryCount) :
    childInc (l.children c) order = some ⟨(l.children c).free + 2 ^ order, false⟩ ∧
      Backed N (l.setChild c ⟨(l.children c).free + 2 ^ order, false⟩) (m + F) := by
  have pos : 0 < 2 ^ order := Nat.two_pow_pos order
  have small : (l.children c).huge = false := by
    refine backed.not_huge bound (Or.inl ?_)
    simp only [Held.add_credit, taken_credit, if_true]
    omega
  have total := (backed.small c bound small).count
  simp only [Held.add_credit, taken_credit, if_true] at total
  have fits : ¬ (l.children c).free + 2 ^ order > 512 := by omega
  constructor
  · simp only [childInc, small, childSize, fits, Bool.false_eq_true, or_false, if_false]
  · refine backed.count bound small ?_ (fun i other => ?_) ?_ ?_
    · simp
      omega
    · simp [other]
    · funext g
      simp
    · funext i
      simp

theorem Backed.entry (backed : Backed N l m) {m' : Held} {c : Nat} {v : Child}
    (own : if v.huge then HugeBacked (l.setChild c v) m' c else SmallBacked (l.setChild c v) m' c)
    (credit : ∀ i, i ≠ c → m'.credit i = m.credit i)
    (bits : ∀ g, g / 512 ≠ c → m'.bit g = m.bit g)
    (huge : ∀ i, i ≠ c → m'.huge i = m.huge i) :
    Backed N (l.setChild c v) m' := by
  refine ⟨backed.frames, fun i inside kind => ?_, fun i inside kind => ?_⟩
  · by_cases same : i = c
    · subst same
      rw [setChild_self] at kind
      simpa [kind] using own
    · rw [setChild_ne l v same] at kind
      have held := backed.small i inside kind
      refine ⟨held.real, ?_, fun g here => ?_, by rw [huge i same]; exact held.none⟩
      · rw [setChild_ne l v same, credit i same]
        exact held.count
      · rw [bits g (by omega)]
        exact held.bits g here
  · by_cases same : i = c
    · subst same
      rw [setChild_self] at kind
      simpa [kind] using own
    · rw [setChild_ne l v same] at kind
      have held := backed.huge i inside kind
      refine ⟨?_, ?_, fun g here => ?_, ?_⟩
      · rw [setChild_ne l v same]
        exact held.zero
      · rw [credit i same]
        exact held.credit
      · rw [bits g (by omega)]
        exact held.bits g here
      · rw [huge i same]
        exact held.rows

/-! ## Moves of a whole child -/

theorem Backed.whole_alone {F : Held} {c k : Nat} (backed : Backed N l (m + whole c k + F))
    (bound : c < l.entryCount) :
    (l.children c) = ⟨0, true⟩ ∧ HugeBacked l (m + whole c k + F) c ∧
      m.huge c = 0 ∧ F.huge c = 0 := by
  have huge : (l.children c).huge = true := by
    refine backed.is_huge bound (show k ∈ _ from ?_)
    simp
  have held := backed.huge c bound huge
  have zero := held.zero
  obtain ⟨k', -, token, -⟩ := held.rows
  have size := congrArg Multiset.card token
  simp only [Held.add_huge, whole_huge, if_true, Multiset.card_add, Multiset.card_singleton] at size
  refine ⟨?_, held, Multiset.card_eq_zero.mp (by omega), Multiset.card_eq_zero.mp (by omega)⟩
  cases entry : l.children c with
  | mk free kind =>
    rw [entry] at huge zero
    simp_all

theorem Backed.whole_rows {F : Held} {c k : Nat} (backed : Backed N l (m + whole c k + F))
    (bound : c < l.entryCount) (real : c < l.childCount) :
    k ≤ 8 ∧ ∀ r < 8, l.rows (c * 8 + r) = if r < k then BitVec.allOnes 64 else 0#64 := by
  obtain ⟨-, held, mine, others⟩ := backed.whole_alone bound
  obtain ⟨k', le, token, rows⟩ := held.rows
  simp only [Held.add_huge, whole_huge, if_true, mine, others, zero_add, add_zero,
    Multiset.singleton_inj] at token
  subst token
  exact ⟨le, rows real⟩

theorem Backed.splitRow {F : Held} {c k : Nat} (backed : Backed N l (m + whole c k + F))
    (bound : c < l.entryCount) (real : c < l.childCount) (more : k < 8) :
    l.rows (c * 8 + k) = 0#64 ∧
      Backed N (l.setRow (c * 8 + k) (BitVec.allOnes 64)) (m + whole c (k + 1) + F) := by
  obtain ⟨entry, held, mine, others⟩ := backed.whole_alone bound
  obtain ⟨-, rows⟩ := backed.whole_rows bound real
  refine ⟨by simpa using rows k more, backed.frames, fun i inside kind => ?_,
    fun i inside kind => ?_⟩
  · have other : i ≠ c := by
      rintro rfl
      rw [setRow_children, entry] at kind
      cases kind
    have own := backed.small i inside kind
    refine ⟨own.real, ?_, fun g here => ?_, ?_⟩
    · have total := own.count
      rw [setRow_children, fieldCountOnes_setRow_ne l _ (by omega)]
      simpa using total
    · have bit := own.bits g here
      rw [setRow_bitSet, if_neg (by omega)]
      simpa using bit
    · have none := own.none
      simpa [other] using none
  · have own := backed.huge i inside kind
    refine ⟨own.zero, by simpa using own.credit, fun g here => by simpa using own.bits g here, ?_⟩
    by_cases same : i = c
    · subst same
      refine ⟨k + 1, by omega, by simp [mine, others], fun _ r less => ?_⟩
      by_cases last : r = k
      · subst last
        rw [setRow_self, if_pos (by omega)]
      · rw [setRow_ne l _ (by omega), rows r less]
        have iff : r < k ↔ r < k + 1 := by omega
        simp [iff]
    · obtain ⟨k', le, token, old⟩ := own.rows
      refine ⟨k', le, by simpa [same] using token, fun real' r less => ?_⟩
      rw [setRow_ne l _ (by omega)]
      exact old real' r less

theorem Backed.splitDone {F : Held} {c : Nat} (backed : Backed N l (m + whole c 8 + F))
    (bound : c < l.entryCount) (real : c < l.childCount) :
    Backed N (l.setChild c ⟨0, false⟩) (m + run (c * 512) 512 + F) := by
  obtain ⟨entry, held, mine, others⟩ := backed.whole_alone bound
  obtain ⟨-, rows⟩ := backed.whole_rows bound real
  have full : ∀ r < 8, l.rows (c * 8 + r) = BitVec.allOnes 64 := fun r less => by
    rw [rows r less, if_pos less]
  have credit : m.credit c + F.credit c = 0 := by simpa using held.credit
  refine backed.entry ?_ (fun i other => by simp) (fun g away => ?_) (fun i other => ?_)
  · refine ⟨real, ?_, fun g here => ?_, by simp [mine, others]⟩
    · have ones_full := isRun_allOnes.ones_eq
      rw [setChild_self, setChild_countOnes, fieldCountOnes_eq, full 1 (by omega),
        full 2 (by omega), full 3 (by omega), full 4 (by omega), full 5 (by omega),
        full 6 (by omega), full 7 (by omega),
        show l.rows (c * 8) = BitVec.allOnes 64 from full 0 (by omega), ones_full]
      simp only [Held.add_credit, run_credit]
      omega
    · have within : c * 512 ≤ g ∧ g < c * 512 + 512 := by omega
      have none := held.bits g here
      have row_eq : g / 64 = c * 8 + (g / 64 - c * 8) := by omega
      rw [setChild_bitSet, bitSet, row_eq, full _ (by omega)]
      simp only [Held.add_bit, whole_bit] at none
      simp only [Held.add_bit, run_bit, if_pos within, BitVec.getLsbD_allOnes]
      simp [Nat.mod_lt]
      omega
  · have outside : ¬ (c * 512 ≤ g ∧ g < c * 512 + 512) := by omega
    simp [outside]
  · simp [other]

theorem Backed.takeWhole {F : Held} {c : Nat} (backed : Backed N l (m + F))
    (bound : c < l.entryCount) (free : l.children c = ⟨512, false⟩) :
    Backed N (l.setChild c ⟨0, true⟩) (m + whole c 0 + F) := by
  have held := backed.small c bound (by rw [free])
  have total := held.count
  rw [free] at total
  simp only [Held.add_credit] at total
  have empty : fieldCountOnes l c = 0 := by omega
  have rows := fieldCountOnes_zero empty
  have none : m.huge c = 0 ∧ F.huge c = 0 := by
    have size := congrArg Multiset.card held.none
    simp only [Held.add_huge, Multiset.card_add, Multiset.card_zero] at size
    exact ⟨Multiset.card_eq_zero.mp (by omega), Multiset.card_eq_zero.mp (by omega)⟩
  refine backed.entry ?_ (fun i other => by simp) (fun g away => by simp) (fun i other => ?_)
  · refine ⟨by rw [setChild_self], ?_, fun g here => ?_, 0, by omega, by simp [none],
      fun _ r less => ?_⟩
    · simp only [Held.add_credit, whole_credit]
      omega
    · have bit := held.bits g here
      have row_eq : g / 64 = c * 8 + (g / 64 - c * 8) := by omega
      rw [bitSet, row_eq, rows _ (by omega)] at bit
      simpa using bit
    · simpa using rows r less
  · simp [other]

theorem Backed.freeWhole {F : Held} {c : Nat} (backed : Backed N l (m + whole c 0 + F))
    (bound : c < l.entryCount) (real : c < l.childCount) :
    Backed N (l.setChild c ⟨512, false⟩) (m + F) := by
  obtain ⟨entry, held, mine, others⟩ := backed.whole_alone bound
  obtain ⟨-, rows⟩ := backed.whole_rows bound real
  have clear : ∀ r < 8, l.rows (c * 8 + r) = 0#64 := fun r less => by simpa using rows r less
  have credit : m.credit c + F.credit c = 0 := by simpa using held.credit
  refine backed.entry ?_ (fun i other => by simp) (fun g away => by simp) (fun i other => ?_)
  · refine ⟨real, ?_, fun g here => ?_, by simp [mine, others]⟩
    · have none : ones (0#64) = 0 := ones_eq_zero.mpr rfl
      rw [setChild_self, setChild_countOnes, fieldCountOnes_eq, clear 1 (by omega),
        clear 2 (by omega), clear 3 (by omega), clear 4 (by omega), clear 5 (by omega),
        clear 6 (by omega), clear 7 (by omega),
        show l.rows (c * 8) = 0#64 from clear 0 (by omega), none]
      simp only [Held.add_credit]
      omega
    · have none := held.bits g here
      have row_eq : g / 64 = c * 8 + (g / 64 - c * 8) := by omega
      rw [setChild_bitSet, bitSet, row_eq, clear _ (by omega)]
      simpa using none
  · simp [other]

end LLFree.Lower.Holding

/- module: LLFree/Upper/Represented
   digest: Which trees and rows a slot can store and give back. -/

import LLFree.Upper.Attempts
import LLFree.Upper.Conservation

/-!
A slot is one 64-bit word: the presence bit, the counter, and what is left for the row. The rows
of the largest allocator need seven bits more than that.
-/

set_option autoImplicit false
set_option relaxedAutoImplicit false

namespace LLFree.Upper.Represented

open LLFree.Atomic.Program LLFree.Code.Types LLFree.Code.Entries LLFree.Code.Local
open LLFree.Code.Shared LLFree.Code.Llfree LLFree.Code.Setup LLFree.Upper.Slots
open LLFree.Upper.Attempts LLFree.Upper.Conservation

variable {K : Config} {s : Llfree Lower} {cls index tree free row frame : Nat}

/-! ## The word of a slot -/

/-- `LLFREE_TREE_FREE_BITS`: 32 without the reserved bit and the 3 of the class. -/
abbrev treeFreeBits : Nat := 28

def reservedWord (present : Bool) (free startRow : Nat) : BitVec 64 :=
  BitVec.ofNat startRowBits startRow ++ BitVec.ofNat treeFreeBits free ++ BitVec.ofBool present

def ofWord (word : BitVec 64) : Reserved where
  present := word.getLsbD 0
  free := (word.extractLsb' 1 treeFreeBits).toNat
  startRow := (word.extractLsb' 29 startRowBits).toNat

private theorem toNat_reservedWord (present : Bool) (free startRow : Nat) :
    (reservedWord present free startRow).toNat =
      (startRow % 2 ^ startRowBits * 2 ^ treeFreeBits + free % 2 ^ treeFreeBits) * 2 +
        present.toNat := by
  have counter : free % 2 ^ treeFreeBits < 2 ^ treeFreeBits := Nat.mod_lt _ (Nat.two_pow_pos _)
  have bit : present.toNat < 2 ^ 1 := Bool.toNat_lt present
  rw [reservedWord, BitVec.toNat_append, BitVec.toNat_append, BitVec.toNat_ofNat,
    BitVec.toNat_ofNat,
    BitVec.toNat_ofBool, ← Nat.shiftLeft_add_eq_or_of_lt counter,
    ← Nat.shiftLeft_add_eq_or_of_lt bit,
    Nat.shiftLeft_eq, Nat.shiftLeft_eq]

theorem ofWord_reservedWord (present : Bool) (free startRow : Nat) :
    ofWord (reservedWord present free startRow) =
      ⟨present, free % 2 ^ treeFreeBits, storeRow startRow⟩ := by
  have word := toNat_reservedWord present free startRow
  rw [ofWord, Reserved.mk.injEq, BitVec.extractLsb'_toNat, BitVec.extractLsb'_toNat, word, storeRow]
  refine ⟨?_, ?_, ?_⟩
  · rw [← BitVec.testBit_toNat, word]
    cases present <;> simp [Nat.testBit_zero, Nat.add_mod]
  · have bit := Bool.toNat_lt present
    rw [Nat.shiftRight_eq_div_pow]
    simp only [treeFreeBits, startRowBits]
    omega
  · have bit := Bool.toNat_lt present
    rw [Nat.shiftRight_eq_div_pow]
    simp only [treeFreeBits, startRowBits]
    omega

/-! ## Reading a slot back -/

/-- The result names tree `tree` with `free` frames, starting at `row`. -/
structure Names (r : LocalResult) (cls tree free row : Nat) : Prop where
  success : r.success = true
  present : r.present = true
  cls : r.cls = cls
  free : r.free = free
  row : r.startRow = row
  tree : treeFromRow r.startRow = tree

def Alone (K : Config) (u : Upper) (cls index tree : Nat) : Prop :=
  ∀ c i, K.HasSlot c i → (u.slots c i).present = true → treeFromRow (u.slots c i).startRow = tree →
    c = cls ∧ i = index

/-- Slot `index` of class `cls` reads back as tree `tree` with `free` frames and row `row`, and
calls for that tree match it. -/
structure Readable (K : Config) (s : Llfree Lower) (cls index tree free row : Nat) : Prop where
  get : ∀ asked frames, (∀ t, asked = some t → t = tree) → frames ≤ free →
    ∃ r s', Prog.run (UpOp.exec K) (llLocalGet cls index asked frames) s = some (r, s') ∧
      Names r cls tree free row
  put : ∀ frames, free + frames ≤ treeSize →
    ∃ s', Prog.run (UpOp.exec K) (llLocalPut cls index tree frames) s = some (true, s')
  drain : ∃ r s', Prog.run (UpOp.exec K) (llLocalDrain cls index) s = some (r, s') ∧
    Names r cls tree free row
  statsAt : Alone K s.upper cls index tree →
    Names (llLocalStatsAt K s.upper tree) cls tree free row

/-- Tree `tree` with `free` frames is stored in a slot and read back, and so is the row of
`frame` that becomes its start. -/
def RoundTrip (K : Config) (s : Llfree Lower) (cls index tree free frame : Nat) : Prop :=
  ∃ old s₁, Prog.run (UpOp.exec K) (llLocalSwap cls index tree free) s = some (old, s₁) ∧
    Readable K s₁ cls index tree free (rowFromTree tree) ∧
    ∃ prev s₂, Prog.run (UpOp.exec K) (llLocalSetStart cls index (rowFromFrame frame)) s₁ =
        some (prev, s₂) ∧ prev.success = true ∧
      Readable K s₂ cls index tree free (rowFromFrame frame)

theorem names_slot (here : treeFromRow row = tree) :
    Names (makeResult true cls ⟨true, free, row⟩) cls tree free row :=
  ⟨rfl, rfl, rfl, rfl, rfl, here⟩

private theorem statsAt_slot (has : K.HasSlot cls index)
    (slot : s.upper.slots cls index = ⟨true, free, row⟩) (here : treeFromRow row = tree)
    (alone : Alone K s.upper cls index tree) :
    llLocalStatsAt K s.upper tree = makeResult true cls ⟨true, free, row⟩ := by
  have listed : (cls, index) ∈ presentSlots K s.upper :=
    List.mem_filter.mpr ⟨mem_allSlots.mpr has, by simp [slot]⟩
  rw [llLocalStatsAt]
  split
  · next t i hit =>
    obtain ⟨known, present⟩ := List.mem_filter.mp (List.mem_of_find?_eq_some hit)
    have same : treeFromRow (s.upper.slots t i).startRow = tree := by
      simpa using List.find?_some hit
    obtain ⟨rfl, rfl⟩ := alone t i (mem_allSlots.mp known) present same
    rw [slot]
  · next hit =>
    have miss := List.find?_eq_none.mp hit (cls, index) listed
    simp [slot, here] at miss

theorem readable_slot (has : K.HasSlot cls index)
    (slot : s.upper.slots cls index = ⟨true, free, row⟩) (here : treeFromRow row = tree) :
    Readable K s cls index tree free row := by
  obtain ⟨l, u⟩ := s
  dsimp only at slot
  refine ⟨fun asked frames same enough => ?_, fun frames room => ?_, ?_, fun alone => ?_⟩
  · have holds : Holds (u.slots cls index) asked frames := by
      rw [slot]
      exact ⟨rfl, fun t ask => here.trans (same t ask).symm, enough⟩
    simp only [llLocalGet, localDec, Prog.step_bind, Prog.ret_bind, Prog.pure_eq]
    rw [run_localDec has holds, slot]
    exact ⟨_, _, rfl, names_slot here⟩
  · simp only [llLocalPut, localInc]
    rw [run_localInc has (by rw [slot]) (by rw [slot]; exact here) (by rw [slot]; exact room)]
    exact ⟨_, rfl⟩
  · have swap : (TableOp.localSwap cls index noReserved).exec K u =
        some (u.slots cls index, u.setSlot cls index noReserved) := if_pos has
    simp only [llLocalDrain, localSwap, Prog.step_bind, Prog.ret_bind, Prog.pure_eq]
    rw [run_table swap, slot]
    exact ⟨_, _, rfl, names_slot here⟩
  · rw [statsAt_slot has slot here alone]
    exact names_slot here

theorem storeRow_fits (small : tree < 2 ^ 29) (here : treeFromRow row = tree) :
    storeRow row = row := by
  simp only [treeFromRow, treeFromFrame, frameFromRow, treeSize, atomicSize] at here
  exact Nat.mod_eq_of_lt (by simp only [startRowBits]; omega)

theorem treeFromRow_rowFromTree (tree : Nat) : treeFromRow (rowFromTree tree) = tree := by
  simp only [treeFromRow, rowFromTree, rowFromFrame, treeFromFrame, frameFromRow, frameFromTree,
    treeSize, atomicSize]
  omega

private theorem run_swap (has : K.HasSlot cls index) (small : free ≤ treeSize) :
    Prog.run (UpOp.exec K) (llLocalSwap cls index tree free) s =
      some (makeResult true cls (s.upper.slots cls index),
        { s with
          upper := s.upper.setSlot cls index ⟨true, free, storeRow (rowFromTree tree)⟩ }) := by
  have swap : (TableOp.localSwap cls index ⟨true, free, storeRow (rowFromTree tree)⟩).exec K
      s.upper = some (s.upper.slots cls index,
        s.upper.setSlot cls index ⟨true, free, storeRow (rowFromTree tree)⟩) := if_pos has
  simp only [llLocalSwap, llReservedNew, if_pos small, localSwap, Prog.step_bind, Prog.ret_bind,
    Prog.pure_eq]
  exact run_table swap

/-- A slot stores a tree and gives it back exactly when the rows of the tree fit 35 bits. -/
theorem roundTrip_iff (has : K.HasSlot cls index) (small : free ≤ treeSize)
    (own : treeFromFrame frame = tree) :
    RoundTrip K s cls index tree free frame ↔ tree < 2 ^ 29 := by
  constructor
  · rintro ⟨old, s₁, swap, readable, -⟩
    rw [run_swap has small] at swap
    obtain ⟨-, rfl⟩ := Prod.mk.inj (Option.some.inj swap)
    obtain ⟨r, s₂, drain, names⟩ := readable.drain
    have exchange : ∀ new, (TableOp.localSwap cls index noReserved).exec K
        (s.upper.setSlot cls index new) =
          some (new, (s.upper.setSlot cls index new).setSlot cls index noReserved) := by
      intro new
      rw [TableOp.exec, if_pos has, setSlot_self]
    simp only [llLocalDrain, localSwap, Prog.step_bind, Prog.ret_bind, Prog.pure_eq] at drain
    rw [run_table (exchange _)] at drain
    obtain ⟨rfl, -⟩ := Prod.mk.inj (Option.some.inj drain)
    have kept : storeRow (rowFromTree tree) = rowFromTree tree := names.row
    have less : storeRow (rowFromTree tree) < 2 ^ startRowBits := Nat.mod_lt _ (Nat.two_pow_pos _)
    rw [kept] at less
    simp only [rowFromTree, rowFromFrame, frameFromTree, treeSize, atomicSize, startRowBits] at less
    omega
  · intro fits
    have first := treeFromRow_rowFromTree tree
    have start : treeFromRow (rowFromFrame frame) = tree := (rowFromFrame_tree frame).1.trans own
    refine ⟨_, _, run_swap has small, ?_, ?_⟩
    · apply readable_slot has _ first
      rw [setSlot_self, storeRow_fits fits first]
    · simp only [llLocalSetStart, localSetStart, Prog.step_bind, Prog.ret_bind, Prog.pure_eq]
      rw [run_localSetStart has (by rw [setSlot_self]), setSlot_self]
      · refine ⟨_, _, rfl, rfl, readable_slot has ?_ start⟩
        rw [setSlot_self, storeRow_fits fits start]
      · rw [setSlot_self, storeRow_fits fits first]
        exact first.trans start.symm

private theorem tree_beyond : treeFromFrame (2 ^ 41) = 2 ^ 29 := rfl

/-- Exactly the trees below `2 ^ 29` can be stored in a slot, so all trees of an allocator can if
it has at most `2 ^ 41` frames. -/
theorem slot_represents (s : Llfree Lower) (has : K.HasSlot cls index) :
    (∀ tree free frame, free ≤ treeSize → treeFromFrame frame = tree →
      (RoundTrip K s cls index tree free frame ↔ tree < 2 ^ 29)) ∧
    ((∀ tree < K.treesLen, ∀ free ≤ treeSize, ∀ frame < K.frames, treeFromFrame frame = tree →
      RoundTrip K s cls index tree free frame) ↔ K.frames ≤ 2 ^ 41) := by
  refine ⟨fun tree free frame small own => roundTrip_iff has small own, ?_, ?_⟩
  · intro all
    by_contra large
    have inside : 2 ^ 29 < K.treesLen := by
      simp only [Config.treesLen, divCeil, treeSize]
      omega
    have stored := all (2 ^ 29) inside 0 (Nat.zero_le _) (2 ^ 41) (Nat.lt_of_not_le large)
      tree_beyond
    exact absurd ((roundTrip_iff has (Nat.zero_le _) tree_beyond).mp stored) (Nat.lt_irrefl _)
  · intro fits tree _ free small frame managed own
    apply (roundTrip_iff has small own).mpr
    simp only [treeFromFrame, treeSize] at own
    omega

/-- The last tree below `2 ^ 41` frames is stored and read back. -/
theorem slot_represents_last :
    RoundTrip oversized oversizedFree 0 0 (2 ^ 29 - 1) treeSize (2 ^ 41 - 1) := by
  have has : oversized.HasSlot 0 0 := by decide
  exact ((slot_represents oversizedFree has).1 (2 ^ 29 - 1) treeSize (2 ^ 41 - 1) (le_refl _)
    (by decide)).mpr (by decide)

/-- The tree after it is not, although `llfree_init` accepts the number of frames. -/
theorem slot_misrepresents :
    minPages ≤ oversized.frames ∧ oversized.frames ≤ maxPages ∧ oversized.HasSlot 0 0 ∧
      2 ^ 29 < oversized.treesLen ∧ 2 ^ 41 < oversized.frames ∧ treeFromFrame (2 ^ 41) = 2 ^ 29 ∧
      ¬ RoundTrip oversized oversizedFree 0 0 (2 ^ 29) treeSize (2 ^ 41) := by
  have has : oversized.HasSlot 0 0 := by decide
  refine ⟨by decide, by decide, has, by decide, by decide, tree_beyond, fun stored => ?_⟩
  exact absurd ((roundTrip_iff has (le_refl _) tree_beyond).mp stored) (Nat.lt_irrefl _)

end LLFree.Upper.Represented

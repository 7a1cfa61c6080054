/- module: LLFree/Upper/BitFields
   digest: The words that children, trees and slots are packed in, and the updates of words. -/

import LLFree.Atomic.Encoded
import LLFree.Code.Exchanges
import LLFree.Code.Metadata
import LLFree.Upper.Effort

/-!
Entries are structures of bit fields in 16, 32 and 64 bits. A callback reads and writes fields;
loads and exchanges are about the word as a whole.
-/

set_option autoImplicit false
set_option relaxedAutoImplicit false

namespace LLFree.Upper.BitFields

open LLFree.Atomic.Retrying LLFree.Atomic.Encoded LLFree.Code.Types LLFree.Code.Entries
open LLFree.Code.Trees LLFree.Code.Local LLFree.Code.Shared
open LLFree.Code.Accesses (BufferOp)
open LLFree.Code.Stack LLFree.Code.Exchanges LLFree.Code.Metadata LLFree.Lower.Effort
open LLFree.Upper.Represented LLFree.Upper.Effort

/-! ## Words -/

/-- The bits of a `child_t`, the counter below. -/
def childWord (child : Child) : BitVec 16 :=
  BitVec.ofBool child.huge ++ BitVec.ofNat childFreeBits child.free

def childOf (word : BitVec 16) : Child where
  free := (word.extractLsb' 0 childFreeBits).toNat
  huge := word.getLsbD childFreeBits

/-- The bits of a `tree_t`, the counter on top. -/
def treeWord (tree : Tree) : BitVec 32 :=
  BitVec.ofNat treeFreeBits tree.free ++ BitVec.ofNat classBits tree.cls ++
    BitVec.ofBool tree.reserved

def treeOf (word : BitVec 32) : Tree where
  reserved := word.getLsbD 0
  cls := (word.extractLsb' 1 classBits).toNat
  free := (word.extractLsb' (1 + classBits) treeFreeBits).toNat

/-- The bits of a slot. -/
def slotWord (slot : Reserved) : BitVec 64 := reservedWord slot.present slot.free slot.startRow

/-- Class and counter have room in their bit fields. -/
def TreeFits (tree : Tree) : Prop := tree.cls < maxClasses ∧ tree.free < 2 ^ treeFreeBits

theorem childOf_fits (word : BitVec 16) : ChildFits (childOf word) := BitVec.isLt _

theorem treeOf_fits (word : BitVec 32) : TreeFits (treeOf word) := ⟨BitVec.isLt _, BitVec.isLt _⟩

theorem ofWord_fits (word : BitVec 64) : SlotFits (ofWord word) := ⟨BitVec.isLt _, BitVec.isLt _⟩

theorem childOf_childWord {child : Child} (fits : ChildFits child) :
    childOf (childWord child) = child := by
  have low : BitVec.extractLsb' 0 childFreeBits (childWord child) =
      BitVec.ofNat childFreeBits child.free := by
    apply BitVec.eq_of_getLsbD_eq
    intro i less
    simp [childWord, BitVec.getLsbD_append, less]
  have high : (childWord child).getLsbD childFreeBits = child.huge := by
    rw [childWord, BitVec.getLsbD_append]
    simp
  rw [childOf, low, high, BitVec.toNat_ofNat, Nat.mod_eq_of_lt fits]

theorem childWord_childOf (word : BitVec 16) : childWord (childOf word) = word := by
  apply BitVec.eq_of_getLsbD_eq
  intro i less
  simp only [childWord, childOf, BitVec.ofNat_toNat, BitVec.setWidth_eq, BitVec.getLsbD_append,
    BitVec.getLsbD_extractLsb', BitVec.getLsbD_ofBool, childFreeBits]
  by_cases low : i < 15
  · simp [low]
  · obtain rfl : i = 15 := by omega
    simp

theorem treeOf_treeWord {tree : Tree} (fits : TreeFits tree) : treeOf (treeWord tree) = tree := by
  have cls : BitVec.extractLsb' 1 classBits (treeWord tree) = BitVec.ofNat classBits tree.cls := by
    apply BitVec.eq_of_getLsbD_eq
    intro i less
    simp [treeWord, BitVec.getLsbD_append, less]
  have free : BitVec.extractLsb' (1 + classBits) treeFreeBits (treeWord tree) =
      BitVec.ofNat treeFreeBits tree.free := by
    apply BitVec.eq_of_getLsbD_eq
    intro i less
    simp [treeWord, BitVec.getLsbD_append, less, show ¬ 1 + 3 + i < 1 by omega,
      show ¬ 1 + 3 + i - 1 < 3 by omega, show 1 + 3 + i - 1 - 3 = i by omega]
  have reserved : (treeWord tree).getLsbD 0 = tree.reserved := by
    rw [treeWord, BitVec.getLsbD_append]
    simp
  have small : tree.cls < 2 ^ classBits := fits.1
  rw [treeOf, reserved, cls, free, BitVec.toNat_ofNat, BitVec.toNat_ofNat, Nat.mod_eq_of_lt small,
    Nat.mod_eq_of_lt fits.2]

theorem treeWord_treeOf (word : BitVec 32) : treeWord (treeOf word) = word := by
  apply BitVec.eq_of_getLsbD_eq
  intro i less
  simp only [treeWord, treeOf, BitVec.ofNat_toNat, BitVec.setWidth_eq, BitVec.getLsbD_append,
    BitVec.getLsbD_extractLsb', BitVec.getLsbD_ofBool]
  by_cases flag : i < 1
  · obtain rfl : i = 0 := by omega
    simp
  · by_cases cls : i < 4
    · simp [flag, show i - 1 < 3 by omega, show 1 + (i - 1) = i by omega]
    · simp [flag, show ¬ i - 1 < 3 by omega, show i - 1 - 3 < 28 by omega,
        show 1 + 3 + (i - 1 - 3) = i by omega]

theorem ofWord_slotWord {slot : Reserved} (fits : SlotFits slot) :
    ofWord (slotWord slot) = slot := by
  rw [slotWord, ofWord_reservedWord, storeRow, Nat.mod_eq_of_lt fits.1, Nat.mod_eq_of_lt fits.2]

theorem slotWord_ofWord (word : BitVec 64) : slotWord (ofWord word) = word := by
  apply BitVec.eq_of_getLsbD_eq
  intro i less
  simp only [slotWord, reservedWord, ofWord, BitVec.ofNat_toNat, BitVec.setWidth_eq,
    BitVec.getLsbD_append, BitVec.getLsbD_extractLsb', BitVec.getLsbD_ofBool]
  by_cases flag : i < 1
  · obtain rfl : i = 0 := by omega
    simp
  · by_cases free : i < 29
    · simp [flag, show i - 1 < 28 by omega, show 1 + (i - 1) = i by omega]
    · simp [flag, show ¬ i - 1 < 28 by omega, show i - 1 - 28 < 35 by omega,
        show 29 + (i - 1 - 28) = i by omega]

/-! ## Memory -/

structure WordMemory (M : Type) where
  load : (c : Cell) → M → Option (BitVec c.bits)
  store : (c : Cell) → BitVec c.bits → M → M

structure Words where
  frames : Nat
  children : Nat → BitVec 16
  rows : Nat → Row
  trees : Nat → BitVec 32
  slots : Nat → Nat → BitVec 64

namespace Words

def entries (w : Words) : Llfree Lower where
  lower := ⟨w.frames, fun i => childOf (w.children i), w.rows⟩
  upper := ⟨fun i => treeOf (w.trees i), fun cls index => ofWord (w.slots cls index)⟩

def get (w : Words) : (c : Cell) → BitVec c.bits
  | .child i => w.children i
  | .row i => w.rows i
  | .tree idx => w.trees idx
  | .slot cls index => w.slots cls index

def set : (c : Cell) → BitVec c.bits → Words → Words
  | .child i, word, w => { w with children := Function.update w.children i word }
  | .row i, word, w => { w with rows := Function.update w.rows i word }
  | .tree idx, word, w => { w with trees := Function.update w.trees idx word }
  | .slot cls index, word, w =>
    { w with slots := Function.update w.slots cls (Function.update (w.slots cls) index word) }

def memory (K : Config) : WordMemory Words where
  load c w := if c.Exists K w.entries.lower then some (w.get c) else none
  store := set

end Words

/-! ## Accesses -/

section Accesses

variable {M : Type} (A : WordMemory M)

def exchange {R : Type} (c : Cell) (expected desired : BitVec c.bits) (done : R)
    (gone : BitVec c.bits → R) (m : M) : Option (R × M) :=
  (A.load c m).map fun word =>
    if word = expected then (done, A.store c desired m) else (gone word, m)

def singleExec : (o : WordOp) → M → Option (o.Res × M)
  | .lower (.childLoad i), m => (A.load (.child i) m).map fun word => (childOf word, m)
  | .lower (.childCas i expected desired), m =>
    exchange A (.child i) (childWord expected) (childWord desired) true (fun _ => false) m
  | .lower (.rowCas i expected desired), m =>
    exchange A (.row i) expected desired true (fun _ => false) m
  | .buffer (.childLoad group entry), m =>
    (A.load (.child (group * treeChildren + entry)) m).map fun word => (childOf word, m)
  | .buffer (.childStore group entry child), m =>
    (A.load (.child (group * treeChildren + entry)) m).map fun _ =>
      ((), A.store (.child (group * treeChildren + entry)) (childWord child) m)
  | .buffer (.rowLoad field row), m =>
    (A.load (.row (field * fieldN + row)) m).map fun word => (word, m)
  | .buffer (.rowStore field row v), m =>
    (A.load (.row (field * fieldN + row)) m).map fun _ =>
      ((), A.store (.row (field * fieldN + row)) v m)
  | .table (.treesLoad idx), m => (A.load (.tree idx) m).map fun word => (treeOf word, m)
  | .table (.treesCas idx expected desired), m =>
    exchange A (.tree idx) (treeWord expected) (treeWord desired) (true, expected)
      (fun word => (false, treeOf word)) m
  | _, _ => none

def packedUpdate (K : Config) : (o : WordOp) → Update M Nat o.Res
  | .lower (.childInc i order) => onWords (wordUpdate K (.lower (.childInc i order)))
    childOf childWord (A.load (.child i)) (A.store (.child i))
  | .lower (.childDec i order) => onWords (wordUpdate K (.lower (.childDec i order)))
    childOf childWord (A.load (.child i)) (A.store (.child i))
  | .lower (.rowZeros row order) => onWords (wordUpdate K (.lower (.rowZeros row order)))
    id id (A.load (.row row)) (A.store (.row row))
  | .lower (.rowToggle row mask expected) =>
    onWords (wordUpdate K (.lower (.rowToggle row mask expected)))
      id id (A.load (.row row)) (A.store (.row row))
  | .table (.treesSteal idx frames cls) =>
    onWords (wordUpdate K (.table (.treesSteal idx frames cls)))
      treeOf treeWord (A.load (.tree idx)) (A.store (.tree idx))
  | .table (.treesPut idx frames) => onWords (wordUpdate K (.table (.treesPut idx frames)))
    treeOf treeWord (A.load (.tree idx)) (A.store (.tree idx))
  | .table (.treesReserveOrSteal idx frames cls) =>
    onWords (wordUpdate K (.table (.treesReserveOrSteal idx frames cls)))
      treeOf treeWord (A.load (.tree idx)) (A.store (.tree idx))
  | .table (.treesUnreserve idx free cls) =>
    onWords (wordUpdate K (.table (.treesUnreserve idx free cls)))
      treeOf treeWord (A.load (.tree idx)) (A.store (.tree idx))
  | .table (.treesSyncSteal idx min) => onWords (wordUpdate K (.table (.treesSyncSteal idx min)))
    treeOf treeWord (A.load (.tree idx)) (A.store (.tree idx))
  | .table (.localDec cls index treeIdx frames) =>
    onWords (wordUpdate K (.table (.localDec cls index treeIdx frames)))
      ofWord slotWord (A.load (.slot cls index)) (A.store (.slot cls index))
  | .table (.localInc cls index treeIdx frames) =>
    onWords (wordUpdate K (.table (.localInc cls index treeIdx frames)))
      ofWord slotWord (A.load (.slot cls index)) (A.store (.slot cls index))
  | .table (.localSetStart cls index startRow) =>
    onWords (wordUpdate K (.table (.localSetStart cls index startRow)))
      ofWord slotWord (A.load (.slot cls index)) (A.store (.slot cls index))
  | .table (.localSwap cls index new) =>
    onWords (wordUpdate K (.table (.localSwap cls index new)))
      ofWord slotWord (A.load (.slot cls index)) (A.store (.slot cls index))
  | .table (.localTake cls index treeIdx frames) =>
    onWords (wordUpdate K (.table (.localTake cls index treeIdx frames)))
      ofWord slotWord (A.load (.slot cls index)) (A.store (.slot cls index))
  | o => .ofExec (singleExec A o) 0

def packedMeans (K : Config) : Means WordOp WordOp.Res M Nat where
  update := packedUpdate A K
  single := isSingle

end Accesses

end LLFree.Upper.BitFields

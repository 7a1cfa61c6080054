/- module: LLFree/Code/Layout
   digest: Sizes of the metadata buffers and where the initialisation places its arrays. -/

import LLFree.Code.Setup
import LLFree.Memory.Regions

/-!
Sizes are `size_t`. A cache line is 64 bytes; a `bitfield_t`, a `children_t` and an `entry_t` each
take one, a `child_t` 2 bytes and a `tree_t` 4.
-/

set_option autoImplicit false
set_option relaxedAutoImplicit false

namespace LLFree.Code.Layout

open LLFree.Code.Types LLFree.Code.Entries LLFree.Code.Shared LLFree.Memory.Regions

abbrev bitfieldBytes : Nat := 64
abbrev rowBytes : Nat := 8
abbrev childrenBytes : Nat := 64
abbrev childBytes : Nat := 2
abbrev treeBytes : Nat := 4
abbrev entryBytes : Nat := 64

/-- `sizeof(local_t)`: a byte and eight slices of 24 bytes, in whole cache lines. -/
abbrev localBytes : Nat := 256

/-- `sizeof(llfree_t)`: 65 bytes in whole cache lines. -/
abbrev llfreeBytes : Nat := 128

/-! ## Arithmetic -/

def sizeT (n : Nat) : Nat := n % 2 ^ 64

/-- `div_ceil`. -/
def sizeDivCeil (a b : Nat) : Nat := sizeT (a + b - 1) / b

/-- `align_up`. -/
def sizeAlignUp (val align : Nat) : Nat := alignDown (sizeT (val + align - 1)) align

/-! ## The lower allocator -/

def childCount (frames : Nat) : Nat := sizeDivCeil frames childSize

def childrenCount (frames : Nat) : Nat := sizeDivCeil (childCount frames) treeChildren

def lowerMetadataSize (frames : Nat) : Nat :=
  let children := sizeDivCeil frames childSize
  let trees := sizeDivCeil children treeChildren
  let sizeBitfields := sizeAlignUp (sizeT (children * bitfieldBytes)) childrenBytes
  let sizeChildren := sizeAlignUp (sizeT (trees * childrenBytes)) (max childrenBytes bitfieldBytes)
  sizeT (sizeBitfields + sizeChildren)

/-- `bitfield_size` of `lower_init`, the offset of the child entries. -/
def bitfieldSize (frames : Nat) : Nat :=
  sizeAlignUp (sizeT (bitfieldBytes * childCount frames)) childrenBytes

def fieldRegions (frames : Nat) : List Region := array 0 bitfieldBytes cacheSize (childCount frames)

def childrenRegions (frames : Nat) : List Region :=
  array (bitfieldSize frames) childrenBytes cacheSize (childrenCount frames)

/-- What `lower_init` lays out. -/
def lowerRegions (frames : Nat) : List Region := fieldRegions frames ++ childrenRegions frames

/-! ## Trees -/

def treesMetadataSize (frames : Nat) : Nat :=
  let treeLen := sizeDivCeil frames treeSize
  sizeAlignUp (sizeT (treeBytes * treeLen)) cacheSize

/-- What `trees_init` lays out. -/
def treeRegions (frames : Nat) : List Region :=
  array 0 treeBytes treeBytes (sizeDivCeil frames treeSize)

/-! ## Slots -/

def addCounts (counts : List Nat) : Nat := counts.foldl (fun total count => sizeT (total + count)) 0

def llLocalSize (classing : Classing) : Nat :=
  let total := addCounts (classing.classes.map Prod.snd)
  sizeT (sizeAlignUp localBytes cacheSize + sizeT (entryBytes * total))

structure ClassLocals where
  offset : Nat
  len : Option Nat

/-- `local_t`. -/
structure LocalHeader where
  numClasses : Nat
  classes : Nat → ClassLocals

/-- The loop of `ll_local_init` over the configured classes; `offset` counts slots. -/
def placeClasses : List (Nat × Nat) → Nat → (Nat → ClassLocals) → Nat → ClassLocals
  | [], _, table => table
  | (cls, count) :: rest, offset, table =>
    let slice :=
      ⟨sizeT (sizeAlignUp localBytes cacheSize + sizeT (entryBytes * offset)), some count⟩
    placeClasses rest (sizeT (offset + count)) (Function.update table cls slice)

/-- The header that `ll_local_init` leaves. -/
def localHeader (classing : Classing) : LocalHeader where
  numClasses := classing.classes.length % 2 ^ 8
  classes := placeClasses classing.classes 0 fun _ => ⟨0, none⟩

/-- What `ll_local_init` lays out: the header and the slots of every configured class. -/
def localRegions (classing : Classing) : List Region :=
  ⟨0, localBytes, cacheSize⟩ :: classing.classes.flatMap fun (cls, count) =>
    array ((localHeader classing).classes cls).offset entryBytes cacheSize count

def llLocalMemSize (self : LocalHeader) : Nat :=
  let total := addCounts ((List.range self.numClasses).map fun i => ((self.classes i).len).getD 0)
  sizeT (sizeAlignUp localBytes cacheSize + sizeT (entryBytes * total))

/-! ## All buffers -/

/-- `llfree_meta_size_t`. -/
@[ext]
structure MetaSize where
  llfree : Nat
  locals : Nat
  trees : Nat
  lower : Nat
  deriving DecidableEq

def llfreeMetadataSize (classing : Classing) (frames : Nat) : MetaSize where
  llfree := llfreeBytes
  locals := llLocalSize classing
  trees := treesMetadataSize frames
  lower := lowerMetadataSize frames

/-- `llfree_metadata_size_of`, of an allocator with the header `header`. -/
def llfreeMetadataSizeOf (self : Llfree Lower) (header : LocalHeader) : MetaSize where
  llfree := llfreeBytes
  locals := llLocalMemSize header
  trees := treesMetadataSize self.lower.frames
  lower := lowerMetadataSize self.lower.frames

end LLFree.Code.Layout

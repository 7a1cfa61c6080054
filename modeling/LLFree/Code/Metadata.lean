/- module: LLFree/Code/Metadata
   digest: The check of the metadata buffers, the pointers into them and where they lead. -/

import LLFree.Code.Accesses

set_option autoImplicit false
set_option relaxedAutoImplicit false

namespace LLFree.Code.Metadata

open LLFree.Code.Types LLFree.Code.Entries LLFree.Code.Shared LLFree.Code.Layout

/-- `llfree_meta_t`. -/
structure Meta where
  locals : Nat
  trees : Nat
  lower : Nat

def checkMeta (m : Meta) (sizes : MetaSize) : Bool :=
  if m.locals % cacheSize ≠ 0 ∨ m.trees % cacheSize ≠ 0 ∨ m.lower % cacheSize ≠ 0 then false
  else (sizeT (m.locals + sizes.locals) ≤ m.lower || sizeT (m.lower + sizes.lower) ≤ m.locals) &&
    (sizeT (m.locals + sizes.locals) ≤ m.trees || sizeT (m.trees + sizes.trees) ≤ m.locals) &&
    (sizeT (m.lower + sizes.lower) ≤ m.trees || sizeT (m.trees + sizes.trees) ≤ m.lower)

/-- The pointers of a `llfree_t`. -/
structure Pointers where
  locals : Nat
  entries : Nat
  fields : Nat
  children : Nat

/-- What `llfree_init` points them to. -/
def initPointers (m : Meta) (frames : Nat) : Pointers where
  locals := m.locals
  entries := m.trees
  fields := m.lower
  children := m.lower + bitfieldSize frames

inductive Cell where
  | child (i : Nat)
  | row (i : Nat)
  | tree (idx : Nat)
  | slot (cls index : Nat)
  deriving DecidableEq

namespace Cell

abbrev bits : Cell → Nat
  | child _ => 16
  | row _ => 64
  | tree _ => 32
  | slot .. => 64

def Exists (K : Config) (l : Lower) : Cell → Prop
  | child i => i < l.entryCount
  | row i => i < l.rowCount
  | tree idx => idx < K.treesLen
  | slot cls index => K.HasSlot cls index

instance (K : Config) (l : Lower) : (c : Cell) → Decidable (c.Exists K l)
  | child i => inferInstanceAs (Decidable (i < l.entryCount))
  | row i => inferInstanceAs (Decidable (i < l.rowCount))
  | tree idx => inferInstanceAs (Decidable (idx < K.treesLen))
  | slot cls index => inferInstanceAs (Decidable (K.HasSlot cls index))

def address (self : Pointers) (header : LocalHeader) : Cell → Nat
  | child i => self.children + childrenBytes * (i / treeChildren) + childBytes * (i % treeChildren)
  | row i => self.fields + bitfieldBytes * (i / fieldN) + rowBytes * (i % fieldN)
  | tree idx => self.entries + treeBytes * idx
  | slot cls index => self.locals + (header.classes cls).offset + entryBytes * index

end Cell

end LLFree.Code.Metadata

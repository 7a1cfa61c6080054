/- module: LLFree/Code/Shared
   digest: The state of the allocator and the indivisible accesses to trees and slots. -/

import LLFree.Code.Local
import LLFree.Code.Lower
import LLFree.Code.Trees

set_option autoImplicit false
set_option relaxedAutoImplicit false

namespace LLFree.Code.Shared

open LLFree.Atomic.Program LLFree.Code.Types LLFree.Code.Entries LLFree.Code.Lower
open LLFree.Code.Trees LLFree.Code.Local

/-- What `llfree_init` fixes for good. -/
structure Config where
  frames : Nat
  classing : Classing

namespace Config

def policy (K : Config) : PolicyFn := K.classing.policy
def defaultClass (K : Config) : Nat := K.classing.defaultClass
def numClasses (K : Config) : Nat := K.classing.classes.length

/-- `trees.len`. -/
def treesLen (K : Config) : Nat := divCeil K.frames treeSize

/-- `ll_local_class_locals`. -/
def locals (K : Config) (cls : Nat) : Option Nat := classLocals K.classing cls

/-- The asserted bounds of an access to slot `index` of class `cls`. -/
def HasSlot (K : Config) (cls index : Nat) : Prop := ∃ len, K.locals cls = some len ∧ index < len

instance (K : Config) (cls index : Nat) : Decidable (K.HasSlot cls index) :=
  match h : K.locals cls with
  | none => isFalse fun ⟨_, same, _⟩ => by simp [h] at same
  | some len =>
    if less : index < len then isTrue ⟨len, h, less⟩
    else isFalse fun ⟨_, same, bound⟩ => by
      rw [h, Option.some.injEq] at same
      omega

end Config

/-- The tree array and the slots: the state above the lower allocator. -/
structure Upper where
  trees : Nat → Tree
  slots : Nat → Nat → Reserved

namespace Upper

def setTree (self : Upper) (idx : Nat) (tree : Tree) : Upper :=
  { self with trees := Function.update self.trees idx tree }

def setSlot (self : Upper) (cls index : Nat) (slot : Reserved) : Upper :=
  { self with
    slots := Function.update self.slots cls (Function.update (self.slots cls) index slot) }

end Upper

/-- `llfree_t` over a lower allocator with state `L`. -/
structure Llfree (L : Type) where
  lower : L
  upper : Upper

/-- The indivisible accesses to tree entries and slots. -/
inductive TableOp where
  | treesLoad (idx : Nat)
  | treesCas (idx : Nat) (expected desired : Tree)
  | treesSteal (idx frames cls : Nat)
  | treesPut (idx frames : Nat)
  | treesReserveOrSteal (idx frames cls : Nat)
  | treesUnreserve (idx free cls : Nat)
  | treesSyncSteal (idx min : Nat)
  | localDec (cls index : Nat) (treeIdx : Option Nat) (frames : Nat)
  | localInc (cls index treeIdx frames : Nat)
  | localSetStart (cls index startRow : Nat)
  | localSwap (cls index : Nat) (new : Reserved)
  | localTake (cls index : Nat) (treeIdx : Option Nat) (frames : Nat)

/-- What an access hands back: success of an exchange and the entry it saw; the class of a
steal; the reserved flag, the old counter and the class of a reservation; the stolen frames;
success and the old slot. -/
abbrev TableOp.Res : TableOp → Type
  | .treesLoad _ => Tree
  | .treesCas .. => Bool × Tree
  | .treesSteal .. => Option Nat
  | .treesPut .. => Unit
  | .treesReserveOrSteal .. => Option (Bool × Nat × Nat)
  | .treesUnreserve .. => Unit
  | .treesSyncSteal .. => Option Nat
  | .localDec .. => Bool × Reserved
  | .localInc .. => Bool
  | .localSetStart .. => Bool × Reserved
  | .localSwap .. => Reserved
  | .localTake .. => Bool × Reserved

/-- `none` is a failed assertion. -/
def TableOp.exec (K : Config) : (o : TableOp) → Upper → Option (o.Res × Upper)
  | .treesLoad idx, u => if idx < K.treesLen then some (u.trees idx, u) else none
  | .treesCas idx expected desired, u =>
    if idx < K.treesLen then
      if u.trees idx = expected then some ((true, expected), u.setTree idx desired)
      else some ((false, u.trees idx), u)
    else none
  | .treesSteal idx frames cls, u =>
    if idx < K.treesLen then
      match treeSteal (u.trees idx) frames cls K.policy with
      | some (tree, stolen) => some (some stolen, u.setTree idx tree)
      | none => some (none, u)
    else none
  | .treesPut idx frames, u =>
    if idx < K.treesLen then
      (treePut (u.trees idx) frames K.policy K.defaultClass).map fun tree =>
        ((), u.setTree idx tree)
    else none
  | .treesReserveOrSteal idx frames cls, u =>
    if idx < K.treesLen then
      match treeReserveOrSteal (u.trees idx) frames K.policy cls with
      | some (tree, reserved, target) =>
        some (some (reserved, (u.trees idx).free, target), u.setTree idx tree)
      | none => some (none, u)
    else none
  | .treesUnreserve idx free cls, u =>
    if idx < K.treesLen then
      (treeUnreserveAdd (u.trees idx) free cls K.policy K.defaultClass).map fun new =>
        match new with
        | some tree => ((), u.setTree idx tree)
        | none => ((), u)
    else none
  | .treesSyncSteal idx min, u =>
    if idx < K.treesLen then
      match treeSyncSteal (u.trees idx) min with
      | some tree => some (some (u.trees idx).free, u.setTree idx tree)
      | none => some (none, u)
    else none
  | .localDec cls index treeIdx frames, u =>
    if K.HasSlot cls index then
      match llReservedDec (u.slots cls index) treeIdx frames with
      | some new => some ((true, u.slots cls index), u.setSlot cls index new)
      | none => some ((false, u.slots cls index), u)
    else none
  | .localInc cls index treeIdx frames, u =>
    if K.HasSlot cls index then
      (llReservedInc (u.slots cls index) treeIdx frames).map fun new => match new with
        | some new => (true, u.setSlot cls index new)
        | none => (false, u)
    else none
  | .localSetStart cls index startRow, u =>
    if K.HasSlot cls index then
      match llReservedSetStart (u.slots cls index) startRow with
      | some new => some ((true, u.slots cls index), u.setSlot cls index new)
      | none => some ((false, u.slots cls index), u)
    else none
  | .localSwap cls index new, u =>
    if K.HasSlot cls index then some (u.slots cls index, u.setSlot cls index new) else none
  | .localTake cls index treeIdx frames, u =>
    if K.HasSlot cls index then
      match llReservedTake (u.slots cls index) treeIdx frames with
      | some new => some ((true, u.slots cls index), u.setSlot cls index new)
      | none => some ((false, u.slots cls index), u)
    else none

/-- The indivisible steps of a call: a call of the lower allocator, a read of its statistics,
or an access to a tree or a slot. -/
inductive UpOp where
  | lower (c : LowerCall)
  | lowerStatsAt (frame order : Nat)
  | table (o : TableOp)

abbrev UpOp.Res : UpOp → Type
  | .lower _ => Result
  | .lowerStatsAt .. => Stats
  | .table o => o.Res

/-- The steps without interference, the lower allocator running on its words. -/
def UpOp.exec (K : Config) : (o : UpOp) → Llfree Lower → Option (o.Res × Llfree Lower)
  | .lower c, s => (Prog.run LoOp.exec (c.prog K.frames) s.lower).map fun x =>
    (x.1, { s with lower := x.2 })
  | .lowerStatsAt frame order, s => some (Lower.lowerStatsAt s.lower frame order, s)
  | .table o, s => (o.exec K s.upper).map fun x => (x.1, { s with upper := x.2 })

abbrev UpProg := Prog UpOp UpOp.Res

def lowerGetStep (start order : Nat) (frame : Option Nat) : UpProg Result :=
  .step (.lower (.get start order frame)) .ret
def lowerPutStep (frame order : Nat) : UpProg Result := .step (.lower (.put frame order)) .ret
def lowerStatsStep (frame order : Nat) : UpProg Stats := .step (.lowerStatsAt frame order) .ret
def treesLoad (idx : Nat) : UpProg Tree := .step (.table (.treesLoad idx)) .ret
def treesCas (idx : Nat) (expected desired : Tree) : UpProg (Bool × Tree) :=
  .step (.table (.treesCas idx expected desired)) .ret
def treesSteal (idx frames cls : Nat) : UpProg (Option Nat) :=
  .step (.table (.treesSteal idx frames cls)) .ret
def treesPut (idx frames : Nat) : UpProg Unit := .step (.table (.treesPut idx frames)) .ret
def treesReserveOrSteal (idx frames cls : Nat) : UpProg (Option (Bool × Nat × Nat)) :=
  .step (.table (.treesReserveOrSteal idx frames cls)) .ret
def treesUnreserve (idx free cls : Nat) : UpProg Unit :=
  .step (.table (.treesUnreserve idx free cls)) .ret
def treesSyncSteal (idx min : Nat) : UpProg (Option Nat) :=
  .step (.table (.treesSyncSteal idx min)) .ret
def localDec (cls index : Nat) (treeIdx : Option Nat) (frames : Nat) : UpProg (Bool × Reserved) :=
  .step (.table (.localDec cls index treeIdx frames)) .ret
def localInc (cls index treeIdx frames : Nat) : UpProg Bool :=
  .step (.table (.localInc cls index treeIdx frames)) .ret
def localSetStart (cls index startRow : Nat) : UpProg (Bool × Reserved) :=
  .step (.table (.localSetStart cls index startRow)) .ret
def localSwap (cls index : Nat) (new : Reserved) : UpProg Reserved :=
  .step (.table (.localSwap cls index new)) .ret
def localTake (cls index : Nat) (treeIdx : Option Nat) (frames : Nat) : UpProg (Bool × Reserved) :=
  .step (.table (.localTake cls index treeIdx frames)) .ret

end LLFree.Code.Shared

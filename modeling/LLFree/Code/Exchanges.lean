/- module: LLFree/Code/Exchanges
   digest: The loads and exchanges that the accesses of a call consist of. -/

import LLFree.Atomic.Retrying
import LLFree.Code.Stack
import LLFree.Code.Updates

set_option autoImplicit false
set_option relaxedAutoImplicit false

namespace LLFree.Code.Exchanges

open LLFree.Atomic.Retrying LLFree.Code.Entries LLFree.Code.Trees LLFree.Code.Local
open LLFree.Code.Shared LLFree.Code.Stack LLFree.Code.Updates

/-! The variable of an update is what its callback reads and writes on every attempt: `*class` of
`tree_steal`, and 0 where there is none. -/

section Words

variable {R : Type}

/-- `atom_update` on a child entry. -/
def childUpdate (i : Nat) (fn : Child → Attempt Child Nat R) : Update (Llfree Lower) Nat R where
  Val := Child
  load s := if i < s.lower.entryCount then some (s.lower.children i) else none
  store child s := { s with lower := s.lower.setChild i child }
  vars := 0
  attempt child _ := fn child

/-- `atom_update` on a row of a bitfield. -/
def rowUpdate (row : Nat) (fn : Row → Attempt Row Nat R) : Update (Llfree Lower) Nat R where
  Val := Row
  load s := if row < s.lower.rowCount then some (s.lower.rows row) else none
  store v s := { s with lower := s.lower.setRow row v }
  vars := 0
  attempt v _ := fn v

/-- `atom_update` on a tree entry. -/
def treeUpdate (K : Config) (idx vars : Nat) (fn : Tree → Nat → Attempt Tree Nat R) :
    Update (Llfree Lower) Nat R where
  Val := Tree
  load s := if idx < K.treesLen then some (s.upper.trees idx) else none
  store tree s := { s with upper := s.upper.setTree idx tree }
  vars := vars
  attempt := fn

/-- `atom_update` on a slot. -/
def slotUpdate (K : Config) (cls index : Nat) (fn : Reserved → Attempt Reserved Nat R) :
    Update (Llfree Lower) Nat R where
  Val := Reserved
  load s := if K.HasSlot cls index then some (s.upper.slots cls index) else none
  store slot s := { s with upper := s.upper.setSlot cls index slot }
  vars := 0
  attempt slot _ := fn slot

/-- A callback that returns `new`, or false. -/
def stored {V : Type} (new : Option V) (done gone : R) : Attempt V Nat R :=
  match new with
  | some v => .stores v done 0
  | none => .gives gone

end Words

/-- The update that each access is, with its callback. -/
def wordUpdate (K : Config) : (o : WordOp) → Update (Llfree Lower) Nat o.Res
  | .lower (.childInc i order) => childUpdate i fun child =>
    stored (childInc child order) true false
  | .lower (.childDec i order) => childUpdate i fun child =>
    stored (childDec child order) true false
  | .lower (.rowZeros row order) => rowUpdate row fun v => match firstZerosAligned v order with
    | none => .fails
    | some none => .gives none
    | some (some (p, new)) => .stores new (some p) 0
  | .lower (.rowToggle row mask expected) =>
    rowUpdate row fun v => stored (rowToggle v mask expected) true false
  | .table (.treesSteal idx frames cls) => treeUpdate K idx cls fun tree c =>
    match treeStealAt frames K.policy tree c with
    | (some new, left) => .stores new (some left) left
    | (none, _) => .gives none
  | .table (.treesPut idx frames) => treeUpdate K idx 0 fun tree _ =>
    match treePut tree frames K.policy K.defaultClass with
    | some new => .stores new () 0
    | none => .fails
  | .table (.treesReserveOrSteal idx frames cls) => treeUpdate K idx 0 fun tree _ =>
    match treeReserveOrSteal tree frames K.policy cls with
    | some (new, reserved, target) => .stores new (some (reserved, tree.free, target)) 0
    | none => .gives none
  | .table (.treesUnreserve idx free cls) => treeUpdate K idx 0 fun tree _ =>
    match treeUnreserveAdd tree free cls K.policy K.defaultClass with
    | none => .fails
    | some none => .gives ()
    | some (some new) => .stores new () 0
  | .table (.treesSyncSteal idx min) => treeUpdate K idx 0 fun tree _ =>
    stored (treeSyncSteal tree min) (some tree.free) none
  | .table (.localDec cls index treeIdx frames) => slotUpdate K cls index fun slot =>
    stored (llReservedDec slot treeIdx frames) (true, slot) (false, slot)
  | .table (.localInc cls index treeIdx frames) => slotUpdate K cls index fun slot =>
    match llReservedInc slot treeIdx frames with
    | none => .fails
    | some new => stored new true false
  | .table (.localSetStart cls index startRow) => slotUpdate K cls index fun slot =>
    stored (llReservedSetStart slot startRow) (true, slot) (false, slot)
  | .table (.localSwap cls index new) => slotUpdate K cls index fun slot => .stores new slot 0
  | .table (.localTake cls index treeIdx frames) => slotUpdate K cls index fun slot =>
    stored (llReservedTake slot treeIdx frames) (true, slot) (false, slot)
  | o => .ofExec (WordOp.exec K o) 0

/-- `atom_load`, and `atom_cmp_exchange` outside of an update. -/
def isSingle : WordOp → Bool
  | .lower (.childLoad _) | .lower (.childCas ..) | .lower (.rowCas ..) => true
  | .buffer _ => true
  | .table (.treesLoad _) | .table (.treesCas ..) => true
  | _ => false

/-- How the accesses of a call are carried out. -/
def wordMeans (K : Config) : Means WordOp WordOp.Res (Llfree Lower) Nat where
  update := wordUpdate K
  single := isSingle

/-! ## Updates without interference -/

variable {K : Config}

private theorem outcome_stored {V R : Type} (store : V → Llfree Lower) (s : Llfree Lower)
    (new : Option V) (done gone : R) : (stored new done gone).outcome store s =
      some (match new with
        | some v => (done, store v)
        | none => (gone, s)) := by
  cases new <;> rfl

theorem once_wordUpdate (o : WordOp) : (wordUpdate K o).once = WordOp.exec K o := by
  funext s
  cases o with
  | buffer o => exact congrFun (Update.once_ofExec ..) s
  | lower o =>
    cases o with
    | childLoad i => exact congrFun (Update.once_ofExec ..) s
    | childCas i expected desired => exact congrFun (Update.once_ofExec ..) s
    | rowCas row expected desired => exact congrFun (Update.once_ofExec ..) s
    | rowZeros row order =>
      simp only [wordUpdate, Update.once, rowUpdate, WordOp.exec, LoOp.exec_rowZeros]
      split_ifs with inside
      · rw [Option.bind_some]
        rcases firstZerosAligned (s.lower.rows row) order with _ | _ | _ <;> rfl
      · rfl
    | _ =>
      simp only [wordUpdate, Update.once, childUpdate, rowUpdate, outcome_stored, WordOp.exec,
        LoOp.exec]
      split_ifs with inside
      · rw [Option.bind_some, Option.map_some]
        split
        all_goals
          next answer =>
            rw [answer]
            rfl
      · rfl
  | table o =>
    cases o with
    | treesLoad idx => exact congrFun (Update.once_ofExec ..) s
    | treesCas idx expected desired => exact congrFun (Update.once_ofExec ..) s
    | treesSteal idx frames cls =>
      simp only [wordUpdate, Update.once, treeUpdate, WordOp.exec, TableOp.exec, treeStealAt,
        treeSteal]
      split_ifs with inside few
      · rw [Option.bind_some, if_pos few]
        rfl
      · rw [Option.bind_some, if_neg few]
        cases (K.policy cls (s.upper.trees idx).cls (s.upper.trees idx).free).type <;> rfl
      · rfl
    | treesPut idx frames =>
      simp only [wordUpdate, Update.once, treeUpdate, WordOp.exec, TableOp.exec]
      split_ifs with inside
      · rw [Option.bind_some]
        cases treePut (s.upper.trees idx) frames K.policy K.defaultClass <;> rfl
      · rfl
    | treesReserveOrSteal idx frames cls =>
      simp only [wordUpdate, Update.once, treeUpdate, WordOp.exec, TableOp.exec]
      split_ifs with inside
      · rw [Option.bind_some]
        cases treeReserveOrSteal (s.upper.trees idx) frames K.policy cls <;> rfl
      · rfl
    | treesUnreserve idx free cls =>
      simp only [wordUpdate, Update.once, treeUpdate, WordOp.exec, TableOp.exec]
      split_ifs with inside
      · rw [Option.bind_some]
        rcases treeUnreserveAdd (s.upper.trees idx) free cls K.policy K.defaultClass with
          _ | _ | _ <;> rfl
      · rfl
    | localInc cls index treeIdx frames =>
      simp only [wordUpdate, Update.once, slotUpdate, WordOp.exec, TableOp.exec]
      split_ifs with has
      · rw [Option.bind_some]
        rcases llReservedInc (s.upper.slots cls index) treeIdx frames with _ | _ | _ <;> rfl
      · rfl
    | localSwap cls index new =>
      simp only [wordUpdate, Update.once, slotUpdate, WordOp.exec, TableOp.exec]
      split_ifs with has <;> rfl
    | _ =>
      simp only [wordUpdate, Update.once, treeUpdate, slotUpdate, outcome_stored, WordOp.exec,
        TableOp.exec]
      split_ifs with inside
      · rw [Option.bind_some]
        split
        all_goals
          next answer =>
            rw [answer]
            rfl
      · rfl

end LLFree.Code.Exchanges

/- module: LLFree/Upper/Slots
   digest: The tickets that the slots hold. -/

import LLFree.Upper.Moves
import Mathlib.Algebra.BigOperators.Group.Finset.Basic
import Mathlib.Algebra.Order.Group.Multiset
import LLFree.Code.Llfree

set_option autoImplicit false
set_option relaxedAutoImplicit false

namespace LLFree.Upper.Slots

open LLFree.Code.Types LLFree.Code.Trees LLFree.Code.Local LLFree.Code.Shared LLFree.Code.Llfree
open LLFree.Upper.Ledger

variable {K : Config}

theorem class_of_locals {c : Nat} (known : K.locals c ≠ none) : c < maxClasses := by
  by_contra big
  exact known (if_pos (Nat.le_of_not_lt big))

theorem hasSlot_class {c i : Nat} (has : K.HasSlot c i) : c < maxClasses := by
  obtain ⟨len, same, -⟩ := has
  exact class_of_locals (K := K) (by simp [same])

theorem mem_allSlots {t i : Nat} : (t, i) ∈ allSlots K ↔ K.HasSlot t i := by
  simp only [allSlots, List.mem_flatMap, List.mem_map, List.mem_range, Prod.mk.injEq,
    Config.HasSlot]
  constructor
  · rintro ⟨t', -, i', less, rfl, rfl⟩
    cases len : K.locals t' with
    | none => simp [len] at less
    | some n => exact ⟨n, rfl, by simpa [len] using less⟩
  · rintro ⟨len, same, less⟩
    have small : t < maxClasses := hasSlot_class ⟨len, same, less⟩
    exact ⟨t, small, i, by simpa [same] using less, rfl, rfl⟩

theorem hasSlot_less {c i count : Nat} (has : K.HasSlot c i) (locals : K.locals c = some count) :
    i < count := by
  obtain ⟨len, same, less⟩ := has
  rw [locals, Option.some.injEq] at same
  rwa [same]

/-- A slot is empty, or its row is one of the allocator. -/
def SlotOk (K : Config) (r : Reserved) : Prop :=
  if r.present then frameFromRow r.startRow < K.frames else r = noReserved

theorem slotOk_none : SlotOk K noReserved := rfl

theorem SlotOk.frame {r : Reserved} (ok : SlotOk K r) (present : r.present = true) :
    frameFromRow r.startRow < K.frames := by
  rwa [SlotOk, if_pos present] at ok

theorem SlotOk.tree {r : Reserved} (ok : SlotOk K r) (present : r.present = true) :
    treeFromRow r.startRow < K.treesLen := by
  have frame := ok.frame present
  simp only [treeFromRow, treeFromFrame, Config.treesLen, divCeil, treeSize] at frame ⊢
  omega

def slotTicket (c : Nat) (r : Reserved) : Tickets :=
  if r.present then owner (treeFromRow r.startRow) r.free c else 0

@[simp] theorem slotTicket_none (c : Nat) : slotTicket c noReserved = 0 := rfl

theorem slotTicket_present {c : Nat} {r : Reserved} (present : r.present = true) :
    slotTicket c r = owner (treeFromRow r.startRow) r.free c := if_pos present

def slotIds (K : Config) : Finset (Nat × Nat) := (allSlots K).toFinset

theorem mem_slotIds {p : Nat × Nat} : p ∈ slotIds K ↔ K.HasSlot p.1 p.2 := by
  rw [slotIds, List.mem_toFinset]
  exact mem_allSlots

def slotTickets (K : Config) (u : Upper) : Tickets :=
  ∑ p ∈ slotIds K, slotTicket p.1 (u.slots p.1 p.2)

def holders (K : Config) (u : Upper) (t : Nat) : Finset (Nat × Nat) :=
  (slotIds K).filter fun p =>
    (u.slots p.1 p.2).present = true ∧ treeFromRow (u.slots p.1 p.2).startRow = t

theorem mem_holders {u : Upper} {t : Nat} {p : Nat × Nat} : p ∈ holders K u t ↔ K.HasSlot p.1 p.2 ∧
    (u.slots p.1 p.2).present = true ∧ treeFromRow (u.slots p.1 p.2).startRow = t := by
  rw [holders, Finset.mem_filter, mem_slotIds]

theorem holders_empty {u : Upper} (empty : ∀ c i, K.HasSlot c i → (u.slots c i).present = false)
    (t : Nat) : holders K u t = ∅ := by
  apply Finset.eq_empty_of_forall_notMem
  intro p member
  obtain ⟨has, present, -⟩ := mem_holders.mp member
  rw [empty p.1 p.2 has] at present
  cases present

@[simp] theorem setTree_slots (u : Upper) (t : Nat) (tree : Tree) :
    (u.setTree t tree).slots = u.slots := rfl

@[simp] theorem setTree_trees (u : Upper) (t : Nat) (tree : Tree) :
    (u.setTree t tree).trees = Function.update u.trees t tree := rfl

@[simp] theorem setSlot_trees (u : Upper) (c i : Nat) (r : Reserved) :
    (u.setSlot c i r).trees = u.trees := rfl

@[simp] theorem slotTickets_setTree (u : Upper) (t : Nat) (tree : Tree) :
    slotTickets K (u.setTree t tree) = slotTickets K u := rfl

theorem setSlot_self (u : Upper) (c i : Nat) (r : Reserved) : (u.setSlot c i r).slots c i = r := by
  simp [Upper.setSlot]

theorem setSlot_other (u : Upper) {c i d j : Nat} (r : Reserved) (other : ¬ (d = c ∧ j = i)) :
    (u.setSlot c i r).slots d j = u.slots d j := by
  simp only [Upper.setSlot]
  by_cases same : d = c
  · subst same
    rw [Function.update_self, Function.update_of_ne fun here => other ⟨rfl, here⟩]
  · rw [Function.update_of_ne same]

theorem slotTickets_split (u : Upper) {c i : Nat} (has : K.HasSlot c i) :
    ∃ R, slotTickets K u = slotTicket c (u.slots c i) + R ∧
      ∀ r, slotTickets K (u.setSlot c i r) = slotTicket c r + R := by
  have member : (c, i) ∈ slotIds K := mem_slotIds.mpr has
  refine ⟨∑ p ∈ (slotIds K).erase (c, i), slotTicket p.1 (u.slots p.1 p.2),
    (Finset.add_sum_erase _ _ member).symm, fun r => ?_⟩
  rw [slotTickets, ← Finset.add_sum_erase _ _ member]
  congr 1
  · simp only [setSlot_self]
  · refine Finset.sum_congr rfl fun p mem => ?_
    rw [setSlot_other]
    rintro ⟨one, two⟩
    exact Finset.ne_of_mem_erase mem (Prod.ext one two)

theorem slotOk_setSlot {u : Upper} {c i : Nat} {r : Reserved} (ok : SlotOk K r)
    (slots : ∀ d j, K.HasSlot d j → SlotOk K (u.slots d j)) (d j : Nat) (has : K.HasSlot d j) :
    SlotOk K ((u.setSlot c i r).slots d j) := by
  by_cases same : d = c ∧ j = i
  · obtain ⟨rfl, rfl⟩ := same
    rwa [setSlot_self]
  · rw [setSlot_other u r same]
    exact slots d j has

/-! ## Accesses -/

/-- What an access that answers has done, with one case for each way it can go. -/
inductive Effect (K : Config) (u : Upper) : (o : TableOp) → o.Res → Upper → Prop
  | load {idx : Nat} : Effect K u (.treesLoad idx) (u.trees idx) u
  | exchanged {idx : Nat} {expected desired : Tree} : u.trees idx = expected →
    Effect K u (.treesCas idx expected desired) (true, expected) (u.setTree idx desired)
  | differed {idx : Nat} {expected desired : Tree} :
    Effect K u (.treesCas idx expected desired) (false, u.trees idx) u
  | stolen {idx n c class' : Nat} {tree : Tree} :
    treeSteal (u.trees idx) n c K.policy = some (tree, class') →
    Effect K u (.treesSteal idx n c) (some class') (u.setTree idx tree)
  | unstolen {idx n c : Nat} : Effect K u (.treesSteal idx n c) none u
  | put {idx n : Nat} {tree : Tree} :
    treePut (u.trees idx) n K.policy K.defaultClass = some tree →
    Effect K u (.treesPut idx n) () (u.setTree idx tree)
  | claimed {idx n c target : Nat} {tree : Tree} {reserved : Bool} : idx < K.treesLen →
    treeReserveOrSteal (u.trees idx) n K.policy c = some (tree, reserved, target) →
    Effect K u (.treesReserveOrSteal idx n c) (some (reserved, (u.trees idx).free, target))
      (u.setTree idx tree)
  | unclaimed {idx n c : Nat} : idx < K.treesLen →
    Effect K u (.treesReserveOrSteal idx n c) none u
  | unreserved {idx n c : Nat} {tree : Tree} :
    treeUnreserveAdd (u.trees idx) n c K.policy K.defaultClass = some (some tree) →
    Effect K u (.treesUnreserve idx n c) () (u.setTree idx tree)
  | unchanged {idx n c : Nat} :
    treeUnreserveAdd (u.trees idx) n c K.policy K.defaultClass = some none →
    Effect K u (.treesUnreserve idx n c) () u
  | synced {idx min : Nat} {tree : Tree} : treeSyncSteal (u.trees idx) min = some tree →
    Effect K u (.treesSyncSteal idx min) (some (u.trees idx).free) (u.setTree idx tree)
  | unsynced {idx min : Nat} : Effect K u (.treesSyncSteal idx min) none u
  | decreased {c i n : Nat} {treeIdx : Option Nat} {slot : Reserved} : K.HasSlot c i →
    llReservedDec (u.slots c i) treeIdx n = some slot →
    Effect K u (.localDec c i treeIdx n) (true, u.slots c i) (u.setSlot c i slot)
  | undecreased {c i n : Nat} {treeIdx : Option Nat} : K.HasSlot c i →
    Effect K u (.localDec c i treeIdx n) (false, u.slots c i) u
  | increased {c i treeIdx n : Nat} {slot : Reserved} : K.HasSlot c i →
    llReservedInc (u.slots c i) treeIdx n = some (some slot) →
    Effect K u (.localInc c i treeIdx n) true (u.setSlot c i slot)
  | unincreased {c i treeIdx n : Nat} : Effect K u (.localInc c i treeIdx n) false u
  | started {c i row : Nat} {slot : Reserved} : K.HasSlot c i →
    llReservedSetStart (u.slots c i) row = some slot →
    Effect K u (.localSetStart c i row) (true, u.slots c i) (u.setSlot c i slot)
  | unstarted {c i row : Nat} : Effect K u (.localSetStart c i row) (false, u.slots c i) u
  | swapped {c i : Nat} {new : Reserved} : K.HasSlot c i →
    Effect K u (.localSwap c i new) (u.slots c i) (u.setSlot c i new)
  | taken {c i n : Nat} {treeIdx : Option Nat} {slot : Reserved} : K.HasSlot c i →
    llReservedTake (u.slots c i) treeIdx n = some slot →
    Effect K u (.localTake c i treeIdx n) (true, u.slots c i) (u.setSlot c i slot)
  | untaken {c i n : Nat} {treeIdx : Option Nat} : K.HasSlot c i →
    Effect K u (.localTake c i treeIdx n) (false, u.slots c i) u

theorem table_effect {o : TableOp} {r : o.Res} {u u' : Upper} (done : o.exec K u = some (r, u')) :
    Effect K u o r u' := by
  cases o with
  | treesLoad idx =>
    simp only [TableOp.exec] at done
    split_ifs at done
    cases done
    exact .load
  | treesCas idx expected desired =>
    simp only [TableOp.exec] at done
    split_ifs at done with inside seen <;> cases done
    · exact .exchanged seen
    · exact .differed
  | treesSteal idx n c =>
    simp only [TableOp.exec] at done
    split_ifs at done
    split at done <;> rename_i step <;> cases done
    · exact .stolen step
    · exact .unstolen
  | treesPut idx n =>
    simp only [TableOp.exec] at done
    split_ifs at done
    obtain ⟨tree, step, same⟩ := Option.map_eq_some_iff.mp done
    cases same
    exact .put step
  | treesReserveOrSteal idx n c =>
    simp only [TableOp.exec] at done
    split_ifs at done with inside
    split at done <;> rename_i step <;> cases done
    · exact .claimed inside step
    · exact .unclaimed inside
  | treesUnreserve idx n c =>
    simp only [TableOp.exec] at done
    split_ifs at done
    obtain ⟨_ | tree, step, same⟩ := Option.map_eq_some_iff.mp done <;> cases same
    · exact .unchanged step
    · exact .unreserved step
  | treesSyncSteal idx min =>
    simp only [TableOp.exec] at done
    split_ifs at done
    split at done <;> rename_i step <;> cases done
    · exact .synced step
    · exact .unsynced
  | localDec c i treeIdx n =>
    simp only [TableOp.exec] at done
    split_ifs at done with has
    split at done <;> rename_i step <;> cases done
    · exact .decreased has step
    · exact .undecreased has
  | localInc c i treeIdx n =>
    simp only [TableOp.exec] at done
    split_ifs at done with has
    obtain ⟨_ | slot, step, same⟩ := Option.map_eq_some_iff.mp done <;> cases same
    · exact .unincreased
    · exact .increased has step
  | localSetStart c i row =>
    simp only [TableOp.exec] at done
    split_ifs at done with has
    split at done <;> rename_i step <;> cases done
    · exact .started has step
    · exact .unstarted
  | localSwap c i new =>
    simp only [TableOp.exec] at done
    split_ifs at done with has
    cases done
    exact .swapped has
  | localTake c i treeIdx n =>
    simp only [TableOp.exec] at done
    split_ifs at done with has
    split at done <;> rename_i step <;> cases done
    · exact .taken has step
    · exact .untaken has

/-! ## Entries -/

def Updates (K : Config) (tree tree' : Tree) : TableOp → Prop
  | .treesCas _ expected desired => tree = expected ∧ tree' = desired
  | .treesSteal _ n c => ∃ stolen, treeSteal tree n c K.policy = some (tree', stolen)
  | .treesPut _ n => treePut tree n K.policy K.defaultClass = some tree'
  | .treesReserveOrSteal _ n c =>
    ∃ reserved target, treeReserveOrSteal tree n K.policy c = some (tree', reserved, target)
  | .treesUnreserve _ n c => treeUnreserveAdd tree n c K.policy K.defaultClass = some (some tree')
  | .treesSyncSteal _ min => treeSyncSteal tree min = some tree'
  | _ => False

theorem table_entry {o : TableOp} {r : o.Res} {u u' : Upper} (done : o.exec K u = some (r, u'))
    (t : Nat) : u'.trees t = u.trees t ∨ Updates K (u.trees t) (u'.trees t) o := by
  have entry : ∀ idx tree, Updates K (u.trees idx) tree o →
      (u.setTree idx tree).trees t = u.trees t ∨
        Updates K (u.trees t) ((u.setTree idx tree).trees t) o := by
    intro idx tree updates
    rw [setTree_trees]
    by_cases same : t = idx
    · subst same
      rw [Function.update_self]
      exact Or.inr updates
    · rw [Function.update_of_ne same]
      exact Or.inl rfl
  cases table_effect done with
  | exchanged seen => exact entry _ _ ⟨seen, rfl⟩
  | stolen step => exact entry _ _ ⟨_, step⟩
  | put step => exact entry _ _ step
  | claimed _ step => exact entry _ _ ⟨_, _, step⟩
  | unreserved step => exact entry _ _ step
  | synced step => exact entry _ _ step
  | _ => exact Or.inl rfl

/-! ## Rows -/

/-- Row numbers of the allocator fit a slot. -/
def Fits (K : Config) : Prop := K.frames ≤ 2 ^ 41

instance (K : Config) : Decidable (Fits K) := inferInstanceAs (Decidable (K.frames ≤ 2 ^ 41))

theorem storeRow_eq {row : Nat} (fits : Fits K) (inside : frameFromRow row < K.frames) :
    storeRow row = row := by
  unfold Fits at fits
  simp only [frameFromRow, atomicSize] at inside
  exact Nat.mod_eq_of_lt (by simp only [startRowBits]; omega)

theorem rowFromTree_frame {t : Nat} (inside : t < K.treesLen) :
    frameFromRow (rowFromTree t) < K.frames ∧ treeFromRow (rowFromTree t) = t := by
  simp only [Config.treesLen, divCeil, frameFromRow, treeFromRow, rowFromTree, rowFromFrame,
    frameFromTree, treeFromFrame, treeSize, atomicSize] at inside ⊢
  omega

theorem rowFromFrame_tree (f : Nat) : treeFromRow (rowFromFrame f) = f / 4096 ∧
    frameFromRow (rowFromFrame f) ≤ f := by
  simp only [frameFromRow, treeFromRow, rowFromFrame, treeFromFrame, treeSize, atomicSize]
  omega

end LLFree.Upper.Slots

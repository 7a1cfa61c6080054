/- module: LLFree/Upper/Requests
   digest: What calls ask of the lower allocator, the trees and the slots, for any number of
   frames. -/

import LLFree.Atomic.Asking
import LLFree.Lower.Search
import LLFree.Upper.Sequential

/-!
Whatever the trees and slots say, the steps of a call stay within its request: the frames they
take from a counter are those of a block of its order, the classes they write are its class, and
the rows they store are rows of the allocator.
-/

set_option autoImplicit false
set_option relaxedAutoImplicit false

namespace LLFree.Upper.Requests

open LLFree.Atomic.Program LLFree.Atomic.Asking LLFree.Code.Types LLFree.Code.Entries
open LLFree.Code.Lower LLFree.Code.Trees LLFree.Code.Local LLFree.Code.Shared LLFree.Code.Llfree
open LLFree.Lower.GetPut LLFree.Lower.Quiet LLFree.Lower.FrameSet LLFree.Lower.Search
open LLFree.Upper.Slots LLFree.Upper.Calls LLFree.Upper.Sequential

/-! ## The discipline -/

/-- What a call is allowed: the classes it may write, the orders of its blocks, and whether it may
free memory or exchange entries. -/
structure Scope where
  classes : Nat → Prop
  orders : Nat → Prop
  frees : Prop
  changes : Prop

variable {K : Config} {S : Scope}

def Whole (orders : Nat → Prop) (n : Nat) : Prop := ∃ order, orders order ∧ n = 2 ^ order

def tableAsks (K : Config) (S : Scope) : TableOp → Prop
  | .treesSteal _ frames cls => Whole S.orders frames ∧ S.classes cls
  | .treesReserveOrSteal _ frames cls => Whole S.orders frames ∧ S.classes cls
  | .treesUnreserve _ _ cls => S.classes cls
  | .treesCas _ expected desired => S.changes ∧ desired.reserved = expected.reserved
  | .localSetStart _ _ startRow => frameFromRow startRow < K.frames
  | .localSwap _ _ new => SlotOk K new
  | _ => True

def tableAnswers (K : Config) : (o : TableOp) → o.Res → Prop
  | .treesReserveOrSteal idx _ cls, r =>
    idx < K.treesLen ∧ ∀ free target, r = some (true, free, target) → target = cls
  | .localDec .., r => SlotOk K r.2
  | .localTake .., r => SlotOk K r.2
  | .localSwap .., old => SlotOk K old
  | _, _ => True

def requests (K : Config) (S : Scope) : Discipline UpOp UpOp.Res where
  asks
    | .lower (.get _ order target) => S.orders order ∧ ∀ f, target = some f → Valid K.frames f order
    | .lower (.put frame order) => S.frees ∧ S.orders order ∧ Valid K.frames frame order
    | .lowerStatsAt .. => True
    | .table o => tableAsks K S o
  answers
    | .lower (.get _ order _), r => r.error = .ok → Valid K.frames r.frame order
    | .lower (.put ..), _ => True
    | .lowerStatsAt .., _ => True
    | .table o, r => tableAnswers K o r

/-! ## Stored rows -/

theorem storeRow_le (row : Nat) : storeRow row ≤ row := Nat.mod_le _ _

theorem frameFromRow_mono {row row' : Nat} (le : row' ≤ row)
    (inside : frameFromRow row < K.frames) :
    frameFromRow row' < K.frames :=
  lt_of_le_of_lt (Nat.mul_le_mul_right _ le) inside

theorem slotOk_row {r : Reserved} (present : r.present = true)
    (inside : frameFromRow r.startRow < K.frames) : SlotOk K r := by
  rwa [SlotOk, if_pos present]

theorem slotOk_dec {old new : Reserved} {treeIdx : Option Nat} {n : Nat} (ok : SlotOk K old)
    (step : llReservedDec old treeIdx n = some new) : SlotOk K new := by
  unfold llReservedDec at step
  split_ifs at step with absent
  cases step
  have present : old.present = true := by simpa using absent
  exact slotOk_row present (ok.frame present)

theorem slotOk_inc {old new : Reserved} {treeIdx n : Nat} (ok : SlotOk K old)
    (step : llReservedInc old treeIdx n = some (some new)) : SlotOk K new := by
  unfold llReservedInc at step
  split_ifs at step with other room
  · cases step
  · cases step
    have present : old.present = true := by simpa using (not_or.mp other).1
    exact slotOk_row present (ok.frame present)

theorem slotOk_setStart {old new : Reserved} {row : Nat} (inside : frameFromRow row < K.frames)
    (step : llReservedSetStart old row = some new) : SlotOk K new := by
  unfold llReservedSetStart at step
  split_ifs at step with other
  cases step
  have present : old.present = true := by simpa using (not_or.mp other).1
  exact slotOk_row present (frameFromRow_mono (storeRow_le row) inside)

theorem row_inside {order f : Nat} (valid : Valid K.frames f order) :
    frameFromRow (rowFromFrame f) < K.frames := by
  have below := (rowFromFrame_tree f).2
  have pos : 0 < 2 ^ order := Nat.two_pow_pos order
  have inside := valid.1
  omega

theorem treeChange_reserved {tree tree' : Tree} {c m d f : Nat} {operation : TreeOperation}
    (step : treeChange tree c m d operation f = some tree') : tree'.reserved = tree.reserved := by
  unfold treeChange at step
  cases operation <;> split_ifs at step <;> cases step <;> rfl

/-! ## The parts of an allocation -/

section Parts

variable {cls order i n : Nat} {treeIdx target : Option Nat} {α : Type}

abbrev Within (K : Config) (S : Scope) (p : UpProg α) : Prop :=
  (requests K S).Keeps p fun _ => True

theorem keeps_table {o : TableOp} {k : o.Res → UpProg α} {Q : α → Prop}
    (asks : tableAsks K S o)
    (rest : ∀ r, tableAnswers K o r → (requests K S).Keeps (k r) Q) :
    (requests K S).Keeps (.step (.table o) k) Q := ⟨asks, rest⟩

theorem within_get {start : Nat} {k : Result → UpProg α} (row : S.orders order)
    (valid : ∀ f, target = some f → Valid K.frames f order)
    (ok : ∀ r, r.error = .ok → Valid K.frames r.frame order → Within K S (k r))
    (err : ∀ r, r.error ≠ .ok → Within K S (k r)) :
    Within K S (.step (.lower (.get start order target)) k) := by
  refine ⟨⟨row, valid⟩, fun r fits => ?_⟩
  by_cases error : r.error = .ok
  · exact ok r error (fits error)
  · exact err r error

theorem within_swapReserved {c idx f : Nat} (known : S.classes c) (inside : idx < K.treesLen) :
    Within K S (swapReserved c i idx f) := by
  simp only [swapReserved, llLocalSwap, localSwap, treesUnreserve, makeResult]
  cases made : llReservedNew true f (rowFromTree idx) with
  | none => trivial
  | some new =>
    simp only [Prog.step_bind, Prog.ret_bind, Prog.pure_eq]
    apply keeps_table
    · unfold llReservedNew at made
      split_ifs at made
      cases made
      exact slotOk_row rfl (frameFromRow_mono (storeRow_le (rowFromTree idx))
        (rowFromTree_frame inside).1)
    · intro old _
      split_ifs
      · exact keeps_table known fun _ _ => trivial
      · trivial

theorem within_undo {idx f c : Nat} {reserved : Bool} (known : reserved = true → S.classes c) :
    Within K S (undoReserveOrSteal idx n reserved f c) := by
  simp only [undoReserveOrSteal, treesUnreserve, treesPut]
  split_ifs with kind
  · exact keeps_table (known kind) fun _ _ => trivial
  · exact keeps_table trivial fun _ _ => trivial

theorem within_allocateTaken {idx f c : Nat} {reserved : Bool} (row : S.orders order)
    (inside : idx < K.treesLen) (known : reserved = true → S.classes c) :
    Within K S (allocateTaken K order i idx reserved f c) := by
  simp only [allocateTaken, lowerGetStep, Prog.step_bind, Prog.ret_bind, Prog.pure_eq]
  have undo : ∀ r : Result, Within K S
      (undoReserveOrSteal idx (2 ^ order) reserved f c >>= fun _ => Prog.ret r) := fun r =>
    Discipline.keeps_bind (within_undo known) fun _ _ => trivial
  split_ifs with none kind
  · exact undo _
  · apply within_get row (by simp)
    · intro r error _
      rw [if_pos error]
      exact Discipline.keeps_bind (within_swapReserved (known kind) inside) fun _ _ => trivial
    · intro r error
      rw [if_neg error]
      exact undo r
  · apply within_get row (by simp)
    · intro r error _
      rw [if_pos error]
      trivial
    · intro r error
      rw [if_neg error]
      exact undo r

theorem within_reserveOrStealCb {idx : Nat} (row : S.orders order) (known : S.classes cls) :
    Within K S (reserveOrStealCb K order cls i idx) := by
  simp only [reserveOrStealCb, treesReserveOrSteal, Prog.step_bind, Prog.ret_bind, Prog.pure_eq]
  refine keeps_table ⟨⟨order, row, rfl⟩, known⟩ ?_
  rintro (_ | ⟨reserved, f, c⟩) ⟨inside, same⟩
  · trivial
  · apply within_allocateTaken row inside
    rintro rfl
    rwa [same f c rfl]

theorem within_stealCb {idx : Nat} (row : S.orders order) (known : S.classes cls) :
    Within K S (stealCb order cls idx) := by
  simp only [stealCb, treesSteal, lowerGetStep, treesPut, Prog.step_bind, Prog.ret_bind,
    Prog.pure_eq]
  refine keeps_table ⟨⟨order, row, rfl⟩, known⟩ ?_
  rintro (_ | c) -
  · trivial
  · apply within_get row (by simp)
    · intro r error _
      rw [if_pos error]
      trivial
    · intro r error
      rw [if_neg error]
      exact keeps_table trivial fun _ _ => trivial

theorem within_tryBest {cb : Nat → UpProg Result} (attempt : ∀ idx, Within K S (cb idx))
    (best : List Best) : Within K S (tryBest cb best) := by
  induction best with
  | nil => trivial
  | cons b rest ih =>
    simp only [tryBest]
    split_ifs
    · trivial
    · apply Discipline.keeps_bind (attempt b.idx)
      intro r _
      split_ifs
      · trivial
      · exact ih

theorem within_treesSearchBest {cb : Nat → UpProg Result} (start offset len : Nat)
    (rate : Nat → Nat → Policy) (attempt : ∀ idx, Within K S (cb idx)) :
    Within K S (treesSearchBest K start offset len rate cb) := by
  have scan : ∀ positions best, Within K S (scanBest K start rate cb positions best) := by
    intro positions
    induction positions with
    | nil => exact fun best => within_tryBest attempt best
    | cons j rest ih =>
      intro best
      simp only [scanBest, treesLoad, Prog.step_bind, Prog.ret_bind]
      refine keeps_table trivial fun tree _ => ?_
      split_ifs
      · exact ih best
      · exact ih best
      · apply Discipline.keeps_bind (attempt _)
        intro r _
        split_ifs
        · trivial
        · exact ih best
      · exact ih _
  exact scan _ _

theorem within_searchAndReserve {start : Nat} (row : S.orders order) (known : S.classes cls) :
    Within K S (searchAndReserve K cls i order start) := by
  have search : ∀ start offset len rate, Within K S
      (treesSearchBest K start offset len rate (reserveOrStealCb K order cls i)) :=
    fun start offset len rate => within_treesSearchBest start offset len rate fun _ =>
      within_reserveOrStealCb row known
  simp only [searchAndReserve]
  apply Discipline.keeps_assert
  intro _
  split_ifs
  · apply Discipline.keeps_bind (search ..)
    intro r _
    split_ifs
    · trivial
    · exact search ..
  · exact search ..

theorem within_getLocalWith {miss : LocalResult → UpProg (Result × Option Nat)}
    (row : S.orders order) (valid : ∀ f, target = some f → Valid K.frames f order)
    (missed : ∀ old, Within K S (miss old)) :
    Within K S (getLocalWith cls i order target miss) := by
  simp only [getLocalWith, llLocalGet, localDec, lowerGetStep, llLocalSetStart, localSetStart,
    treesPut, Prog.step_bind, Prog.ret_bind, Prog.pure_eq]
  refine keeps_table trivial fun old _ => ?_
  split_ifs
  · apply within_get row valid
    · intro r error fits
      rw [if_pos error]
      split_ifs
      · exact keeps_table (row_inside fits) fun _ _ => trivial
      · trivial
    · intro r error
      rw [if_neg error]
      exact keeps_table trivial fun _ _ => trivial
  · exact missed _

theorem within_syncWithGlobal {needed : Nat} {old : LocalResult} :
    Within K S (syncWithGlobal cls i needed old) := by
  simp only [syncWithGlobal, treesSyncSteal, llLocalPut, localInc, treesPut, Prog.step_bind,
    Prog.ret_bind, Prog.pure_eq]
  apply Discipline.keeps_assert
  intro _
  split_ifs
  · trivial
  · refine keeps_table trivial ?_
    rintro (_ | stolen) -
    · trivial
    · refine keeps_table trivial fun took _ => ?_
      split_ifs
      · trivial
      · exact keeps_table trivial fun _ _ => trivial

theorem within_getLocal {sync : Bool} (row : S.orders order)
    (valid : ∀ f, target = some f → Valid K.frames f order) :
    Within K S (getLocal cls i order target sync) := by
  apply within_getLocalWith row valid
  intro old
  split_ifs
  · apply Discipline.keeps_bind within_syncWithGlobal
    intro synced _
    split_ifs
    · exact within_getLocalWith row valid fun _ => trivial
    · trivial
  · trivial

/-! ## Other slots -/

theorem within_llLocalSteal : Within K S (llLocalSteal K cls i treeIdx n) := by
  have slot : ∀ c j, (requests K S).Keeps (stealSlot c j treeIdx n)
      fun r => ∀ a, r = some a → True := by
    intro c j
    simp only [stealSlot, localDec, Prog.step_bind, Prog.ret_bind, Prog.pure_eq]
    exact keeps_table trivial fun _ _ _ _ => trivial
  apply Discipline.keeps_search _ trivial
  rintro ⟨c, len⟩ -
  dsimp only
  split
  · exact Discipline.keeps_firstSome _ fun j _ => slot _ _
  · exact Discipline.keeps_firstSome _ fun j _ => slot _ _
  · exact fun _ _ => trivial
  · exact fun _ _ => trivial

theorem keeps_demoteTaken {slot : Option Nat} {old : Reserved} (ok : SlotOk K old) :
    (requests K S).Keeps (demoteTaken K cls slot treeIdx n old)
      fun d => d.unresClass = cls := by
  simp only [demoteTaken, localSwap]
  cases step : llReservedDec old treeIdx n with
  | none => trivial
  | some new =>
    simp only [Prog.step_bind, Prog.ret_bind, Prog.pure_eq]
    split_ifs
    · exact keeps_table (slotOk_dec ok step) fun _ _ => rfl
    · rfl

theorem keeps_llLocalDemoteAny {slot : Option Nat} :
    (requests K S).Keeps (llLocalDemoteAny K cls slot treeIdx n)
      fun d => d.found = true → d.unresClass = cls := by
  have take : ∀ c j, (requests K S).Keeps (demoteSlot K cls slot c j treeIdx n)
      fun r => ∀ d, r = some d → d.found = true → d.unresClass = cls := by
    intro c j
    simp only [demoteSlot, localTake, Prog.step_bind, Prog.ret_bind, Prog.pure_eq]
    refine keeps_table trivial fun r ok => ?_
    split_ifs
    · apply Discipline.keeps_bind (keeps_demoteTaken ok)
      rintro d same _ ⟨⟩ -
      exact same
    · rintro _ ⟨⟩
  apply Discipline.keeps_search
  · rintro ⟨⟩
  rintro ⟨c, len⟩ -
  dsimp only
  split
  · exact Discipline.keeps_firstSome _ fun j _ => take _ _
  · rintro _ ⟨⟩
  · rintro _ ⟨⟩
  · rintro _ ⟨⟩

private theorem within_slotGet (start c tree : Nat) (row : S.orders order)
    (valid : ∀ f, target = some f → Valid K.frames f order) :
    Within K S (.step (.lower (.get start order target)) fun r =>
      if r.error = .ok then Prog.ret (llfreeOk r.frame c)
      else .step (.table (.treesPut tree (2 ^ order))) fun _ =>
        Prog.ret (if r.error ≠ .memory then r else llfreeErr .memory)) := by
  apply within_get row valid
  · intro r error _
    rw [if_pos error]
    trivial
  · intro r error
    rw [if_neg error]
    exact keeps_table trivial fun _ _ => by split_ifs <;> trivial

theorem within_stealOrDemoteLocal {slot : Option Nat} (row : S.orders order) (known : S.classes cls)
    (valid : ∀ f, target = some f → Valid K.frames f order) :
    Within K S (stealOrDemoteLocal K ⟨order, cls, slot⟩ target) := by
  apply Discipline.keeps_bind (Q := fun _ => True)
  · simp only [stealLocal, lowerGetStep, treesPut, Prog.step_bind, Prog.ret_bind, Prog.pure_eq]
    apply Discipline.keeps_bind within_llLocalSteal
    intro r _
    split_ifs
    · exact within_slotGet _ _ _ row valid
    · trivial
  · intro r _
    split_ifs
    · trivial
    · simp only [demoteLocal, lowerGetStep, treesPut, treesUnreserve, Prog.step_bind, Prog.ret_bind,
        Prog.pure_eq]
      apply Discipline.keeps_bind keeps_llLocalDemoteAny
      intro d same
      split_ifs with found give
      · refine keeps_table ?_ fun _ _ => within_slotGet _ _ _ row valid
        change S.classes d.unresClass
        rwa [same found]
      · exact within_slotGet _ _ _ row valid
      · trivial

/-! ## The calls -/

theorem within_getAtGlobal {f : Nat} {slot : Option Nat} (row : S.orders order)
    (known : S.classes cls) (valid : Valid K.frames f order) :
    Within K S (getAtGlobal K f ⟨order, cls, slot⟩) := by
  have fits : ∀ g, some f = some g → Valid K.frames g order := by
    rintro _ ⟨⟩
    exact valid
  simp only [getAtGlobal, treesSteal, lowerGetStep, treesPut, Prog.step_bind, Prog.ret_bind,
    Prog.pure_eq]
  refine keeps_table ⟨⟨order, row, rfl⟩, known⟩ ?_
  rintro (_ | c) -
  · exact within_stealOrDemoteLocal row known fits
  · apply within_get row fits
    · intro r error _
      rw [if_pos error]
      trivial
    · intro r error
      rw [if_neg error]
      exact keeps_table trivial fun _ _ => trivial

theorem within_getSearch {slot : Option Nat} (row : S.orders order) (known : S.classes cls) :
    Within K S (getSearch K ⟨order, cls, slot⟩) := by
  have search : ∀ start, Within K S (treesSearchBest K start 0 K.treesLen
      (rateGlobalTree K cls (2 ^ order)) (stealCb order cls)) := fun start =>
    within_treesSearchBest _ _ _ _ fun _ => within_stealCb row known
  simp only [getSearch]
  cases slot with
  | none => exact search 0
  | some index =>
    dsimp only
    split_ifs
    · simp only [getBySlot]
      apply Discipline.keeps_bind (within_getLocal row (by simp))
      rintro ⟨r, start⟩ -
      dsimp only
      split_ifs
      · trivial
      · exact within_searchAndReserve row known
    · exact search _
    · exact search _

end Parts

variable {request : Request} {target : Option Nat}

theorem within_llfreeGet (row : S.orders request.order)
    (known : K.locals request.cls ≠ none → S.classes request.cls) :
    Within K S (llfreeGet K target request) := by
  simp only [llfreeGet]
  by_cases refused : validateRequest K request target = false
  · rw [if_pos refused]
    trivial
  · rw [if_neg refused]
    have checked := checked_of_valid (by simpa using refused)
    have valid := checked.target
    replace known := known checked.locals
    cases target with
    | none =>
      apply Discipline.keeps_bind (within_getSearch row known)
      intro r _
      split_ifs
      · trivial
      · exact within_stealOrDemoteLocal row known (by simp)
    | some f =>
      have global : Within K S (getAtGlobal K f request) :=
        within_getAtGlobal row known (valid f rfl)
      simp only [llfreeGetAt]
      apply Discipline.keeps_assert
      intro _
      cases slot : request.slot with
      | none => exact global
      | some index =>
        apply Discipline.keeps_bind (within_getLocal row valid)
        rintro ⟨r, start⟩ -
        dsimp only
        split_ifs
        · trivial
        · exact global

theorem within_llfreePut {f : Nat} (frees : S.frees) (row : S.orders request.order) :
    Within K S (llfreePut K f request) := by
  simp only [llfreePut, lowerPutStep, llLocalPut, localInc, treesPut, Prog.step_bind, Prog.ret_bind,
    Prog.pure_eq]
  split_ifs with refused
  · trivial
  · have valid := (checked_of_valid (by simpa using refused)).target f rfl
    refine ⟨⟨frees, row, valid⟩, fun r _ => ?_⟩
    dsimp only
    split_ifs
    · trivial
    · cases request.slot with
      | none => exact keeps_table trivial fun _ _ => trivial
      | some index =>
        refine keeps_table trivial fun took _ => ?_
        split_ifs
        · trivial
        · exact keeps_table trivial fun _ _ => trivial

theorem within_llfreeDrain (all : ∀ c < maxClasses, S.classes c) : Within K S (llfreeDrain K) := by
  apply Discipline.keeps_each
  rintro ⟨c, i⟩ member
  have known := all c (hasSlot_class (mem_allSlots.mp member))
  simp only [llLocalDrain, localSwap, treesUnreserve, Prog.step_bind, Prog.ret_bind, Prog.pure_eq,
    makeResult]
  refine keeps_table slotOk_none fun old _ => ?_
  split_ifs
  · exact keeps_table known fun _ _ => trivial
  · trivial

private theorem within_changeAt {turns idx : Nat} {matcher : TreeMatch} {change : TreeChange}
    (changes : S.changes) :
    Within K S (treesChangeAt turns matcher change idx) := by
  have loop : ∀ left old, Within K S (changeLoop idx matcher change left old) := by
    intro left
    induction left with
    | zero => exact fun _ => trivial
    | succ left ih =>
      intro old
      simp only [changeLoop, lowerStatsStep, treesCas, Prog.step_bind, Prog.ret_bind, Prog.pure_eq]
      split_ifs
      on_goal 1 => refine ⟨trivial, fun stats _ => ?_⟩; dsimp only
      all_goals
        split
        · trivial
        · rename_i desired step
          refine keeps_table ⟨changes, treeChange_reserved step⟩ fun r _ => ?_
          split_ifs
          · trivial
          · exact ih _
  simp only [treesChangeAt, treesLoad, Prog.step_bind, Prog.ret_bind]
  exact keeps_table trivial fun old _ => loop turns old

theorem within_llfreeChangeTree {turns : Nat} {matcher : TreeMatch} {change : TreeChange}
    (changes : S.changes) :
    Within K S (llfreeChangeTree K turns matcher change) := by
  simp only [llfreeChangeTree]
  split_ifs
  · trivial
  · cases matcher.id with
    | some idx =>
      dsimp only
      split_ifs
      · trivial
      · exact within_changeAt changes
    | none =>
      apply Discipline.keeps_search _ trivial
      intro j _
      apply Discipline.keeps_bind (within_changeAt changes)
      intro r _ _ _
      trivial

/-! ## Rows and lower allocators that stay in order -/

/-- The lower allocator is consistent and every slot keeps a row of the allocator. -/
structure Steady (K : Config) (s : Llfree Lower) : Prop where
  lower : Consistent K.frames s.lower
  slots : ∀ c i, K.HasSlot c i → SlotOk K (s.upper.slots c i)

private theorem table_serves {o : TableOp} {u u' : Upper} {r : o.Res}
    (asks : tableAsks K S o) (slots : ∀ c i, K.HasSlot c i → SlotOk K (u.slots c i))
    (done : o.exec K u = some (r, u')) :
    tableAnswers K o r ∧ ∀ c i, K.HasSlot c i → SlotOk K (u'.slots c i) := by
  cases table_effect done with
  | load | exchanged | differed | stolen | unstolen | put | unreserved | unchanged | synced
  | unsynced | unincreased | unstarted => exact ⟨trivial, slots⟩
  | claimed inside step =>
    refine ⟨⟨inside, ?_⟩, slots⟩
    rintro free target ⟨⟩
    unfold treeReserveOrSteal at step
    split_ifs at step
    split at step <;> cases step <;> rfl
  | unclaimed inside => exact ⟨⟨inside, by simp⟩, slots⟩
  | decreased has step =>
    exact ⟨slots _ _ has, slotOk_setSlot (slotOk_dec (slots _ _ has) step) slots⟩
  | increased has step => exact ⟨trivial, slotOk_setSlot (slotOk_inc (slots _ _ has) step) slots⟩
  | started has step => exact ⟨trivial, slotOk_setSlot (slotOk_setStart asks step) slots⟩
  | swapped has => exact ⟨slots _ _ has, slotOk_setSlot asks slots⟩
  | taken has step =>
    obtain ⟨taken, -, rfl⟩ := Option.map_eq_some_iff.mp step
    exact ⟨slots _ _ has, slotOk_setSlot slotOk_none slots⟩
  | undecreased has | untaken has => exact ⟨slots _ _ has, slots⟩

/-- Every step that stays within a request answers as promised and keeps the state steady. -/
theorem requests_serves (reach : K.frames ≤ 2 ^ 63)
    (row : ∀ order, S.orders order → RowOrHuge order) :
    (requests K S).Serves (UpOp.exec K) (Steady K) := by
  intro o s r s' asks ⟨cons, slots⟩ done
  cases o with
  | lower c =>
    obtain ⟨⟨r', l'⟩, run, same⟩ := Option.map_eq_some_iff.mp done
    obtain ⟨rfl, rfl⟩ := Prod.mk.inj same
    cases c with
    | get start order target =>
      have args : GetArgs K.frames start target := by
        refine ⟨?_, fun f same => ?_⟩
        · rintro rfl
          exact start_of_run (rowOrHuge_small order (row order asks.1)) run
        · have fits := (asks.2 f same).1
          have pos : 0 < 2 ^ order := Nat.two_pow_pos order
          omega
      obtain ⟨r'', l'', run', cons', exact⟩ := get_exact cons args (row order asks.1)
      rw [LowerCall.prog, run'] at run
      cases run
      refine ⟨fun error => ?_, cons', slots⟩
      rcases exact with ⟨f, rfl, valid, -⟩ | ⟨failed, -⟩
      · exact valid
      · exact absurd error failed
    | put frame order =>
      obtain ⟨-, legal, valid⟩ := asks
      have fits := valid.1
      have pos : 0 < 2 ^ order := Nat.two_pow_pos order
      obtain ⟨r'', l'', run', cons', -⟩ := call_refines cons (.put frame order)
        ⟨row order legal, by omega⟩
      rw [run'] at run
      cases run
      exact ⟨trivial, cons', slots⟩
  | lowerStatsAt frame order =>
    cases done
    exact ⟨trivial, cons, slots⟩
  | table o =>
    obtain ⟨⟨r', u'⟩, step, same⟩ := Option.map_eq_some_iff.mp done
    obtain ⟨rfl, rfl⟩ := Prod.mk.inj same
    obtain ⟨answer, slots'⟩ := table_serves asks slots step
    exact ⟨answer, cons, slots'⟩

def anyScope : Scope := ⟨fun _ => True, RowOrHuge, True, True⟩

theorem within_call {c : Call} {s : Llfree Lower} (row : RowCall c s) :
    Within K anyScope (c.prog K) := by
  cases c with
  | get frame request =>
    exact Discipline.keeps_bind (within_llfreeGet row fun _ => trivial) fun _ _ => trivial
  | put frame request =>
    exact Discipline.keeps_bind (within_llfreePut trivial row) fun _ _ => trivial
  | drain =>
    exact Discipline.keeps_bind (within_llfreeDrain fun _ _ => trivial) fun _ _ => trivial
  | changeTree turns matcher change =>
    exact Discipline.keeps_bind (within_llfreeChangeTree trivial) fun _ _ => trivial

/-- Complete calls leave a steady state, for any number of frames and any class changes. -/
theorem call_steady {c : Call} {s s' : Llfree Lower} {r : Option Result} (reach : K.frames ≤ 2 ^ 63)
    (row : RowCall c s) (steady : Steady K s) (run : c.run K s = some (r, s')) : Steady K s' :=
  (Discipline.run_keeps (requests_serves reach fun _ legal => legal) (within_call row) steady run).2

/-- Sequences of calls of row orders or of a huge frame, and of any changes of trees. -/
def RowCalls : Unit → Llfree Lower → Call → Option Result → Unit → Prop :=
  fun _ s c _ _ => RowCall c s

end LLFree.Upper.Requests

/- module: LLFree/Upper/Calls
   digest: Allocation, free and drain keep the books, whatever others do in between. -/

import LLFree.Upper.Steps

set_option autoImplicit false
set_option relaxedAutoImplicit false

namespace LLFree.Upper.Calls

open LLFree.Atomic.Program LLFree.Atomic.Escrow LLFree.Code.Types LLFree.Code.Trees
open LLFree.Code.Local LLFree.Code.Shared LLFree.Code.Llfree LLFree.Lower.GetPut
open LLFree.Upper.Ledger LLFree.Upper.Slots LLFree.Upper.Steps

variable {L : Type} {K : Config} {P : Promise K} {low : LowerModel L K.frames}
  {cls order i n : Nat} {target : Option Nat} {m : Tickets}

def Got (P : Promise K) (cls order : Nat) (target : Option Nat) (r : Result) (m : Tickets) : Prop :=
  (r.error = .ok ∧ m = live (r.frame / 4096) (2 ^ order) r.cls ∧ Valid K.frames r.frame order ∧
      (P.segregated → r.cls ≤ cls) ∧ ∀ f, target = some f → r.frame = f) ∨
    (r.error ≠ .ok ∧ m = 0)

theorem got_err {e : Err} (error : e ≠ .ok) : Got P cls order target (llfreeErr e) 0 :=
  Or.inr ⟨error, rfl⟩

theorem Got.none {r : Result} (got : Got P cls order target r m) (error : r.error ≠ .ok) : m = 0 :=
  (got.resolve_left fun ok => error ok.1).2

structure Wanted (P : Promise K) (low : LowerModel L K.frames) (cls order : Nat)
    (slot target : Option Nat) : Prop where
  orders : low.orders order
  slot : ∀ i, slot = some i → K.HasSlot cls i
  target : ∀ f, target = some f → Valid K.frames f order
  known : P.configured → cls < K.numClasses

/-! ## The own slot -/

def MissView (K : Config) (old : LocalResult) : Prop :=
  old.present = true → treeFromRow old.startRow < K.treesLen

def GotLocal (P : Promise K) (cls order : Nat) (target : Option Nat) (p : Result × Option Nat)
    (m : Tickets) : Prop :=
  Got P cls order target p.1 m ∧ ∀ t, p.2 = some t → t < K.treesLen

theorem safe_getLocalWith {miss : LocalResult → UpProg (Result × Option Nat)}
    (fits : Fits K) (wanted : Wanted P low cls order (some i) target)
    (missed : ∀ old, MissView K old →
      (upperAccounting P low).Ok (miss old) 0 (GotLocal P cls order target)) :
    (upperAccounting P low).Ok (getLocalWith cls i order target miss) 0
      (GotLocal P cls order target) := by
  have has := wanted.slot i rfl
  simp only [getLocalWith, llLocalGet, localDec, lowerGetStep, llLocalSetStart, localSetStart,
    treesPut, Prog.step_bind, Prog.ret_bind, Prog.pure_eq, makeResult]
  refine safe_localDec has (fun old view enough => ?_) fun old ok => ?_
  · have tree : treeFromRow old.startRow = frameFromRow old.startRow / 4096 := rfl
    simp only [if_true]
    rw [tree]
    refine safe_lowerGet wanted.orders view.frame (fun f same => ⟨wanted.target f same, ?_⟩)
      (fun r error valid here hit => ?_) fun r error => ?_
    · exact (view.asked (f / 4096) (by rw [same]; rfl)).symm
    · have got : GotLocal P cls order target (llfreeOk r.frame cls, none)
          (0 + live (frameFromRow old.startRow / 4096) (2 ^ order) cls) := by
        refine ⟨Or.inl ⟨rfl, ?_, valid, fun _ => le_refl cls, hit⟩, by simp⟩
        rw [zero_add, llfreeOk_frame, here]
        rfl
      rw [if_pos error]
      split_ifs
      · refine safe_localSetStart has fits ?_ fun _ => ⟨trivial, got⟩
        have below := (rowFromFrame_tree r.frame).2
        have pos : 0 < 2 ^ order := Nat.two_pow_pos order
        have inside := valid.1
        omega
      · exact ⟨trivial, got⟩
    · rw [if_neg error]
      refine safe_treesPut view.tree ⟨trivial, Or.inr ⟨error, rfl⟩, fun t same => ?_⟩
      cases same
      exact view.tree
  · simp only [Bool.false_eq_true, if_false]
    exact missed _ fun present => ok.tree present

theorem safe_syncWithGlobal {needed : Nat} {old : LocalResult} (has : K.HasSlot cls i)
    (view : MissView K old) (present : old.present = true) :
    (upperAccounting P low).Ok (syncWithGlobal cls i needed old) 0 (fun _ x => x = 0) := by
  have tree := view present
  simp only [syncWithGlobal, treesSyncSteal, llLocalPut, localInc, treesPut, Prog.step_bind,
    Prog.ret_bind, Prog.pure_eq]
  refine Accounting.safe_assert present ?_
  split_ifs
  · exact ⟨trivial, rfl⟩
  · refine safe_treesSyncSteal tree (fun n c => ?_) ⟨trivial, rfl⟩
    refine safe_localInc has ?_ ?_
    · exact ⟨trivial, rfl⟩
    · exact safe_treesPut tree ⟨trivial, rfl⟩

theorem safe_getLocal {sync : Bool} (fits : Fits K)
    (wanted : Wanted P low cls order (some i) target) :
    (upperAccounting P low).Ok (getLocal cls i order target sync) 0
      (GotLocal P cls order target) := by
  have miss : ∀ old, MissView K old → GotLocal P cls order target (localMiss old) 0 := by
    intro old view
    refine ⟨got_err (by simp), fun t same => ?_⟩
    simp only [localMiss] at same
    split_ifs at same with present
    cases same
    exact view present
  refine safe_getLocalWith fits wanted fun old view => ?_
  split_ifs with again
  · have present : old.present = true := (Bool.and_eq_true_iff.mp again).2
    refine Accounting.safe_bind (safe_syncWithGlobal (wanted.slot i rfl) view present) ?_
    rintro synced _ rfl
    split_ifs
    · exact safe_getLocalWith fits wanted fun old view => ⟨trivial, miss old view⟩
    · exact ⟨trivial, miss old view⟩
  · exact ⟨trivial, miss old view⟩

/-! ## Reserving and stealing trees -/

theorem safe_swapReserved {idx f : Nat} (fits : Fits K) (has : K.HasSlot cls i)
    (inside : idx < K.treesLen) (bound : f ≤ treeSize) :
    (upperAccounting P low).Ok (swapReserved cls i idx f) (m + owner idx f cls)
      (fun _ x => x = m) := by
  obtain ⟨frame, tree⟩ := rowFromTree_frame inside
  have new : llReservedNew true f (rowFromTree idx) = some ⟨true, f, rowFromTree idx⟩ := by
    rw [llReservedNew, if_pos bound, storeRow_eq fits frame]
  have ticket : owner idx f cls = slotTicket cls ⟨true, f, rowFromTree idx⟩ := by
    rw [slotTicket_present rfl, tree]
  simp only [swapReserved, llLocalSwap, new, localSwap, treesUnreserve, Prog.step_bind,
    Prog.ret_bind, Prog.pure_eq, makeResult]
  rw [ticket]
  refine safe_localSwap has frame fun old ok => ?_
  split_ifs with present
  · rw [slotTicket_present present]
    exact safe_treesUnreserve (ok.tree present) ⟨trivial, rfl⟩
  · exact ⟨trivial, by simp [slotTicket, present]⟩

def taken (idx n : Nat) (reserved : Bool) (oldFree c : Nat) : Tickets :=
  if reserved then owner idx oldFree c else credit idx n c

theorem safe_undoReserveOrSteal {idx oldFree c : Nat} {reserved : Bool}
    (inside : idx < K.treesLen) :
    (upperAccounting P low).Ok (undoReserveOrSteal idx n reserved oldFree c)
      (m + taken idx n reserved oldFree c) (fun _ x => x = m) := by
  simp only [undoReserveOrSteal, treesUnreserve, treesPut, taken]
  cases reserved with
  | true => exact safe_treesUnreserve inside ⟨trivial, rfl⟩
  | false => exact safe_treesPut inside ⟨trivial, rfl⟩

private theorem hasSlot_mod {c j : Nat} (some : (K.locals c).getD 0 ≠ 0) :
    K.HasSlot c (j % (K.locals c).getD 0) := by
  cases len : K.locals c with
  | none => simp [len] at some
  | some n =>
    simp only [len, Option.getD_some] at some ⊢
    exact ⟨n, len, Nat.mod_lt _ (Nat.pos_of_ne_zero some)⟩

theorem frameFromTree_tree (t : Nat) : frameFromTree t / 4096 = t := by
  simp only [frameFromTree, treeSize]
  omega

theorem frameFromTree_lt {t : Nat} (inside : t < K.treesLen) : frameFromTree t < K.frames := by
  simp only [Config.treesLen, divCeil, frameFromTree, treeSize] at inside ⊢
  omega

theorem safe_treeGet {idx c : Nat} {k : Result → UpProg Result} {Q : Result → Tickets → Prop}
    (orders : low.orders order) (inside : idx < K.treesLen)
    (ok : ∀ r, r.error = .ok → Valid K.frames r.frame order → r.frame / 4096 = idx →
      (upperAccounting P low).Ok (k r) (m + live idx (2 ^ order) c) Q)
    (err : ∀ r, r.error ≠ .ok →
      (upperAccounting P low).Ok (k r) (m + credit idx (2 ^ order) c) Q) :
    (upperAccounting P low).Ok (.step (.lower (.get (frameFromTree idx) order none)) k)
      (m + credit idx (2 ^ order) c) Q := by
  have tree := frameFromTree_tree idx
  have free : ∀ f, none = some f → Valid K.frames f order ∧
      f / 4096 = frameFromTree idx / 4096 := by
    simp
  have rule := safe_lowerGet (P := P) (m := m) (c := c) (k := k) (Q := Q) orders
    (frameFromTree_lt inside) free
  rw [tree] at rule
  exact rule (fun r error valid here _ => ok r error valid here) err

private theorem got_cls {idx c : Nat} {r : Result} (le : P.segregated → c ≤ cls)
    (error : r.error = .ok) (valid : Valid K.frames r.frame order) (here : r.frame / 4096 = idx) :
    Got P cls order none { r with cls := c } (live idx (2 ^ order) c) :=
  Or.inl ⟨error, by rw [← here], valid, le, by simp⟩

theorem safe_allocateTaken {idx oldFree c : Nat} {reserved : Bool} (fits : Fits K)
    (orders : low.orders order) (inside : idx < K.treesLen) (le : P.segregated → c ≤ cls)
    (enough : reserved = true → 2 ^ order ≤ oldFree ∧ oldFree ≤ treeSize) :
    (upperAccounting P low).Ok (allocateTaken K order i idx reserved oldFree c)
      (0 + taken idx (2 ^ order) reserved oldFree c) (Got P cls order none) := by
  have undo : ∀ r, r.error ≠ .ok → (upperAccounting P low).Ok
      (undoReserveOrSteal idx (2 ^ order) reserved oldFree c >>= fun _ => Prog.ret r)
      (0 + taken idx (2 ^ order) reserved oldFree c) (Got P cls order none) := by
    intro r error
    refine Accounting.safe_bind (safe_undoReserveOrSteal inside) ?_
    rintro _ _ rfl
    exact ⟨trivial, Or.inr ⟨error, rfl⟩⟩
  simp only [allocateTaken, lowerGetStep, Prog.step_bind, Prog.ret_bind, Prog.pure_eq]
  by_cases locals : (K.locals c).getD 0 = 0
  · rw [if_pos locals]
    exact undo _ (by simp)
  · rw [if_neg locals]
    cases reserved with
    | false =>
      refine safe_treeGet orders inside (fun r error valid here => ?_) fun r error => ?_
      · rw [if_pos error, if_neg (by simp), zero_add]
        exact ⟨trivial, got_cls le error valid here⟩
      · rw [if_neg error]
        exact undo r error
    | true =>
      obtain ⟨room, bound⟩ := enough rfl
      -- the block is taken out of the reservation in hand, and put back if there is none
      refine safe_split inside room (safe_treeGet orders inside (fun r error valid here => ?_)
        fun r error => ?_)
      · rw [if_pos error, if_pos rfl, zero_add, add_comm]
        refine Accounting.safe_bind
          (safe_swapReserved fits (hasSlot_mod locals) inside ((Nat.sub_le _ _).trans bound)) ?_
        rintro _ _ rfl
        exact ⟨trivial, got_cls le error valid here⟩
      · rw [if_neg error]
        refine safe_merge inside ?_
        rw [Nat.sub_add_cancel room]
        exact undo r error

theorem safe_reserveOrStealCb {idx : Nat} (fits : Fits K)
    (wanted : Wanted P low cls order none none) (inside : idx < K.treesLen) :
    (upperAccounting P low).Ok (reserveOrStealCb K order cls i idx) 0 (Got P cls order none) := by
  simp only [reserveOrStealCb, treesReserveOrSteal, Prog.step_bind, Prog.ret_bind, Prog.pure_eq]
  refine safe_reserveOrSteal inside (Nat.two_pow_pos order) wanted.known (fun f enough bound => ?_)
    (fun f c le => ?_) ⟨trivial, got_err (by simp)⟩
  · exact safe_allocateTaken fits wanted.orders inside (fun _ => le_refl cls) fun _ =>
      ⟨enough, bound⟩
  · exact safe_allocateTaken fits wanted.orders inside le (by simp)

theorem safe_stealCb {idx : Nat} (wanted : Wanted P low cls order none none)
    (inside : idx < K.treesLen) :
    (upperAccounting P low).Ok (stealCb order cls idx) 0 (Got P cls order none) := by
  simp only [stealCb, treesSteal, lowerGetStep, treesPut, Prog.step_bind, Prog.ret_bind,
    Prog.pure_eq]
  refine safe_treesSteal inside (Nat.two_pow_pos order) wanted.known (fun c le => ?_)
    ⟨trivial, got_err (by simp)⟩
  refine safe_treeGet wanted.orders inside (fun r error valid here => ?_) fun r error => ?_
  · rw [if_pos error, zero_add]
    exact ⟨trivial, got_cls le error valid here⟩
  · rw [if_neg error]
    exact safe_treesPut inside ⟨trivial, Or.inr ⟨error, rfl⟩⟩

/-! ## Searches -/

theorem searchIdx_lt {start j : Nat} (some : 0 < K.treesLen) :
    searchIdx start K.treesLen j < K.treesLen := Nat.mod_lt _ some

def BestOk (K : Config) (best : List Best) : Prop := ∀ b ∈ best, b.prio ≠ 0 → b.idx < K.treesLen

theorem bestOk_insert {prio : UInt8} {idx : Nat} {best : List Best} (ok : BestOk K best)
    (inside : idx < K.treesLen) : BestOk K (insertBest prio idx best) := by
  induction best with
  | nil => exact ok
  | cons b rest ih =>
    simp only [insertBest]
    split_ifs
    · intro x member used
      rcases List.mem_cons.mp member with rfl | old
      · exact inside
      · exact ok x (List.mem_of_mem_dropLast old) used
    · intro x member used
      rcases List.mem_cons.mp member with rfl | old
      · exact ok x List.mem_cons_self used
      · exact ih (fun y mem => ok y (List.mem_cons_of_mem b mem)) x old used

variable {cb : Nat → UpProg Result} {Q : Result → Tickets → Prop}

theorem safe_tryBest (fail : Q (llfreeErr .memory) 0)
    (back : ∀ r x, Q r x → r.error = .memory → x = 0)
    (attempt : ∀ idx < K.treesLen, (upperAccounting P low).Ok (cb idx) 0 Q) (best : List Best)
    (ok : BestOk K best) : (upperAccounting P low).Ok (tryBest cb best) 0 Q := by
  induction best with
  | nil => exact ⟨trivial, fail⟩
  | cons b rest ih =>
    simp only [tryBest]
    split_ifs with empty
    · exact ⟨trivial, fail⟩
    · refine Accounting.safe_bind (attempt b.idx (ok b List.mem_cons_self empty)) fun r x post => ?_
      split_ifs with error
      · exact ⟨trivial, post⟩
      · obtain rfl := back r x post (not_not.mp error)
        exact ih fun y mem => ok y (List.mem_cons_of_mem b mem)

theorem safe_scanBest {start : Nat} {rate : Nat → Nat → Policy} (some : 0 < K.treesLen)
    (fail : Q (llfreeErr .memory) 0) (back : ∀ r x, Q r x → r.error = .memory → x = 0)
    (attempt : ∀ idx < K.treesLen, (upperAccounting P low).Ok (cb idx) 0 Q) (positions : List Nat)
    (best : List Best) (ok : BestOk K best) :
    (upperAccounting P low).Ok (scanBest K start rate cb positions best) 0 Q := by
  induction positions generalizing best with
  | nil => exact safe_tryBest fail back attempt best ok
  | cons j rest ih =>
    have inside : searchIdx start K.treesLen j < K.treesLen := searchIdx_lt some
    simp only [scanBest, treesLoad, Prog.step_bind, Prog.ret_bind]
    refine safe_treesLoad inside fun tree => ?_
    split_ifs
    · exact ih best ok
    · exact ih best ok
    · refine Accounting.safe_bind (attempt _ inside) fun r x post => ?_
      split_ifs with error
      · exact ⟨trivial, post⟩
      · obtain rfl := back r x post (not_not.mp error)
        exact ih best ok
    · exact ih _ (bestOk_insert ok inside)

theorem safe_treesSearchBest {start offset len : Nat} {rate : Nat → Nat → Policy}
    (some : 0 < K.treesLen) (fail : Q (llfreeErr .memory) 0)
    (back : ∀ r x, Q r x → r.error = .memory → x = 0)
    (attempt : ∀ idx < K.treesLen, (upperAccounting P low).Ok (cb idx) 0 Q) :
    (upperAccounting P low).Ok (treesSearchBest K start offset len rate cb) 0 Q := by
  refine safe_scanBest some fail back attempt _ _ fun b member used => ?_
  rw [List.eq_of_mem_replicate member] at used
  exact absurd rfl used

theorem got_back (r : Result) (x : Tickets) (got : Got P cls order target r x)
    (error : r.error = .memory) : x = 0 := got.none (by simp [error])

theorem safe_searchAndReserve {start : Nat} (fits : Fits K)
    (wanted : Wanted P low cls order none none) (inside : start < K.treesLen) :
    (upperAccounting P low).Ok (searchAndReserve K cls i order start) 0 (Got P cls order none) := by
  have some : 0 < K.treesLen := by omega
  have search : ∀ start offset len rate, (upperAccounting P low).Ok
      (treesSearchBest K start offset len rate (reserveOrStealCb K order cls i)) 0
      (Got P cls order none) := fun _ _ _ _ =>
    safe_treesSearchBest some (got_err (by simp)) got_back fun _ inside =>
      safe_reserveOrStealCb fits wanted inside
  simp only [searchAndReserve]
  refine Accounting.safe_assert inside ?_
  split_ifs
  · refine Accounting.safe_bind (search ..) fun r x got => ?_
    split_ifs with error
    · exact ⟨trivial, got⟩
    · obtain rfl := got_back r x got (not_not.mp error)
      exact search ..
  · exact search ..

/-! ## Other slots -/

theorem mem_targetSlots {c first len : Nat} (member : (c, len) ∈ targetSlots K cls first)
    (j : Nat) :
    K.HasSlot c (j % len) := by
  simp only [targetSlots, List.mem_filterMap] at member
  obtain ⟨k, -, found⟩ := member
  split at found
  · cases found
  · cases found
  · rename_i nonzero same
    cases found
    exact ⟨len, same, Nat.mod_lt _ (Nat.pos_of_ne_zero nonzero)⟩

def Stolen (P : Promise K) (cls n : Nat) (treeIdx : Option Nat) (r : LocalResult) (x : Tickets) :
    Prop :=
  if r.success then
    x = credit (treeFromRow r.startRow) n r.cls ∧ (P.segregated → r.cls ≤ cls) ∧
      frameFromRow r.startRow < K.frames ∧ ∀ t, treeIdx = some t → treeFromRow r.startRow = t
  else x = 0

def Found {α : Type} (Q : α → Tickets → Prop) (r : Option α) (x : Tickets) : Prop :=
  match r with
  | some a => Q a x
  | none => x = 0

private theorem safe_stealSlot {treeIdx : Option Nat} {c : Nat} (has : K.HasSlot c i)
    (le : P.segregated → c ≤ cls) :
    (upperAccounting P low).Ok (stealSlot c i treeIdx n) 0 (Found (Stolen P cls n treeIdx)) := by
  simp only [stealSlot, localDec, Prog.step_bind, Prog.ret_bind, Prog.pure_eq]
  refine safe_localDec has (fun old view enough => ?_) fun old _ => ⟨trivial, rfl⟩
  exact ⟨trivial, zero_add _, le, view.frame, view.asked⟩

theorem safe_llLocalSteal {treeIdx : Option Nat} :
    (upperAccounting P low).Ok (llLocalSteal K cls i treeIdx n) 0 (Stolen P cls n treeIdx) := by
  refine Accounting.safe_search trivial rfl ?_
  rintro ⟨c, len⟩ member
  have below : (K.policy cls c n).type = .match ∨ (K.policy cls c n).type = .steal →
      P.segregated → c ≤ cls := by
    intro kind on
    have type := P.by_class on cls c n
    change (K.policy cls c n).type = _ at type
    rcases kind with kind | kind <;> rw [kind] at type <;> split_ifs at type <;> omega
  dsimp only
  split
  · rename_i kind
    exact Accounting.safe_firstSome trivial fun j _ =>
      safe_stealSlot (mem_targetSlots member _) (below (Or.inl kind))
  · rename_i kind
    exact Accounting.safe_firstSome trivial fun j _ =>
      safe_stealSlot (mem_targetSlots member _) (below (Or.inr kind))
  · exact ⟨trivial, rfl⟩
  · exact ⟨trivial, rfl⟩

/-- What a demotion ends with: frames for the allocation and possibly a reservation to give up,
or the whole reservation that was taken, when there is no slot to put it into. -/
def Demoted (P : Promise K) (cls n : Nat) (treeIdx : Option Nat) (r : DemoteAnyResult)
    (x : Tickets) : Prop :=
  if r.found then
    (frameFromRow r.row < K.frames ∧ (r.unreserve = true → treeFromRow r.unresRow < K.treesLen) ∧
      (∀ t, treeIdx = some t → treeFromRow r.row = t) ∧ r.unresClass = cls) ∧
    (x = credit (treeFromRow r.row) n cls +
        (if r.unreserve then owner (treeFromRow r.unresRow) r.unresFree cls else 0) ∨
      r.unreserve = true ∧ r.unresRow = r.row ∧
        ∃ c, (P.segregated → cls ≤ c) ∧ x = owner (treeFromRow r.row) (r.unresFree + n) c)
  else x = 0

private theorem safe_demoteTaken {slot treeIdx : Option Nat} {old : Reserved} {c : Nat}
    (view : SlotView K treeIdx old) (enough : n ≤ old.free) (lower : P.segregated → cls ≤ c)
    (known : P.configured → cls < K.numClasses) :
    (upperAccounting P low).Ok (demoteTaken K cls slot treeIdx n old)
      (0 + owner (treeFromRow old.startRow) old.free c) (Demoted P cls n treeIdx) := by
  have dec : llReservedDec old treeIdx n = some { old with free := old.free - n } := by
    cases treeIdx with
    | none => simp [llReservedDec, view.present, Nat.not_lt.mpr enough]
    | some t => simp [llReservedDec, view.present, view.asked t rfl, Nat.not_lt.mpr enough]
  simp only [demoteTaken, dec, localSwap, Prog.step_bind, Prog.ret_bind, Prog.pure_eq]
  split_ifs with has
  · refine safe_reclass view.tree lower known (safe_split view.tree enough ?_)
    rw [zero_add, add_comm, ← slotTicket_present (c := cls)
      (r := { old with free := old.free - n }) view.present]
    refine safe_localSwap has.1 (by simpa [SlotOk, view.present] using view.frame) fun prev ok => ?_
    refine ⟨trivial, ⟨view.frame, ok.tree, view.asked, rfl⟩, Or.inl ?_⟩
    rw [slotTicket]
  · refine ⟨trivial, ⟨view.frame, fun _ => view.tree, view.asked, rfl⟩,
      Or.inr ⟨rfl, rfl, c, lower, ?_⟩⟩
    simp only
    rw [zero_add, Nat.sub_add_cancel enough]

private theorem safe_demoteSlot {slot treeIdx : Option Nat} {c : Nat} (has : K.HasSlot c i)
    (lower : P.segregated → cls ≤ c) (known : P.configured → cls < K.numClasses) :
    (upperAccounting P low).Ok (demoteSlot K cls slot c i treeIdx n) 0
      (Found (Demoted P cls n treeIdx)) := by
  simp only [demoteSlot, localTake, Prog.step_bind, Prog.ret_bind, Prog.pure_eq]
  refine safe_localTake has (fun old view enough => ?_) fun old => ⟨trivial, rfl⟩
  refine Accounting.safe_bind (safe_demoteTaken view enough lower known) fun r x post => ?_
  exact ⟨trivial, post⟩

theorem safe_llLocalDemoteAny {slot treeIdx : Option Nat}
    (known : P.configured → cls < K.numClasses) :
    (upperAccounting P low).Ok (llLocalDemoteAny K cls slot treeIdx n) 0
      (Demoted P cls n treeIdx) := by
  refine Accounting.safe_search trivial rfl ?_
  rintro ⟨c, len⟩ member
  dsimp only
  split
  · rename_i kind
    refine Accounting.safe_firstSome trivial fun j _ =>
      safe_demoteSlot (mem_targetSlots member _) (fun on => ?_) known
    have type := P.by_class on cls c n
    change (K.policy cls c n).type = _ at type
    rw [kind] at type
    split_ifs at type
    omega
  · exact ⟨trivial, rfl⟩
  · exact ⟨trivial, rfl⟩
  · exact ⟨trivial, rfl⟩

private theorem safe_slotGet {row c : Nat} (orders : low.orders order)
    (frame : frameFromRow row < K.frames) (le : P.segregated → c ≤ cls)
    (valid : ∀ f, target = some f → Valid K.frames f order ∧ treeFromRow row = f / 4096) :
    (upperAccounting P low).Ok
      (.step (.lower (.get (frameFromRow row) order target)) fun r =>
        if r.error = .ok then Prog.ret (llfreeOk r.frame c)
        else .step (.table (.treesPut (treeFromRow row) (2 ^ order))) fun _ =>
          Prog.ret (if r.error ≠ .memory then r else llfreeErr .memory))
      (0 + credit (treeFromRow row) (2 ^ order) c) (Got P cls order target) := by
  have tree : treeFromRow row < K.treesLen := by
    simp only [treeFromRow, treeFromFrame, Config.treesLen, divCeil, treeSize] at frame ⊢
    omega
  change (upperAccounting P low).Ok _ (0 + credit (frameFromRow row / 4096) (2 ^ order) c) _
  refine safe_lowerGet orders frame
    (fun f same => ⟨(valid f same).1, (valid f same).2.symm⟩)
    (fun r error fits here hit => ?_) fun r error => ?_
  · rw [if_pos error, zero_add]
    exact ⟨trivial, Or.inl ⟨rfl, by rw [llfreeOk_frame, here]; rfl, fits, le, hit⟩⟩
  · rw [if_neg error]
    refine safe_treesPut tree ?_
    split_ifs
    · exact ⟨trivial, Or.inr ⟨error, rfl⟩⟩
    · exact ⟨trivial, got_err (by simp)⟩

theorem safe_stealLocal {slot : Option Nat} (wanted : Wanted P low cls order slot target) :
    (upperAccounting P low).Ok (stealLocal K ⟨order, cls, slot⟩ target) 0
      (Got P cls order target) := by
  simp only [stealLocal, lowerGetStep, treesPut, Prog.step_bind, Prog.ret_bind, Prog.pure_eq]
  refine Accounting.safe_bind safe_llLocalSteal fun r x stolen => ?_
  by_cases success : r.success = true
  · rw [Stolen, if_pos success] at stolen
    obtain ⟨rfl, le, frame, asked⟩ := stolen
    rw [if_pos success, ← zero_add (credit ..)]
    exact safe_slotGet wanted.orders frame le
      fun f same => ⟨wanted.target f same, asked (f / 4096) (by rw [same]; rfl)⟩
  · rw [Stolen, if_neg success] at stolen
    subst stolen
    rw [if_neg success]
    exact ⟨trivial, got_err (by simp)⟩

theorem safe_demoteLocal {slot : Option Nat} (wanted : Wanted P low cls order slot target) :
    (upperAccounting P low).Ok (demoteLocal K ⟨order, cls, slot⟩ target) 0
      (Got P cls order target) := by
  simp only [demoteLocal, lowerGetStep, treesPut, treesUnreserve, Prog.step_bind, Prog.ret_bind,
    Prog.pure_eq]
  refine Accounting.safe_bind (safe_llLocalDemoteAny wanted.known) fun r x demoted => ?_
  by_cases found : r.found = true
  · rw [Demoted, if_pos found] at demoted
    obtain ⟨⟨frame, other, asked, class'⟩, hand⟩ := demoted
    have get := safe_slotGet (P := P) wanted.orders frame (fun _ => le_refl cls)
      (fun f same => ⟨wanted.target f same, asked (f / 4096) (by rw [same]; rfl)⟩)
    rw [if_pos found]
    by_cases give : r.unreserve = true
    · rw [if_pos give, class']
      rcases hand with rfl | ⟨-, same, c, lower, rfl⟩
      · rw [if_pos give]
        refine safe_treesUnreserve (other give) ?_
        rwa [zero_add] at get
      · rw [← same, ← zero_add (owner ..)]
        refine safe_reclass (other give) lower wanted.known (safe_split (n := 2 ^ order)
          (other give) (Nat.le_add_left _ _) ?_)
        rw [Nat.add_sub_cancel, add_right_comm]
        refine safe_treesUnreserve (other give) ?_
        rw [same]
        exact get
    · rw [if_neg give]
      rcases hand with rfl | ⟨bad, -⟩
      · rw [if_neg give, add_zero]
        rwa [zero_add] at get
      · exact absurd bad give
  · rw [Demoted, if_neg found] at demoted
    subst demoted
    rw [if_neg found]
    exact ⟨trivial, got_err (by simp)⟩

theorem safe_stealOrDemoteLocal {slot : Option Nat} (wanted : Wanted P low cls order slot target) :
    (upperAccounting P low).Ok (stealOrDemoteLocal K ⟨order, cls, slot⟩ target) 0
      (Got P cls order target) := by
  refine Accounting.safe_bind (safe_stealLocal wanted) fun r x got => ?_
  split_ifs with error
  · exact ⟨trivial, got⟩
  · obtain rfl := got_back r x got (not_not.mp error)
    exact safe_demoteLocal wanted

/-! ## The calls -/

structure Checked (K : Config) (request : Request) (target : Option Nat) : Prop where
  order : request.order ≤ treeOrder
  locals : K.locals request.cls ≠ none
  slot : ∀ i, request.slot = some i → K.HasSlot request.cls i
  size : 2 ^ request.order ≤ K.frames
  target : ∀ f, target = some f → Valid K.frames f request.order

theorem checked_of_valid {request : Request} (valid : validateRequest K request target = true) :
    Checked K request target := by
  simp only [validateRequest] at valid
  by_cases big : request.order > treeOrder
  · rw [if_pos big] at valid
    cases valid
  rw [if_neg big] at valid
  cases count : K.locals request.cls with
  | none =>
    rw [count] at valid
    cases valid
  | some len =>
    simp only [count] at valid
    by_cases far : (request.slot.any (· ≥ len)) = true
    · rw [if_pos far] at valid
      cases valid
    rw [if_neg far] at valid
    by_cases huge : 2 ^ request.order > K.frames
    · rw [if_pos huge] at valid
      cases valid
    rw [if_neg huge] at valid
    refine ⟨Nat.le_of_not_lt big, by simp [count], fun i same => ⟨len, count, ?_⟩,
      Nat.le_of_not_lt huge, fun f same => ?_⟩
    · simp only [same, Option.any_some, decide_eq_true_eq, not_le] at far
      exact far
    · subst same
      simp only [Bool.and_eq_true, decide_eq_true_eq, beq_iff_eq] at valid
      exact ⟨by omega, Nat.dvd_of_mod_eq_zero valid.2⟩

theorem valid_of_checked {request : Request} (checked : Checked K request target) :
    validateRequest K request target = true := by
  obtain ⟨len, count⟩ := Option.ne_none_iff_exists'.mp checked.locals
  have slots : ¬ (request.slot.any (· ≥ len)) = true := by
    cases same : request.slot with
    | none => simp
    | some i => simpa using hasSlot_less (checked.slot i same) count
  simp only [validateRequest, count]
  rw [if_neg (Nat.not_lt_of_le checked.order), if_neg slots, if_neg (Nat.not_lt_of_le checked.size)]
  cases same : target with
  | none => rfl
  | some f =>
    obtain ⟨fits, aligned⟩ := checked.target f same
    have inside : f ≤ K.frames - 2 ^ request.order := by omega
    simp [inside, Nat.mod_eq_zero_of_dvd aligned]

theorem wanted_of_valid {request : Request} (known : P.configured → ∀ c, K.locals c ≠ none →
      c < K.numClasses) (orders : low.orders request.order)
    (valid : validateRequest K request target = true) :
    Wanted P low request.cls request.order request.slot target := by
  have checked := checked_of_valid valid
  exact ⟨orders, checked.slot, checked.target, fun on => known on _ checked.locals⟩

theorem Wanted.untargeted {slot : Option Nat} (wanted : Wanted P low cls order slot target) :
    Wanted P low cls order none none :=
  ⟨wanted.orders, by simp, by simp, wanted.known⟩

theorem safe_getAtGlobal {f : Nat} {slot : Option Nat}
    (wanted : Wanted P low cls order slot (some f)) :
    (upperAccounting P low).Ok (getAtGlobal K f ⟨order, cls, slot⟩) 0
      (Got P cls order (some f)) := by
  have valid := wanted.target f rfl
  have pos : 0 < 2 ^ order := Nat.two_pow_pos order
  have frame : f < K.frames := by
    have fits := valid.1
    omega
  have inside : f / 4096 < K.treesLen := by
    simp only [Config.treesLen, divCeil, treeSize]
    omega
  simp only [getAtGlobal, treesSteal, lowerGetStep, treesPut, Prog.step_bind, Prog.ret_bind,
    Prog.pure_eq]
  refine safe_treesSteal inside pos wanted.known (fun c le => ?_) (safe_stealOrDemoteLocal wanted)
  refine safe_lowerGet wanted.orders frame (fun g same => ?_) (fun r error fits here hit => ?_)
    fun r error => ?_
  · cases same
    exact ⟨valid, rfl⟩
  · rw [if_pos error, zero_add]
    exact ⟨trivial, Or.inl ⟨rfl, by rw [llfreeOk_frame, here]; rfl, fits, le, hit⟩⟩
  · rw [if_neg error]
    exact safe_treesPut inside ⟨trivial, Or.inr ⟨error, rfl⟩⟩

theorem safe_llfreeGetAt {f : Nat} {slot : Option Nat} (fits : Fits K)
    (wanted : Wanted P low cls order slot (some f)) :
    (upperAccounting P low).Ok (llfreeGetAt K f ⟨order, cls, slot⟩) 0
      (Got P cls order (some f)) := by
  have frame : f < K.frames := by
    have inside := (wanted.target f rfl).1
    have pos : 0 < 2 ^ order := Nat.two_pow_pos order
    omega
  refine Accounting.safe_assert frame ?_
  cases slot with
  | none => exact safe_getAtGlobal wanted
  | some index =>
    refine Accounting.safe_bind (safe_getLocal fits wanted) ?_
    rintro ⟨r, start⟩ x ⟨got, -⟩
    dsimp only
    split_ifs with error
    · exact ⟨trivial, got⟩
    · obtain rfl := got_back r x got (not_not.mp error)
      exact safe_getAtGlobal wanted

theorem start_lt {count index : Nat} (some : 0 < K.treesLen) (less : index < count) :
    K.treesLen / count * index < K.treesLen := by
  rcases Nat.eq_zero_or_pos (K.treesLen / count) with none | share
  · rw [none, Nat.zero_mul]
    exact some
  · calc K.treesLen / count * index < K.treesLen / count * count :=
          Nat.mul_lt_mul_of_pos_left less share
      _ ≤ K.treesLen := Nat.div_mul_le_self _ _

theorem safe_getBySlot {count index : Nat} (fits : Fits K)
    (wanted : Wanted P low cls order (some index) none) (len : K.locals cls = some count)
    (few : count < K.treesLen) :
    (upperAccounting P low).Ok (getBySlot K count index ⟨order, cls, some index⟩) 0
      (Got P cls order none) := by
  simp only [getBySlot]
  refine Accounting.safe_bind (safe_getLocal fits wanted) ?_
  rintro ⟨r, start⟩ x ⟨got, near⟩
  dsimp only
  split_ifs with error
  · exact ⟨trivial, got⟩
  · obtain rfl := got_back r x got (not_not.mp error)
    refine safe_searchAndReserve fits wanted.untargeted ?_
    cases start with
    | some t => exact near t rfl
    | none =>
      exact start_lt (by omega) (hasSlot_less (wanted.slot index rfl) len)

theorem safe_getSearch {request : Request} (fits : Fits K) (some : 0 < K.treesLen)
    (wanted : Wanted P low request.cls request.order request.slot none) :
    (upperAccounting P low).Ok (getSearch K request) 0
      (Got P request.cls request.order none) := by
  have search : ∀ start, (upperAccounting P low).Ok
      (treesSearchBest K start 0 K.treesLen (rateGlobalTree K request.cls (2 ^ request.order))
        (stealCb request.order request.cls)) 0 (Got P request.cls request.order none) :=
    fun _ => safe_treesSearchBest some (got_err (by simp)) got_back fun _ inside =>
      safe_stealCb wanted.untargeted inside
  obtain ⟨order, cls, slot⟩ := request
  simp only [getSearch]
  cases slot with
  | none => exact search 0
  | some index =>
    obtain ⟨count, len, less⟩ := wanted.slot index rfl
    simp only [len, Option.getD_some]
    split_ifs with own
    · exact safe_getBySlot fits wanted len own.2
    · exact search _
    · exact search _

theorem safe_llfreeGet {request : Request} (fits : Fits K) (some : 0 < K.treesLen)
    (known : P.configured → ∀ c, K.locals c ≠ none → c < K.numClasses)
    (orders : low.orders request.order) :
    (upperAccounting P low).Ok (llfreeGet K target request) 0
      (Got P request.cls request.order target) := by
  simp only [llfreeGet]
  by_cases refused : validateRequest K request target = false
  · rw [if_pos refused]
    exact ⟨trivial, got_err (by simp)⟩
  · rw [if_neg refused]
    have wanted := wanted_of_valid known orders (by simpa using refused)
    cases target with
    | some f => exact safe_llfreeGetAt fits wanted
    | none =>
      refine Accounting.safe_bind (safe_getSearch fits some wanted) fun r x got => ?_
      split_ifs with error
      · exact ⟨trivial, got⟩
      · obtain rfl := got_back r x got (not_not.mp error)
        exact safe_stealOrDemoteLocal wanted

/-- A free by somebody who holds a ticket for the block, or without segregation by anybody. -/
theorem safe_llfreePut {request : Request} {f c : Nat} {x : Tickets}
    (known : P.configured → ∀ c, K.locals c ≠ none → c < K.numClasses)
    (orders : low.orders request.order)
    (own : x = live (f / 4096) (2 ^ request.order) c ∨ ¬ P.segregated ∧ x = 0) :
    (upperAccounting P low).Ok (llfreePut K f request) x
      (fun r y => r.error = .ok ∧ y = 0 ∨ r.error ≠ .ok ∧ y = x) := by
  simp only [llfreePut, lowerPutStep, llLocalPut, localInc, treesPut, Prog.step_bind, Prog.ret_bind,
    Prog.pure_eq]
  split_ifs with refused
  · exact ⟨trivial, Or.inr ⟨by simp, rfl⟩⟩
  · have wanted : Wanted P low request.cls request.order request.slot (some f) :=
      wanted_of_valid known orders (by simpa using refused)
    have valid := wanted.target f rfl
    have inside : f / 4096 < K.treesLen := by
      have fits := valid.1
      have pos : 0 < 2 ^ request.order := Nat.two_pow_pos request.order
      simp only [Config.treesLen, divCeil, treeSize]
      omega
    rw [← zero_add x]
    refine safe_lowerPut orders valid own (fun r error => ?_) fun r error => ?_
    · rw [if_neg (not_not.mpr error)]
      have global : (upperAccounting P low).Ok
          (.step (.table (.treesPut (f / 4096) (2 ^ request.order))) fun _ =>
            Prog.ret (llfreeOk 0 0))
          (0 + credit (f / 4096) (2 ^ request.order) c)
          (fun r y => r.error = .ok ∧ y = 0 ∨ r.error ≠ .ok ∧ y = 0 + x) :=
        safe_treesPut inside ⟨trivial, Or.inl ⟨rfl, rfl⟩⟩
      cases slot : request.slot with
      | none => exact global
      | some index =>
        exact safe_localInc (wanted.slot index slot) ⟨trivial, Or.inl ⟨rfl, rfl⟩⟩ global
    · rw [if_pos error]
      exact ⟨trivial, Or.inr ⟨error, rfl⟩⟩

theorem safe_llfreeDrain : (upperAccounting P low).Ok (llfreeDrain K) m (fun _ x => x = m) := by
  refine Accounting.safe_each trivial ?_
  rintro ⟨t, i⟩ member
  simp only [llLocalDrain, localSwap, treesUnreserve, Prog.step_bind, Prog.ret_bind, Prog.pure_eq,
    makeResult]
  have swap : (upperAccounting P low).Ok (.step (.table (.localSwap t i noReserved)) fun old =>
      if old.present then
        .step (.table (.treesUnreserve (treeFromRow old.startRow) old.free t)) .ret
      else .ret ()) (m + slotTicket t noReserved) (fun _ x => x = m) := by
    refine safe_localSwap (mem_allSlots.mp member) slotOk_none fun old ok => ?_
    split_ifs with present
    · rw [slotTicket_present present]
      exact safe_treesUnreserve (ok.tree present) ⟨trivial, rfl⟩
    · exact ⟨trivial, by simp [slotTicket, present]⟩
  rwa [slotTicket_none, add_zero] at swap

end LLFree.Upper.Calls

/- module: LLFree/Upper/Taking
   digest: Allocations take one block or nothing, whatever the trees and slots say. -/

import LLFree.Upper.Calls

/-!
Trees and slots only steer a call: what it takes or gives back is decided by its steps on the
lower allocator. An accounting that follows nothing else has a rule for accesses to trees and
slots, which move nothing, and one for allocations, which give out the resource of one block.
-/

set_option autoImplicit false
set_option relaxedAutoImplicit false

namespace LLFree.Upper.Taking

open LLFree.Atomic.Program LLFree.Atomic.Escrow LLFree.Code.Types LLFree.Code.Trees
open LLFree.Code.Local LLFree.Code.Shared LLFree.Code.Llfree LLFree.Lower.GetPut
open LLFree.Upper.Calls

variable {S M D α β : Type} [AddCommMonoid M] [AddCommGroup D] {K : Config}
  {E : Accounting UpOp UpOp.Res S M D} {serves : Nat → Option Nat → Prop} {misses : Err → Prop}
  {taken : Nat → Nat → M}
  {m : M} {Q : α → M → Prop} {order : Nat} {target : Option Nat}

/-- An accounting that only allocations and frees of the lower allocator move. An allocation fails
with an error in `misses`. Faults and failed assertions are left open. -/
structure Blockwise (K : Config) (E : Accounting UpOp UpOp.Res S M D)
    (serves : Nat → Option Nat → Prop) (misses : Err → Prop) (taken : Nat → Nat → M) : Prop where
  aborts : E.mayAbort
  memory : misses .memory
  fails : ¬ misses .ok
  table : ∀ {α : Type} {m : M} {Q : α → M → Prop} {o : TableOp} {k : o.Res → UpProg α},
    (∀ r, E.Ok (k r) m Q) → E.Ok (.step (.table o) k) m Q
  get : ∀ {α : Type} {m : M} {Q : α → M → Prop} {start order : Nat} {target : Option Nat}
    {k : Result → UpProg α}, serves order target → (∀ f, target = some f → Valid K.frames f order) →
      (∀ r, r.error = .ok → Valid K.frames r.frame order → (∀ f, target = some f → r.frame = f) →
        E.Ok (k r) (m + taken r.frame order) Q) →
      (∀ r, misses r.error → E.Ok (k r) m Q) →
        E.Ok (.step (.lower (.get start order target)) k) m Q

variable (T : Blockwise K E serves misses taken)

/-! ## Rules -/

include T in
theorem Blockwise.miss {e : Err} (error : misses e) : e ≠ .ok := by
  rintro rfl
  exact T.fails error

def Takes (K : Config) (misses : Err → Prop) (taken : Nat → Nat → M) (order : Nat)
    (target : Option Nat) (r : Result) (m : M) : Prop :=
  (r.error = .ok ∧ Valid K.frames r.frame order ∧ (∀ f, target = some f → r.frame = f) ∧
      m = taken r.frame order) ∨
    (misses r.error ∧ m = 0)

theorem takes_err {e : Err} (error : misses e) :
    Takes K misses taken order target (llfreeErr e) 0 :=
  Or.inr ⟨error, rfl⟩

theorem takes_back (r : Result) (x : M) (takes : Takes K misses taken order target r x)
    (error : r.error = .memory) : x = 0 :=
  (takes.resolve_left fun ok => by simp [ok.1] at error).2

def Neutral (E : Accounting UpOp UpOp.Res S M D) (p : UpProg α) : Prop :=
  ∀ m, E.Ok p m fun _ x => x = m

theorem neutral_bind {p : UpProg β} {f : β → UpProg α} (first : Neutral E p)
    (rest : ∀ b, E.Ok (f b) m Q) : E.Ok (p >>= f) m Q := by
  refine Accounting.safe_bind (first m) ?_
  rintro b _ rfl
  exact rest b

include T

theorem neutral_assert {c : Prop} [Decidable c] : Neutral E (Prog.assert c) := by
  intro m
  unfold Prog.assert
  split_ifs
  · exact ⟨trivial, rfl⟩
  · exact T.aborts

private theorem safe_get {start : Nat} {k : Result → UpProg Result} {Q : Result → M → Prop}
    (orders : serves order target) (valid : ∀ f, target = some f → Valid K.frames f order)
    (ok : ∀ r, Takes K misses taken order target r (taken r.frame order) → r.error = .ok →
      E.Ok (k r) (taken r.frame order) Q)
    (err : ∀ r, misses r.error → E.Ok (k r) 0 Q) :
    E.Ok (.step (.lower (.get start order target)) k) 0 Q := by
  refine T.get orders valid (fun r error fits hit => ?_) err
  rw [zero_add]
  exact ok r (Or.inl ⟨error, fits, hit, rfl⟩) error

/-! ## The parts of an allocation -/

theorem neutral_swapReserved {cls i idx f : Nat} : Neutral E (swapReserved cls i idx f) := by
  intro m
  simp only [swapReserved, llLocalSwap, localSwap, treesUnreserve, makeResult]
  cases llReservedNew true f (rowFromTree idx) with
  | none => exact T.aborts
  | some new =>
    simp only [Prog.step_bind, Prog.ret_bind, Prog.pure_eq]
    refine T.table fun old => ?_
    split_ifs
    · exact T.table fun _ => ⟨trivial, rfl⟩
    · exact ⟨trivial, rfl⟩

theorem neutral_undoReserveOrSteal {idx n f c : Nat} {reserved : Bool} :
    Neutral E (undoReserveOrSteal idx n reserved f c) := by
  intro m
  simp only [undoReserveOrSteal, treesUnreserve, treesPut]
  split_ifs
  · exact T.table fun _ => ⟨trivial, rfl⟩
  · exact T.table fun _ => ⟨trivial, rfl⟩

theorem neutral_syncWithGlobal {cls i needed : Nat} {old : LocalResult} :
    Neutral E (syncWithGlobal cls i needed old) := by
  intro m
  simp only [syncWithGlobal, treesSyncSteal, llLocalPut, localInc, treesPut, Prog.step_bind,
    Prog.ret_bind, Prog.pure_eq]
  apply neutral_bind (neutral_assert T)
  intro _
  split_ifs
  · exact ⟨trivial, rfl⟩
  · apply T.table
    intro stolen
    cases stolen with
    | none => exact ⟨trivial, rfl⟩
    | some n =>
      apply T.table
      intro done
      split_ifs
      · exact ⟨trivial, rfl⟩
      · exact T.table fun _ => ⟨trivial, rfl⟩

omit T in
private theorem neutral_search {ι ρ : Type} {xs : List ι} {f : ι → UpProg (Option ρ)} {d : ρ}
    (attempt : ∀ x, Neutral E (f x)) :
    Neutral E (Prog.firstSome xs f >>= fun r => pure (r.getD d)) := by
  intro m
  refine Accounting.safe_search trivial rfl fun x _ =>
    Accounting.safe_post (attempt x m) fun r y same => ?_
  cases r <;> exact same

omit T in
private theorem neutral_firstSome {ι ρ : Type} {xs : List ι} {f : ι → UpProg (Option ρ)}
    (attempt : ∀ x, Neutral E (f x)) : Neutral E (Prog.firstSome xs f) := by
  intro m
  refine Accounting.safe_post (Accounting.safe_firstSome (Q := fun _ x => x = m) trivial
    fun x _ => Accounting.safe_post (attempt x m) fun r y same => ?_) fun r y post => ?_
  · cases r <;> exact same
  · cases r <;> exact post

theorem neutral_llLocalSteal {cls i n : Nat} {treeIdx : Option Nat} :
    Neutral E (llLocalSteal K cls i treeIdx n) := by
  refine neutral_search ?_
  rintro ⟨c, len⟩
  dsimp only
  have slots : Neutral E (Prog.firstSome (List.range len) fun j =>
      stealSlot c ((i + j) % len) treeIdx n) := neutral_firstSome fun j m => by
    simp only [stealSlot, localDec, Prog.step_bind, Prog.ret_bind, Prog.pure_eq]
    exact T.table fun _ => ⟨trivial, rfl⟩
  split
  · exact slots
  · exact slots
  · exact fun m => ⟨trivial, rfl⟩
  · exact fun m => ⟨trivial, rfl⟩

private theorem neutral_demoteTaken {cls n : Nat} {slot treeIdx : Option Nat} {old : Reserved} :
    Neutral E (demoteTaken K cls slot treeIdx n old) := by
  intro m
  simp only [demoteTaken, localSwap, Prog.step_bind, Prog.ret_bind, Prog.pure_eq]
  cases llReservedDec old treeIdx n with
  | none => exact T.aborts
  | some new =>
    dsimp only
    split_ifs
    · exact T.table fun _ => ⟨trivial, rfl⟩
    · exact ⟨trivial, rfl⟩

theorem neutral_llLocalDemoteAny {cls n : Nat} {slot treeIdx : Option Nat} :
    Neutral E (llLocalDemoteAny K cls slot treeIdx n) := by
  refine neutral_search ?_
  rintro ⟨c, len⟩
  dsimp only
  split
  · refine neutral_firstSome fun j m => ?_
    simp only [demoteSlot, localTake, Prog.step_bind, Prog.ret_bind, Prog.pure_eq]
    refine T.table fun taken => ?_
    split_ifs
    · exact neutral_bind (neutral_demoteTaken T) fun _ => ⟨trivial, rfl⟩
    · exact ⟨trivial, rfl⟩
  · exact fun m => ⟨trivial, rfl⟩
  · exact fun m => ⟨trivial, rfl⟩
  · exact fun m => ⟨trivial, rfl⟩

/-! ## Allocations -/

omit T in
theorem takes_cls {r : Result} {c : Nat} {x : M} (takes : Takes K misses taken order target r x) :
    Takes K misses taken order target { r with cls := c } x := takes

theorem takes_ok {r : Result} {c : Nat} {x : M} (takes : Takes K misses taken order target r x)
    (error : r.error = .ok) : Takes K misses taken order target (llfreeOk r.frame c) x :=
  Or.inl ⟨rfl, (takes.resolve_right fun bad => T.miss bad.1 error).2⟩

section Search

variable (orders : serves order none)

include orders

theorem takes_allocateTaken (i idx : Nat) (reserved : Bool) (oldFree c : Nat) :
    E.Ok (allocateTaken K order i idx reserved oldFree c) 0
      (Takes K misses taken order none) := by
  have undo : ∀ r, misses r.error → E.Ok
      (undoReserveOrSteal idx (2 ^ order) reserved oldFree c >>= fun _ => Prog.ret r) 0
      (Takes K misses taken order none) := fun r error =>
    neutral_bind (neutral_undoReserveOrSteal T) fun _ => ⟨trivial, Or.inr ⟨error, rfl⟩⟩
  simp only [allocateTaken, lowerGetStep, Prog.step_bind, Prog.ret_bind, Prog.pure_eq]
  split_ifs
  · exact undo _ T.memory
  · exact safe_get T orders (by simp)
      (fun r takes error => by
        rw [if_pos error]
        exact neutral_bind (neutral_swapReserved T) fun _ => ⟨trivial, takes_cls takes⟩)
      fun r error => by
        rw [if_neg (T.miss error)]
        exact undo r error
  · exact safe_get T orders (by simp)
      (fun r takes error => by
        rw [if_pos error]
        exact ⟨trivial, takes_cls takes⟩)
      fun r error => by
        rw [if_neg (T.miss error)]
        exact undo r error

theorem takes_reserveOrStealCb (cls i idx : Nat) :
    E.Ok (reserveOrStealCb K order cls i idx) 0 (Takes K misses taken order none) := by
  simp only [reserveOrStealCb, treesReserveOrSteal, Prog.step_bind, Prog.ret_bind, Prog.pure_eq]
  refine T.table fun got => ?_
  cases got with
  | none => exact ⟨trivial, takes_err T.memory⟩
  | some taken => exact takes_allocateTaken T orders ..

theorem takes_stealCb (cls idx : Nat) :
    E.Ok (stealCb order cls idx) 0 (Takes K misses taken order none) := by
  simp only [stealCb, treesSteal, lowerGetStep, treesPut, Prog.step_bind, Prog.ret_bind,
    Prog.pure_eq]
  refine T.table fun got => ?_
  cases got with
  | none => exact ⟨trivial, takes_err T.memory⟩
  | some c =>
    refine safe_get T orders (by simp) (fun r takes error => ?_) fun r error => ?_
    · rw [if_pos error]
      exact ⟨trivial, takes_cls takes⟩
    · rw [if_neg (T.miss error)]
      exact T.table fun _ => ⟨trivial, Or.inr ⟨error, rfl⟩⟩

omit orders in
theorem takes_treesSearchBest {cb : Nat → UpProg Result} (start offset len : Nat)
    (rate : Nat → Nat → Policy)
    (attempt : ∀ idx, E.Ok (cb idx) 0 (Takes K misses taken order target)) :
    E.Ok (treesSearchBest K start offset len rate cb) 0
      (Takes K misses taken order target) := by
  have best : ∀ best, E.Ok (tryBest cb best) 0 (Takes K misses taken order target) := by
    intro best
    induction best with
    | nil => exact ⟨trivial, takes_err T.memory⟩
    | cons b rest ih =>
      simp only [tryBest]
      split_ifs
      · exact ⟨trivial, takes_err T.memory⟩
      · refine Accounting.safe_bind (attempt b.idx) fun r x post => ?_
        split_ifs with error
        · exact ⟨trivial, post⟩
        · obtain rfl := takes_back r x post (not_not.mp error)
          exact ih
  unfold Code.Llfree.treesSearchBest
  generalize List.range' offset (len - offset) = positions
  generalize List.replicate 8 (⟨0, 0⟩ : Best) = found
  induction positions generalizing found with
  | nil => exact best found
  | cons j rest ih =>
    simp only [scanBest, treesLoad, Prog.step_bind, Prog.ret_bind]
    refine T.table fun tree => ?_
    split_ifs
    · exact ih found
    · exact ih found
    · refine Accounting.safe_bind (attempt _) fun r x post => ?_
      split_ifs with error
      · exact ⟨trivial, post⟩
      · obtain rfl := takes_back r x post (not_not.mp error)
        exact ih found
    · exact ih _

theorem takes_searchAndReserve (cls i start : Nat) :
    E.Ok (searchAndReserve K cls i order start) 0 (Takes K misses taken order none) := by
  have search := fun start offset len rate => takes_treesSearchBest T (K := K) start offset len
    rate (takes_reserveOrStealCb T orders cls i)
  apply neutral_bind (neutral_assert T)
  intro _
  dsimp only
  split_ifs
  · apply Accounting.safe_bind (search ..)
    intro r x post
    split_ifs with error
    · exact ⟨trivial, post⟩
    · obtain rfl := takes_back r x post (not_not.mp error)
      exact search ..
  · exact search ..

end Search

section Get

variable (orders : serves order target) (valid : ∀ f, target = some f → Valid K.frames f order)

include orders valid

theorem takes_getLocalWith {miss : LocalResult → UpProg (Result × Option Nat)} (cls i : Nat)
    (missed : ∀ old, E.Ok (miss old) 0 fun p => Takes K misses taken order target p.1) :
    E.Ok (getLocalWith cls i order target miss) 0
      fun p => Takes K misses taken order target p.1 := by
  simp only [getLocalWith, llLocalGet, localDec, lowerGetStep, llLocalSetStart, localSetStart,
    treesPut, Prog.step_bind, Prog.ret_bind, Prog.pure_eq, makeResult]
  refine T.table fun got => ?_
  split_ifs
  · refine T.get orders valid (fun r error fits hit => ?_) fun r error => ?_
    · rw [zero_add, if_pos error]
      split_ifs
      · exact T.table fun _ => ⟨trivial, Or.inl ⟨rfl, fits, hit, rfl⟩⟩
      · exact ⟨trivial, Or.inl ⟨rfl, fits, hit, rfl⟩⟩
    · rw [if_neg (T.miss error)]
      exact T.table fun _ => ⟨trivial, Or.inr ⟨error, rfl⟩⟩
  · exact missed _

theorem takes_getLocal (cls i : Nat) (sync : Bool) :
    E.Ok (getLocal cls i order target sync) 0
      fun p => Takes K misses taken order target p.1 := by
  have miss : ∀ old, E.Ok (Prog.ret (localMiss old)) 0
      fun p => Takes K misses taken order target p.1 := fun old => ⟨trivial, takes_err T.memory⟩
  refine takes_getLocalWith T orders valid cls i fun old => ?_
  split_ifs
  · refine neutral_bind (neutral_syncWithGlobal T) fun synced => ?_
    split_ifs
    · exact takes_getLocalWith T orders valid cls i miss
    · exact miss old
  · exact miss old

private theorem takes_slotGet (start c tree : Nat) :
    E.Ok
      (.step (.lower (.get start order target)) fun r =>
        if r.error = .ok then Prog.ret (llfreeOk r.frame c)
        else .step (.table (.treesPut tree (2 ^ order))) fun _ =>
          Prog.ret (if r.error ≠ .memory then r else llfreeErr .memory))
      0 (Takes K misses taken order target) := by
  refine safe_get T orders valid (fun r takes error => ?_) fun r error => ?_
  · rw [if_pos error]
    exact ⟨trivial, takes_ok T takes error⟩
  · rw [if_neg (T.miss error)]
    refine T.table fun _ => ?_
    split_ifs
    · exact ⟨trivial, Or.inr ⟨error, rfl⟩⟩
    · exact ⟨trivial, takes_err T.memory⟩

theorem takes_stealOrDemoteLocal (cls : Nat) (slot : Option Nat) :
    E.Ok (stealOrDemoteLocal K ⟨order, cls, slot⟩ target) 0
      (Takes K misses taken order target) := by
  have steal : E.Ok (stealLocal K ⟨order, cls, slot⟩ target) 0
      (Takes K misses taken order target) := by
    simp only [stealLocal, lowerGetStep, treesPut, Prog.step_bind, Prog.ret_bind, Prog.pure_eq]
    refine neutral_bind (neutral_llLocalSteal T) fun r => ?_
    split_ifs
    · exact takes_slotGet T orders valid ..
    · exact ⟨trivial, takes_err T.memory⟩
  have demote : E.Ok (demoteLocal K ⟨order, cls, slot⟩ target) 0
      (Takes K misses taken order target) := by
    simp only [demoteLocal, lowerGetStep, treesPut, treesUnreserve, Prog.step_bind, Prog.ret_bind,
      Prog.pure_eq]
    refine neutral_bind (neutral_llLocalDemoteAny T) fun r => ?_
    split_ifs
    · exact T.table fun _ => takes_slotGet T orders valid ..
    · exact takes_slotGet T orders valid ..
    · exact ⟨trivial, takes_err T.memory⟩
  refine Accounting.safe_bind steal fun r x post => ?_
  split_ifs with error
  · exact ⟨trivial, post⟩
  · obtain rfl := takes_back r x post (not_not.mp error)
    exact demote

end Get

section Target

variable {f : Nat} (orders : serves order (some f)) (valid : Valid K.frames f order)

include orders valid

theorem takes_getAtGlobal (cls : Nat) (slot : Option Nat) :
    E.Ok (getAtGlobal K f ⟨order, cls, slot⟩) 0 (Takes K misses taken order (some f)) := by
  have fits : ∀ g, some f = some g → Valid K.frames g order := by
    rintro g ⟨⟩
    exact valid
  simp only [getAtGlobal, treesSteal, lowerGetStep, treesPut, Prog.step_bind, Prog.ret_bind,
    Prog.pure_eq]
  refine T.table fun got => ?_
  cases got with
  | none => exact takes_stealOrDemoteLocal T orders fits ..
  | some c =>
    refine safe_get T orders fits (fun r takes error => ?_) fun r error => ?_
    · rw [if_pos error]
      exact ⟨trivial, takes_ok T takes error⟩
    · rw [if_neg (T.miss error)]
      exact T.table fun _ => ⟨trivial, Or.inr ⟨error, rfl⟩⟩

theorem takes_llfreeGetAt (cls : Nat) (slot : Option Nat) :
    E.Ok (llfreeGetAt K f ⟨order, cls, slot⟩) 0 (Takes K misses taken order (some f)) := by
  have fits : ∀ g, some f = some g → Valid K.frames g order := by
    rintro g ⟨⟩
    exact valid
  have frame : f < K.frames := by
    have inside := valid.1
    have pos : 0 < 2 ^ order := Nat.two_pow_pos order
    omega
  refine Accounting.safe_assert frame ?_
  cases slot with
  | none => exact takes_getAtGlobal T orders valid cls none
  | some index =>
    refine Accounting.safe_bind (takes_getLocal T orders fits cls index true) ?_
    rintro ⟨r, start⟩ x post
    dsimp only at post ⊢
    split_ifs with error
    · exact ⟨trivial, post⟩
    · obtain rfl := takes_back r x post (not_not.mp error)
      exact takes_getAtGlobal T orders valid cls (some index)

end Target

theorem takes_getSearch (orders : serves order none) (cls : Nat) (slot : Option Nat) :
    E.Ok (getSearch K ⟨order, cls, slot⟩) 0 (Takes K misses taken order none) := by
  have search := fun start => takes_treesSearchBest T (K := K) start 0 K.treesLen
    (rateGlobalTree K cls (2 ^ order)) (takes_stealCb T orders cls)
  simp only [getSearch]
  cases slot with
  | none => exact search 0
  | some index =>
    dsimp only
    split_ifs
    · refine Accounting.safe_bind (takes_getLocal T orders (by simp) cls index true) ?_
      rintro ⟨r, start⟩ x post
      dsimp only at post ⊢
      split_ifs with error
      · exact ⟨trivial, post⟩
      · obtain rfl := takes_back r x post (not_not.mp error)
        exact takes_searchAndReserve T orders ..
    · exact search _
    · exact search _

/-! ## Calls -/

/-- What `llfree_get` ends with: it refuses an invalid request, and otherwise takes a block or
fails. -/
def GetTakes (K : Config) (misses : Err → Prop) (taken : Nat → Nat → M) (request : Request)
    (target : Option Nat) (r : Result) (m : M) : Prop :=
  (validateRequest K request target = true ∧ Takes K misses taken request.order target r m) ∨
    (validateRequest K request target = false ∧ r = llfreeErr .argument ∧ m = 0)

theorem takes_llfreeGet {request : Request} (orders : serves request.order target) :
    E.Ok (llfreeGet K target request) 0 (GetTakes K misses taken request target) := by
  simp only [llfreeGet]
  split_ifs with refused
  · exact ⟨trivial, Or.inr ⟨refused, rfl, rfl⟩⟩
  · have good : validateRequest K request target = true := by simpa using refused
    have checked : Checked K request target := checked_of_valid good
    refine Accounting.safe_post ?_ fun r x takes => Or.inl ⟨good, takes⟩
    cases target with
    | some f => exact takes_llfreeGetAt T orders (checked.target f rfl) ..
    | none =>
      refine Accounting.safe_bind (takes_getSearch T orders ..) fun r x post => ?_
      split_ifs with error
      · exact ⟨trivial, post⟩
      · obtain rfl := takes_back r x post (not_not.mp error)
        exact takes_stealOrDemoteLocal T orders (by simp) ..

/-- What `llfree_put` ends with: it refuses an invalid request, and otherwise exchanges `x` for `y`
or, if `R` holds, may fail. -/
def PutGives (K : Config) (R : Prop) (request : Request) (f : Nat) (x y : M) (r : Result) (z : M) :
    Prop :=
  (validateRequest K request (some f) = true ∧
      (r = llfreeOk 0 0 ∧ z = y ∨ R ∧ r.error ≠ .ok ∧ z = x)) ∨
    (validateRequest K request (some f) = false ∧ r = llfreeErr .argument ∧ z = x)

/-- A free exchanges `x` for `y` if its step on the lower allocator does, which may refuse it
when `R` holds. -/
theorem gives_llfreePut {request : Request} {f : Nat} {x y : M} {R : Prop}
    (puts : ∀ {α : Type} {Q : α → M → Prop} {k : Result → UpProg α},
      Valid K.frames f request.order →
      (∀ r, r.error = .ok → E.Ok (k r) y Q) → (R → ∀ r, r.error ≠ .ok → E.Ok (k r) x Q) →
        E.Ok (.step (.lower (.put f request.order)) k) x Q) :
    E.Ok (llfreePut K f request) x (PutGives K R request f x y) := by
  simp only [llfreePut, lowerPutStep, llLocalPut, localInc, treesPut, Prog.step_bind, Prog.ret_bind,
    Prog.pure_eq]
  split_ifs with refused
  · exact ⟨trivial, Or.inr ⟨refused, rfl, rfl⟩⟩
  · have good : validateRequest K request (some f) = true := by simpa using refused
    have checked : Checked K request (some f) := checked_of_valid good
    have done : PutGives K R request f x y (llfreeOk 0 0) y := Or.inl ⟨good, Or.inl ⟨rfl, rfl⟩⟩
    have global : E.Ok (.step (.table (.treesPut (treeFromFrame f) (2 ^ request.order)))
        fun _ => Prog.ret (llfreeOk 0 0)) y (PutGives K R request f x y) :=
      T.table fun _ => ⟨trivial, done⟩
    refine puts (checked.target f rfl) (fun r ok => ?_) fun may r error => ?_
    · rw [if_neg (not_not.mpr ok)]
      cases request.slot with
      | none => exact global
      | some i =>
        refine T.table fun inc => ?_
        split_ifs
        · exact ⟨trivial, done⟩
        · exact global
    · rw [if_pos error]
      exact ⟨trivial, Or.inl ⟨good, Or.inr ⟨may, error, rfl⟩⟩⟩

theorem neutral_llfreeDrain : Neutral E (llfreeDrain K) := by
  intro m
  refine Accounting.safe_each trivial ?_
  rintro ⟨c, i⟩ -
  simp only [llLocalDrain, localSwap, treesUnreserve, Prog.step_bind, Prog.ret_bind, Prog.pure_eq,
    makeResult]
  refine T.table fun old => ?_
  split_ifs
  · exact T.table fun _ => ⟨trivial, rfl⟩
  · exact ⟨trivial, rfl⟩

end LLFree.Upper.Taking

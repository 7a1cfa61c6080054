/- module: LLFree/Upper/Conservation
   digest: Counters and reservations at every moment of any interleaving of calls. -/

import LLFree.Atomic.Pool
import LLFree.Upper.Balance
import Mathlib.Algebra.BigOperators.Ring.Finset

set_option autoImplicit false
set_option relaxedAutoImplicit false

namespace LLFree.Upper.Conservation

open LLFree.Atomic.Program LLFree.Atomic.Escrow LLFree.Atomic.Pool LLFree.Code.Types
open LLFree.Code.Entries LLFree.Code.Lower LLFree.Code.Trees LLFree.Code.Local LLFree.Code.Shared
open LLFree.Code.Llfree LLFree.Code.Setup LLFree.Lower.Quiet LLFree.Lower.FrameSet
open LLFree.Lower.FreeCount LLFree.Upper.Ledger LLFree.Upper.Slots LLFree.Upper.Steps
open LLFree.Upper.Calls LLFree.Upper.Sequential LLFree.Upper.Balance

variable {L : Type} {K : Config} {low : LowerModel L K.frames} {ι : Type} [Fintype ι]
  [DecidableEq ι]

/-! ## Threads -/

/-- The calls of a thread: allocations, frees of any block, drains. The lower allocator serves the
orders that validation lets pass. -/
inductive ThreadCall (low : LowerModel L K.frames) : Unit → Unit → UpProg Unit → Prop
  | get (frame : Option Nat) (request : Request)
      (served : request.order ≤ treeOrder → low.orders request.order) :
      ThreadCall low () () (llfreeGet K frame request >>= fun _ => pure ())
  | put (frame : Nat) (request : Request)
      (served : request.order ≤ treeOrder → low.orders request.order) :
      ThreadCall low () () (llfreePut K frame request >>= fun _ => pure ())
  | drain : ThreadCall low () () (llfreeDrain K)

/-- Threads over one allocator. Their ledgers count the frames and reservations that the steps
of the current call took out of counters, entries and slots and have not put back. -/
abbrev UpperThreads (L ι : Type) := Threads UpOp UpOp.Res (Llfree L) Amount Unit ι

def UpperReaches (low : LowerModel L K.frames) (s : Llfree L) (T : UpperThreads L ι) : Prop :=
  Reaches (upperSys K low) upperDelta (ThreadCall low) (Threads.idle s fun _ => ()) T

/-- An allocator after initialisation: no reservations, and counters as in the lower allocator. -/
structure Started (low : LowerModel L K.frames) (s : Llfree L) : Prop where
  frames : minPages ≤ K.frames ∧ K.frames ≤ maxPages
  good : low.good s.lower
  trees : ∀ t < K.treesLen,
    s.upper.trees t = ⟨false, K.defaultClass, treeFree (low.free s.lower) t⟩
  slots : ∀ c i, K.HasSlot c i → s.upper.slots c i = noReserved

/-! ## What holds at any moment -/

/-- A slot holds tree `t` and no thread does, or one thread and nobody else. -/
def OneOwner (K : Config) (T : UpperThreads L ι) (t : Nat) : Prop :=
  ((holders K T.mem.upper t).card = 1 ∧ ∀ i, (T.ledger i).2 t = 0) ∨
    (holders K T.mem.upper t = ∅ ∧ ∃ i, (T.ledger i).2 t = 1 ∧ ∀ j, j ≠ i → (T.ledger j).2 t = 0)

structure Conserved (low : LowerModel L K.frames) (T : UpperThreads L ι) : Prop where
  /-- The counters of a tree and its slots and the amounts in flight are its free frames. -/
  balance : ∀ t < K.treesLen, ((T.mem.upper.trees t).free : Int) +
    ∑ p ∈ holders K T.mem.upper t, ((T.mem.upper.slots p.1 p.2).free : Int) +
      ∑ i, (T.ledger i).1 t = treeFree (low.free T.mem.lower) t
  flight : ∀ i t, 0 ≤ (T.ledger i).1 t
  reserved : ∀ t < K.treesLen, (T.mem.upper.trees t).reserved = true → OneOwner K T t
  unreserved : ∀ t < K.treesLen, (T.mem.upper.trees t).reserved = false →
    holders K T.mem.upper t = ∅ ∧ ∀ i, (T.ledger i).2 t = 0
  idle : ∀ i, T.thread i = .ret () → T.ledger i = 0
  /-- A reservation that is given up is one of a tree marked reserved. -/
  unreserve : ∀ i idx free cls k, T.thread i = .step (.table (.treesUnreserve idx free cls)) k →
    (T.mem.upper.trees idx).reserved = true
  /-- No thread stands at a failed assertion, or before an access that fails. -/
  assertions : ∀ i, T.thread i ≠ .abort ∧
    ∀ o k, T.thread i = .step (.table o) k → o.exec K T.mem.upper ≠ none

/-! ## The resources of a thread -/

def plainPromise (K : Config) : Promise K where
  configured := False
  segregated := False
  pristine := False
  default_known := unknown
  by_class := unordered
  never_invalid := unmatched

def threadBacking : Backing Unit Tickets where
  held _ m := ∀ k ∈ m, k.kind = .live
  keeps _ _ := True

theorem amount_lives {m : Tickets} (lives : ∀ k ∈ m, k.kind = .live) :
    upperAmount m = 0 := by
  rw [amount_apply]
  ext t
  · have none : counted t m = 0 := by
      apply tally_elsewhere
      intro k member both
      exact both.2 (lives k member)
    simp [none]
  · have none : owners t m = 0 := by
      apply tally_elsewhere
      intro k member both
      rw [lives k member] at both
      cases both.2
    simp [none]

private theorem safe_call {α : Type} {p : UpProg α} {m : Tickets} {Q : α → Tickets → Prop}
    (safe : (upperAccounting (plainPromise K) low).Ok p 0 Q)
    (out : ∀ a x, Q a x → ∀ k ∈ x, k.kind = .live) (lives : ∀ k ∈ m, k.kind = .live) :
    (upperAccounting (plainPromise K) low).Ok (p >>= fun _ => pure ()) m threadBacking.held := by
  have framed := Accounting.safe_frame safe m
  rw [zero_add] at framed
  apply Accounting.safe_bind (Accounting.safe_mono framed (fun _ _ => trivial) fun _ _ post => post)
  rintro a x ⟨y, post, rfl⟩
  refine ⟨trivial, fun k member => ?_⟩
  rcases Multiset.mem_add.mp member with mine | before
  · exact out a y post k mine
  · exact lives k before

theorem refused_order {request : Request} {frame : Option Nat}
    (big : ¬ request.order ≤ treeOrder) : validateRequest K request frame = false := by
  simp only [validateRequest]
  rw [if_pos (by omega)]

theorem thread_calls (fits : Fits K) (some : 0 < K.treesLen) :
    Calls (upperAccounting (plainPromise K) low) threadBacking 0 (ThreadCall low) := by
  refine ⟨fun h k p m s F lives _ call => ?_, fun h m lives => amount_lives lives⟩
  cases call with
  | get frame request served =>
    by_cases small : request.order ≤ treeOrder
    · refine safe_call (safe_llfreeGet fits some False.elim (served small)) ?_ lives
      intro r x got k member
      rcases got with ⟨-, rfl, -⟩ | ⟨-, rfl⟩
      · rw [mem_live.mp member]
      · exact absurd member (Multiset.notMem_zero k)
    · simp only [llfreeGet, refused_order small, if_true]
      exact ⟨trivial, lives⟩
  | put frame request served =>
    by_cases small : request.order ≤ treeOrder
    · refine safe_call (safe_llfreePut (c := 0) False.elim (served small)
        (Or.inr ⟨not_false, rfl⟩)) ?_ lives
      intro r x put k member
      have none : x = 0 := put.elim (fun ok => ok.2) fun err => err.2
      rw [none] at member
      exact absurd member (Multiset.notMem_zero k)
    · simp only [llfreePut, refused_order small, if_true]
      exact ⟨trivial, lives⟩
  | drain =>
    apply Accounting.safe_post safe_llfreeDrain
    rintro _ x rfl
    exact lives

/-! ## From the balance to the counters -/

private theorem sound_of_started {s : Llfree L} (start : Started low s) :
    Sound (plainPromise K) low s 0 := by
  refine ⟨start.good, fun c i has => ?_, ?_⟩
  · rw [start.slots c i has]
    exact slotOk_none
  · rw [slotTickets_empty start.slots, add_zero]
    have entry := start.trees
    refine ⟨by simp, fun t inside => ?_, fun t inside => ?_, False.elim, False.elim, False.elim,
      False.elim⟩
    · rw [entry t inside, counted_zero, Nat.add_zero]
    · rw [entry t inside]
      rfl

private theorem one_share {f : ι → Nat} (total : ∑ i, f i = 1) :
    ∃ i, f i = 1 ∧ ∀ j, j ≠ i → f j = 0 := by
  have some : ∃ i, f i ≠ 0 := by
    by_contra none
    rw [Finset.sum_eq_zero fun i _ => not_not.mp fun pos => none ⟨i, pos⟩] at total
    cases total
  obtain ⟨i, pos⟩ := some
  rw [← Finset.add_sum_erase _ _ (Finset.mem_univ i)] at total
  have rest : ∑ j ∈ Finset.univ.erase i, f j = 0 := by omega
  refine ⟨i, by omega, fun j other => ?_⟩
  exact Finset.sum_eq_zero_iff.mp rest j (Finset.mem_erase.mpr ⟨other, Finset.mem_univ j⟩)

section Balanced

variable {T : UpperThreads L ι} {m : ι → Tickets}
  (balanced : Balanced (upperAccounting (plainPromise K) low) threadBacking 0 T m)

include balanced

omit [DecidableEq ι] in
private theorem ledger_frames (i : ι) (t : Nat) : (T.ledger i).1 t = counted t (m i) := by
  rw [← balanced.ledger i]
  rfl

omit [DecidableEq ι] in
private theorem ledger_tokens (i : ι) (t : Nat) : (T.ledger i).2 t = owners t (m i) := by
  rw [← balanced.ledger i]
  rfl

omit [DecidableEq ι] in
private theorem frames_total {t : Nat} (inside : t < K.treesLen) :
    ((T.mem.upper.trees t).free : Int) +
      ∑ p ∈ holders K T.mem.upper t, ((T.mem.upper.slots p.1 p.2).free : Int) +
        ∑ i, (T.ledger i).1 t = treeFree (low.free T.mem.lower) t := by
  have sound : Sound (plainPromise K) low T.mem (∑ i, m i + 0) := balanced.inv
  have total := tree_frames sound inside
  rw [add_zero, counted_sum] at total
  rw [Finset.sum_congr rfl fun i _ => ledger_frames balanced i t, ← total]
  rw [Nat.cast_add, Nat.cast_add, Nat.cast_sum, Nat.cast_sum]

omit [DecidableEq ι] in
private theorem tokens_total {t : Nat} (inside : t < K.treesLen) :
    (holders K T.mem.upper t).card + ∑ i, owners t (m i) =
      (T.mem.upper.trees t).reserved.toNat := by
  have sound : Sound (plainPromise K) low T.mem (∑ i, m i + 0) := balanced.inv
  have total := tree_owners sound inside
  rwa [add_zero, owners_sum] at total

private theorem one_owner {t : Nat} (inside : t < K.treesLen)
    (reserved : (T.mem.upper.trees t).reserved = true) : OneOwner K T t := by
  have total := tokens_total balanced inside
  rw [reserved, Bool.toNat_true] at total
  by_cases slot : (holders K T.mem.upper t).card = 1
  · refine Or.inl ⟨slot, fun i => ?_⟩
    have none : ∑ i, owners t (m i) = 0 := by omega
    rw [ledger_tokens balanced i t, Finset.sum_eq_zero_iff.mp none i (Finset.mem_univ i)]
    rfl
  · have none : (holders K T.mem.upper t).card = 0 := by omega
    obtain ⟨i, one, others⟩ := one_share (f := fun i => owners t (m i)) (by omega)
    refine Or.inr ⟨Finset.card_eq_zero.mp none, i, ?_, fun j other => ?_⟩
    · rw [ledger_tokens balanced i t, one]
      rfl
    · rw [ledger_tokens balanced j t, others j other]
      rfl

omit [DecidableEq ι] in
private theorem no_owner {t : Nat} (inside : t < K.treesLen)
    (unreserved : (T.mem.upper.trees t).reserved = false) :
    holders K T.mem.upper t = ∅ ∧ ∀ i, (T.ledger i).2 t = 0 := by
  have total := tokens_total balanced inside
  rw [unreserved, Bool.toNat_false] at total
  refine ⟨Finset.card_eq_zero.mp (by omega), fun i => ?_⟩
  have none : ∑ i, owners t (m i) = 0 := by omega
  rw [ledger_tokens balanced i t, Finset.sum_eq_zero_iff.mp none i (Finset.mem_univ i)]
  rfl

end Balanced

/-! ## Runs -/

/-- In every interleaving, at every moment: each reserved tree has one owner, no other tree has
one, the counters and what is in flight add up, and no assertion on them fails. -/
theorem interleaving_conserves (fits : Fits K) {s : Llfree L} {T : UpperThreads L ι}
    (start : Started low s) (reach : UpperReaches low s T) : Conserved low T := by
  have some : 0 < K.treesLen := by
    have least := start.frames.1
    simp only [Config.treesLen, divCeil, treeSize, minPages] at least ⊢
    omega
  have calls : Calls (upperAccounting (plainPromise K) low) threadBacking 0 (ThreadCall low) :=
    thread_calls fits some
  have initial : Balanced (upperAccounting (plainPromise K) low) threadBacking 0
      (Threads.idle s fun _ : ι => ()) fun _ => 0 := by
    refine balanced_idle calls ?_ (fun i k member => ?_) fun _ => trivial
    · rw [Finset.sum_const_zero]
      exact sound_of_started start
    · exact absurd member (Multiset.notMem_zero k)
  obtain ⟨m, balanced⟩ := balanced_reaches calls initial reach
  have faults := balanced_no_fault (fun stuck => stuck) balanced
  refine ⟨fun t inside => frames_total balanced inside, fun i t => ?_,
    fun t inside reserved => one_owner balanced inside reserved,
    fun t inside idle => no_owner balanced inside idle, fun i quiet => ?_,
    fun i idx free cls k next => ?_, fun i => ⟨(faults i).1, fun o k next stuck => ?_⟩⟩
  · rw [ledger_frames balanced]
    exact Int.natCast_nonneg _
  · rw [← balanced.ledger i]
    exact amount_lives (balanced_ret balanced quiet)
  · by_contra idle
    exact (faults i).2 _ k next (Or.inr (by simpa using idle))
  · apply (faults i).2 _ k next
    cases o with
    | treesUnreserve idx free cls => exact Or.inl stuck
    | _ => exact stuck

/-! ## On the words of the lower allocator -/

private theorem started_free {s : Llfree Lower} (fits : Fits K) (init : Initialised K .free s) :
    Started (words fits) s := by
  obtain ⟨buffers, init⟩ := init
  obtain ⟨rebuilt, lower⟩ := init_rebuilt init (by simp)
  have cons : Consistent K.frames s.lower :=
    fresh_consistent ⟨buffers.lower, .free, Or.inl rfl, lower⟩
  refine ⟨rebuilt.frames, cons, fun t inside => ?_, rebuilt.slots⟩
  rw [rebuilt.trees t inside, groupFree_eq cons inside]
  rfl

omit [Fintype ι] in
private theorem reaches_get (reach : K.frames ≤ 2 ^ 63) {s s' : Llfree Lower} {frame : Option Nat}
    {request : Request} {r : Result} (i : ι) (row : RowOrHuge request.order)
    (run : (Call.get frame request).run K s = some (some r, s')) :
    ∃ T : UpperThreads Lower ι, UpperReaches (wordsModel K.frames reach) s T ∧ T.mem = s' := by
  obtain ⟨a, t, get, last⟩ := Prog.run_bind_eq_some.mp run
  obtain ⟨-, rfl⟩ := Prod.mk.inj (Option.some.inj last)
  have alone : Prog.run (UpOp.exec K) (llfreeGet K frame request >>= fun _ => pure ()) s =
      some ((), t) := Prog.run_bind_some get
  have first : Step (upperSys K (wordsModel K.frames reach)) upperDelta
      (ThreadCall (wordsModel K.frames reach)) (Threads.idle s fun _ : ι => ()) _ :=
    .start _ i () () _ rfl (.get frame request fun _ => row)
  obtain ⟨T, rest, same⟩ := reaches_run (i := i) (P := ⟨s, Function.update (fun _ : ι => .ret ()) i
      (llfreeGet K frame request >>= fun _ => pure ()), Function.update (fun _ => ()) i (),
      Function.update (fun _ => (0 : Amount)) i 0⟩)
    (fun _ _ _ _ done => words_next reach done) (by simp) alone
  exact ⟨T, .head first rest, same⟩

/-- A thread has allocated through a slot, another one is idle. -/
theorem interleaving_conserves_slot :
    ∃ T : UpperThreads Lower (Fin 2),
      T.mem = (Call.get none ⟨0, 0, some 0⟩).after ⟨4096, llfreeClassingSimple 1⟩
        (initZeroed ⟨4096, llfreeClassingSimple 1⟩ .free) ∧
      Conserved (words (K := ⟨4096, llfreeClassingSimple 1⟩) (by decide)) T := by
  obtain ⟨T, reach, same⟩ :=
    reaches_get (K := ⟨4096, llfreeClassingSimple 1⟩) (by decide) (0 : Fin 2)
    (Or.inl (by decide)) (Call.run_after (c := .get none ⟨0, 0, some 0⟩)
      (s := initZeroed ⟨4096, llfreeClassingSimple 1⟩ .free) (r := some (llfreeOk 0 0))
        (by decide +kernel))
  exact ⟨T, same, interleaving_conserves (by decide)
    (started_free (by decide) (initZeroed_initialised (by decide))) reach⟩

/-! ## A tree that a slot cannot name -/

def oversized : Config := ⟨2 ^ 41 + 4096, llfreeClassingSimple 1⟩

def oversizedFree : Llfree Lower :=
  ⟨(lowerInit zeroed oversized.frames .free).2,
    ⟨fun _ => ⟨false, 1, treeSize⟩, fun _ _ => noReserved⟩⟩

private theorem oversized_full {t : Nat} (inside : t < oversized.treesLen) :
    treeFree (freeSet oversizedFree.lower) t = treeSize := by
  apply treeFree_of_full
  intro g here
  rw [oversizedFree, init_free]
  simp only [Config.treesLen, divCeil, oversized, treeSize] at inside
  simp only [Set.mem_ofPred_eq, oversized]
  omega

theorem oversizedFree_initialised : Initialised oversized .free oversizedFree := by
  have entry : ∀ t < oversized.treesLen,
      treeNew false oversized.defaultClass (initTreeCb oversizedFree.lower t) =
        some ⟨false, 1, treeSize⟩ := by
    intro t inside
    have all := groupFree_eq (clear_consistent zeroed oversized.frames true) inside
    change groupFree oversizedFree.lower (t * treeChildren) = _ at all
    rw [initTreeCb, all]
    change treeNew false 1 (treeFree (freeSet oversizedFree.lower) t) = _
    rw [oversized_full inside]
    rfl
  have trees : treesInit oversized .free oversizedFree.lower (fun _ => ⟨false, 1, treeSize⟩) =
      some fun _ => ⟨false, 1, treeSize⟩ := by
    have built : ∀ t < oversized.treesLen,
        (treeNew false oversized.defaultClass (initTreeCb oversizedFree.lower t)).isSome := by
      intro t inside
      rw [entry t inside]
      rfl
    rw [treesInit, if_neg (by simp), if_pos built]
    refine congrArg some (funext fun t => ?_)
    split_ifs with inside
    · dsimp only
      rw [entry t inside]
      rfl
    · rfl
  have slots : llLocalInit oversized (fun _ _ => noReserved) = fun _ _ => noReserved := by
    funext c i
    rw [llLocalInit, ite_self]
  refine ⟨⟨zeroed, ⟨fun _ => ⟨false, 1, treeSize⟩, fun _ _ => noReserved⟩⟩, ?_⟩
  have lower : lowerInit zeroed oversized.frames .free = (llfreeErr .ok, oversizedFree.lower) := rfl
  rw [llfreeInit, if_pos (by decide), if_neg (by decide), lower]
  dsimp only
  rw [if_neg (by simp), trees, Option.map_some, slots]
  rfl

/-- The last tree is reserved, and the slot that should hold it holds the first one instead. -/
theorem interleaving_loses_tree :
    ∃ T : UpperThreads Lower (Fin 1),
      Started (wordsModel oversized.frames (by decide)) oversizedFree ∧
      UpperReaches (wordsModel oversized.frames (by decide)) oversizedFree T ∧
      ¬ Conserved (wordsModel oversized.frames (by decide)) T := by
  obtain ⟨T, reach, same⟩ := reaches_get (K := oversized) (by decide) (0 : Fin 1)
    (Or.inl (by decide)) (Call.run_after (c := .get none ⟨0, 0, some 0⟩) (s := oversizedFree)
      (r := some (llfreeOk (2 ^ 41) 0)) (by decide +kernel))
  refine ⟨T, ⟨by decide, clear_consistent .., fun t inside => ?_, fun _ _ _ => rfl⟩, reach,
    fun conserved => ?_⟩
  · exact Tree.ext rfl rfl (oversized_full inside).symm
  · have slot : (T.mem.upper.slots 0 0).present = true ∧
        treeFromRow (T.mem.upper.slots 0 0).startRow = 0 ∧
        (T.mem.upper.trees 0).reserved = false := by
      rw [same]
      decide +kernel
    have none := (conserved.unreserved 0 (by decide) slot.2.2).1
    have holder : (0, 0) ∈ holders oversized T.mem.upper 0 :=
      mem_holders.mpr ⟨⟨1, by decide, by decide⟩, slot.1, slot.2.1⟩
    rw [none] at holder
    exact absurd holder (Finset.notMem_empty _)

end LLFree.Upper.Conservation

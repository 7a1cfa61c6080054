/- module: LLFree/Upper/Blocks
   digest: A lower allocator that is nothing but the blocks it has handed out, and who owns them. -/

import LLFree.Lower.Interleaving
import LLFree.Upper.Sequential
import LLFree.Upper.Taking

/-!
Calls of the lower allocator overlap, so its words are no set of free frames at most moments.
The blocks that were handed out are: a block is out from the return of its allocation to the
beginning of its free. Freeing a block that is not out is misuse, and so are the steps that the
words do not carry out as one: anything may happen after them.
-/

set_option autoImplicit false
set_option relaxedAutoImplicit false

namespace LLFree.Upper.Blocks

open LLFree.Atomic.Escrow LLFree.Code.Types LLFree.Code.Lower LLFree.Code.Shared
open LLFree.Code.Llfree LLFree.Lower.GetPut LLFree.Lower.FrameSet LLFree.Lower.Interleaving
open LLFree.Upper.Steps LLFree.Upper.Sequential LLFree.Upper.Taking

abbrev Loans := Multiset (Nat × Nat)

variable {N : Nat} {base : Set Nat} {l : Loans} {b : Nat × Nat}

/-- The frames of an allocator of `N` frames that lie in no block and not in `base`. -/
def freeOf (N : Nat) (base : Set Nat) (l : Loans) : Set Nat :=
  {g | g < N ∧ g ∉ base ∧ ∀ b ∈ l, ¬ Within b.1 b.2 g}

/-- The blocks are whole, clear of `base`, and apart from each other. -/
structure Separate (N : Nat) (base : Set Nat) (l : Loans) : Prop where
  small : ∀ b ∈ l, b.2 ≤ hugeOrder
  valid : ∀ b ∈ l, Valid N b.1 b.2
  clear : ∀ b ∈ l, ∀ g, Within b.1 b.2 g → g ∉ base
  apart : ∀ b l', l = b ::ₘ l' → ∀ c ∈ l', Apart b c

theorem separate_zero : Separate N base 0 :=
  ⟨by simp, by simp, by simp, fun _ _ same => absurd same.symm (Multiset.cons_ne_zero)⟩

theorem apart_symm {b c : Nat × Nat} (apart : Apart b c) : Apart c b :=
  fun g both => apart g both.symm

theorem Separate.cons (separate : Separate N base l) (small : b.2 ≤ hugeOrder)
    (valid : Valid N b.1 b.2) (free : blockSet b.1 b.2 ⊆ freeOf N base l) :
    Separate N base (b ::ₘ l) := by
  refine ⟨fun c member => ?_, fun c member => ?_, fun c member => ?_, fun c l' same d other => ?_⟩
  · rcases Multiset.mem_cons.mp member with rfl | old
    · exact small
    · exact separate.small c old
  · rcases Multiset.mem_cons.mp member with rfl | old
    · exact valid
    · exact separate.valid c old
  · rcases Multiset.mem_cons.mp member with rfl | old
    · exact fun g within => (free within).2.1
    · exact separate.clear c old
  · have mine : ∀ c ∈ l, Apart b c := fun c member g both => (free both.1).2.2 c member both.2
    rcases Multiset.cons_eq_cons.mp same with ⟨rfl, rfl⟩ | ⟨-, rest, rfl, rfl⟩
    · exact mine d other
    · rcases Multiset.mem_cons.mp other with rfl | old
      · exact apart_symm (mine c (Multiset.mem_cons_self c rest))
      · exact separate.apart c rest rfl d old

theorem Separate.erase (separate : Separate N base l) (b : Nat × Nat) :
    Separate N base (l.erase b) := by
  by_cases own : b ∈ l
  · obtain ⟨rest, rfl⟩ := Multiset.exists_cons_of_mem own
    rw [Multiset.erase_cons_head]
    have old : ∀ c ∈ rest, c ∈ b ::ₘ rest := fun c member => Multiset.mem_cons_of_mem member
    refine ⟨fun c member => separate.small c (old c member), fun c member =>
      separate.valid c (old c member), fun c member => separate.clear c (old c member),
      fun c l' same d other => ?_⟩
    subst same
    exact separate.apart c (b ::ₘ l') (Multiset.cons_swap b c l') d (Multiset.mem_cons_of_mem other)
  · rwa [Multiset.erase_of_notMem own]

theorem freeOf_cons (b : Nat × Nat) (l : Loans) :
    freeOf N base (b ::ₘ l) = freeOf N base l \ blockSet b.1 b.2 := by
  ext g
  simp only [freeOf, Multiset.mem_cons, forall_eq_or_imp, Set.mem_ofPred_eq, Set.mem_sdiff,
    blockSet]
  tauto

theorem freeOf_erase (separate : Separate N base l) (own : b ∈ l) :
    freeOf N base (l.erase b) = freeOf N base l ∪ blockSet b.1 b.2 := by
  obtain ⟨rest, rfl⟩ := Multiset.exists_cons_of_mem own
  rw [Multiset.erase_cons_head, freeOf_cons, Set.sdiff_union_self]
  refine (Set.union_eq_left.mpr fun g within => ?_).symm
  refine ⟨?_, separate.clear b own g within, fun c member both => ?_⟩
  · exact within.2.trans_le (separate.valid b own).1
  · exact separate.apart b rest rfl c member g ⟨within, both⟩

/-! ## The allocator -/

/-- An allocation hands out a block of free frames or fails; a free takes its block back. -/
def blocksNext (N : Nat) (base : Set Nat) : LowerCall → Loans → Result → Loans → Prop
  | .get start order target, l, r, l' =>
    (∃ f, r = llfreeOk f 0 ∧ l' = (f, order) ::ₘ l ∧ Valid N f order ∧
        blockSet f order ⊆ freeOf N base l ∧ (target = none → f / treeSize = start / treeSize) ∧
        ∀ t, target = some t → f = t) ∨
      (r = llfreeErr .memory ∧ l' = l)
  | .put frame order, l, r, l' =>
    ((frame, order) ∈ l ∧ r = llfreeErr .ok ∧ l' = l.erase (frame, order)) ∨
      ((frame, order) ∉ l ∧ r = llfreeErr .argument ∧ l' = l)

def blocksModel (N : Nat) (base : Set Nat) : LowerModel Loans N where
  next := blocksNext N base
  fails c _ := ¬ Asked N (· ≤ hugeOrder) c
  stats _ _ _ := ⟨0, 0, 0⟩
  free := freeOf N base
  good := Separate N base
  orders order := order ≤ hugeOrder
  small order le := Nat.le_trans le (by decide)
  runs c _ _ asked fails := fails asked
  moves c l r l' good asked next := by
    cases c with
    | get start order target =>
      rcases next with ⟨f, rfl, rfl, valid, free, near, hit⟩ | ⟨rfl, rfl⟩
      · refine ⟨good.cons asked.2.1 valid free, Or.inl ⟨rfl, valid, free, ?_, near, hit⟩⟩
        exact freeOf_cons (f, order) l
      · exact ⟨good, Or.inr ⟨by simp, rfl⟩⟩
    | put frame order =>
      rcases next with ⟨own, rfl, rfl⟩ | ⟨-, rfl, rfl⟩
      · refine ⟨good.erase _, Or.inl ⟨rfl, asked.2, ?_, freeOf_erase good own⟩⟩
        ext g
        simp only [blockSet, freeOf, Set.mem_inter_iff, Set.mem_ofPred_eq, Set.mem_empty_iff_false,
          iff_false]
        exact fun both => both.2.2.2 _ own both.1
      · exact ⟨good, Or.inr ⟨by simp, rfl⟩⟩

/-! ## Ownership -/

/-- The requests that the words serve: blocks within a row or of a huge frame, and without a
target every block of less than a huge frame. -/
def Served (order : Nat) (target : Option Nat) : Prop :=
  order ≤ hugeOrder ∧ (target ≠ none → RowOrHuge order)

/-- Steps that the blocks do not explain: other requests, a free of a block that is not out, and
the statistics. -/
def Misused : UpOp → Loans → Prop
  | .lower (.get _ order target), _ => ¬ Served order target
  | .lower (.put frame order), l => (frame, order) ∉ l
  | .lowerStatsAt .., _ => True
  | .table _, _ => False

variable {K : Config}

/-- Each program owns the blocks it obtained, whatever it finds in trees and slots. After misuse
anything may happen. -/
def loanAccounting (K : Config) (base : Set Nat) :
    Accounting UpOp UpOp.Res (Llfree Loans) Loans Int where
  sys :=
    { next := fun o s r s' => match o with
        | .table _ => s'.lower = s.lower
        | o => (upperSys K (blocksModel K.frames base)).next o s r s' ∨ Misused o s.lower
      fails := fun _ _ => False }
  inv s m := s.lower = m ∧ Separate K.frames base s.lower
  amt := 0
  delta _ _ := 0
  mayAbort := True

variable {α : Type} {m F : Loans} {Q : α → Loans → Prop}

theorem loan_table {o : TableOp} {k : o.Res → UpProg α}
    (rest : ∀ r, (loanAccounting K base).Ok (k r) m Q) :
    (loanAccounting K base).Ok (.step (.table o) k) m Q := by
  refine ⟨trivial, fun s F inv => ⟨False.elim, fun r s' same => ?_⟩⟩
  obtain ⟨mine, separate⟩ := inv
  have lower : s'.lower = s.lower := same
  exact ⟨m, ⟨lower.trans mine, lower ▸ separate⟩, rfl, rest r⟩

theorem loan_get {start order : Nat} {target : Option Nat} {k : Result → UpProg α}
    (served : Served order target)
    (ok : ∀ r, r.error = .ok → Valid K.frames r.frame order → (∀ f, target = some f → r.frame = f) →
      (loanAccounting K base).Ok (k r) (m + {(r.frame, order)}) Q)
    (err : ∀ r, r.error = .memory → (loanAccounting K base).Ok (k r) m Q) :
    (loanAccounting K base).Ok (.step (.lower (.get start order target)) k) m Q := by
  refine ⟨trivial, fun s F inv => ⟨False.elim, ?_⟩⟩
  obtain ⟨same, separate⟩ := inv
  rintro r s' (⟨l', next, rfl⟩ | misused)
  · rcases next with ⟨f, rfl, rfl, valid, free, -, hit⟩ | ⟨rfl, rfl⟩
    · refine ⟨m + {(f, order)}, ⟨?_, separate.cons served.1 valid free⟩, rfl, ok _ rfl valid ?_⟩
      · rw [same, add_assoc, add_comm {(f, order)}, ← add_assoc, ← Multiset.singleton_add, add_comm]
      · exact fun t target => hit t target
    · exact ⟨m, ⟨same, separate⟩, rfl, err _ rfl⟩
  · exact absurd served misused

theorem loan_put {frame order : Nat} {k : Result → UpProg α}
    (ok : ∀ r, r.error = .ok → (loanAccounting K base).Ok (k r) 0 Q) :
    (loanAccounting K base).Ok (.step (.lower (.put frame order)) k) {(frame, order)} Q := by
  refine ⟨trivial, fun s F inv => ⟨False.elim, ?_⟩⟩
  obtain ⟨same, separate⟩ := inv
  have own : (frame, order) ∈ s.lower := by
    rw [same]
    simp
  rintro r s' (⟨l', next, rfl⟩ | misused)
  · rcases next with ⟨-, rfl, rfl⟩ | ⟨other, -⟩
    · refine ⟨0, ⟨?_, separate.erase _⟩, rfl, ok _ rfl⟩
      dsimp only
      rw [same, Multiset.singleton_add, Multiset.erase_cons_head, zero_add]
    · exact absurd own other
  · exact absurd own misused

theorem loan_blockwise :
    Blockwise K (loanAccounting K base) Served (· = .memory) fun f order => {(f, order)} :=
  ⟨trivial, rfl, by simp, loan_table, fun served _ => loan_get served⟩

theorem loan_llfreePut {request : Request} {f : Nat} :
    (loanAccounting K base).Ok (llfreePut K f request) {(f, request.order)}
      (PutGives K False request f {(f, request.order)} 0) :=
  gives_llfreePut loan_blockwise fun _ ok _ => loan_put ok

private theorem not_separate : ¬ Separate N base {(0, 0), (0, 0)} := by
  intro separate
  refine separate.apart (0, 0) {(0, 0)} rfl (0, 0) (by simp) 0 ?_
  simp [Within]

theorem not_misused {C : Loans → Prop} {o : UpOp} {k : o.Res → UpProg α} {s : Llfree Loans}
    (safe : (loanAccounting K base).Safe C (.step o k) m Q)
    (inv : (loanAccounting K base).inv s (m + F)) : ¬ Misused o s.lower := by
  intro misused
  have lost : ∀ r : o.Res, ¬ (loanAccounting K base).sys.next o s r
      ⟨{(0, 0), (0, 0)}, s.upper⟩ := by
    intro r next
    obtain ⟨m', ⟨-, separate⟩, -⟩ := (safe.2 s F inv).2 r _ next
    exact not_separate separate
  cases o with
  | lower c => exact lost (llfreeErr .ok) (Or.inr misused)
  | lowerStatsAt frame order => exact lost ⟨0, 0, 0⟩ (Or.inr misused)
  | table o => exact misused

end LLFree.Upper.Blocks

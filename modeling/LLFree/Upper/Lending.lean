/- module: LLFree/Upper/Lending
   digest: Clients that hold blocks, over an allocator whose lower calls are indivisible. -/

import LLFree.Atomic.Refinement
import LLFree.Upper.Blocks
import LLFree.Upper.Conservation
import LLFree.Upper.Overwritten
import LLFree.Upper.Segregation

set_option autoImplicit false
set_option relaxedAutoImplicit false

namespace LLFree.Upper.Lending

open LLFree.Atomic.Escrow LLFree.Atomic.Pool LLFree.Atomic.Refinement LLFree.Code.Types
open LLFree.Code.Shared LLFree.Code.Llfree LLFree.Upper.Ledger LLFree.Upper.Slots
open LLFree.Upper.Steps LLFree.Upper.Calls LLFree.Upper.Sequential LLFree.Upper.Conservation
open LLFree.Upper.Segregation LLFree.Upper.Taking LLFree.Upper.Blocks LLFree.Upper.Overwritten

/-! ## Clients -/

/-- What a client records: the blocks it holds, and how many frees it asked for with a valid
request did not return success. -/
structure Client where
  lent : List Lent
  refused : Nat

namespace Client

def received (self : Client) (request : Request) (r : Result) : Client :=
  if r.error = .ok then { self with lent := ⟨r.frame, request.order, r.cls⟩ :: self.lent } else self

def without (self : Client) (b : Lent) : Client := { self with lent := self.lent.erase b }

def released (self : Client) (b : Lent) (valid : Bool) (r : Result) : Client :=
  if r.error = .ok then self.without b else { self with refused := self.refused + valid.toNat }

end Client

/-- The calls of a client: allocations, frees of a block it holds with the order of its
allocation, drains. A block that is being freed is no longer the client's. -/
inductive ClientThread (K : Config) : Client → Client → UpProg Client → Prop
  | get (h : Client) (frame : Option Nat) (request : Request)
      (served : request.order ≤ treeOrder → Served request.order frame) :
      ClientThread K h h (llfreeGet K frame request >>= fun r => .ret (h.received request r))
  | put (h : Client) (b : Lent) (request : Request) (own : b ∈ h.lent)
      (same : request.order = b.order) :
      ClientThread K h (h.without b) (llfreePut K b.frame request >>= fun r =>
        .ret (h.released b (validateRequest K request (some b.frame)) r))
  | drain (h : Client) : ClientThread K h h (llfreeDrain K >>= fun _ => .ret h)

variable {K : Config} {W : Drift K} {base : Set Nat} {P : Promise K}

/-! ## The books -/

def SmallOrders (h : Client) : Prop := ∀ b ∈ h.lent, b.order ≤ hugeOrder

def bookBacking : Backing Client Tickets where
  held h m := SmallOrders h ∧ m = lentTickets h.lent
  keeps h m := ∃ y, m = y + lentTickets h.lent

private theorem keeps_frame {α : Type} {h : Client} {p : UpProg α} {x : Tickets}
    {Q : α → Tickets → Prop} {low : LowerModel Loans K.frames}
    (safe : (upperAccounting P low).Ok p x Q) :
    (upperAccounting P low).Safe (bookBacking.keeps h) p (x + lentTickets h.lent)
      (fun a z => ∃ y, Q a y ∧ z = y + lentTickets h.lent) := by
  refine Accounting.safe_mono (Accounting.safe_frame safe (lentTickets h.lent)) ?_ fun _ _ => id
  rintro z ⟨y, -, rfl⟩
  exact ⟨y, rfl⟩

private theorem smallOrders_without {h : Client} (small : SmallOrders h) (b : Lent) :
    SmallOrders (h.without b) := fun c member => small c (List.mem_of_mem_erase member)

private theorem kept_calls (fits : Fits K) (some : 0 < K.treesLen) (support : Supported P) :
    Calls (upperAccounting P (blocksModel K.frames base)) bookBacking 0 (ClientThread K) := by
  have known : P.configured → ∀ c, K.locals c ≠ none → c < K.numClasses :=
    fun on c locals => (support on).known locals
  refine ⟨fun h k p m s F held _ call => ?_, fun h m held => ?_⟩
  · obtain ⟨small, rfl⟩ := held
    cases call with
    | get frame request served =>
      by_cases order : request.order ≤ treeOrder
      · have get : (upperAccounting P (blocksModel K.frames base)).Ok (llfreeGet K frame request) 0
            (Got P request.cls request.order frame) :=
          safe_llfreeGet fits some known (served order).1
        have safe := keeps_frame (h := h) get
        rw [zero_add] at safe
        refine Accounting.safe_bind (Accounting.safe_ends safe) ?_
        rintro r _ ⟨⟨y, got, rfl⟩, keep⟩
        refine ⟨keep, ?_⟩
        rcases got with ⟨ok, rfl, -⟩ | ⟨error, rfl⟩
        · rw [Client.received, if_pos ok]
          refine ⟨fun b member => ?_,
            (lentTickets_cons ⟨r.frame, request.order, r.cls⟩ h.lent).symm⟩
          rcases List.mem_cons.mp member with rfl | old
          · exact (served order).1
          · exact small b old
        · rw [Client.received, if_neg error]
          exact ⟨small, zero_add _⟩
      · simp only [llfreeGet, refused_order order, if_true]
        exact ⟨⟨0, (zero_add _).symm⟩, small, rfl⟩
    | put b request own same =>
      have put : (upperAccounting P (blocksModel K.frames base)).Ok (llfreePut K b.frame request)
          (live (b.frame / 4096) (2 ^ request.order) b.cls) _ :=
        safe_llfreePut known (same ▸ small b own) (Or.inl rfl)
      have safe := keeps_frame (h := h.without b) put
      have split : lentTickets h.lent =
          live (b.frame / 4096) (2 ^ request.order) b.cls + lentTickets (h.without b).lent := by
        rw [same]
        exact lentTickets_erase own
      rw [split]
      refine Accounting.safe_bind (Accounting.safe_ends safe) ?_
      rintro r _ ⟨⟨y, put, rfl⟩, keep⟩
      refine ⟨keep, ?_⟩
      rcases put with ⟨ok, rfl⟩ | ⟨error, rfl⟩
      · rw [Client.released, if_pos ok]
        exact ⟨smallOrders_without small b, zero_add _⟩
      · rw [Client.released, if_neg error]
        exact ⟨small, split.symm⟩
    | drain =>
      have drain : (upperAccounting P (blocksModel K.frames base)).Ok (llfreeDrain K) 0 _ :=
        safe_llfreeDrain
      have safe := keeps_frame (h := h) drain
      rw [zero_add] at safe
      refine Accounting.safe_bind (Accounting.safe_ends safe) ?_
      rintro _ _ ⟨⟨y, rfl, rfl⟩, keep⟩
      exact ⟨keep, small, zero_add _⟩
  · obtain ⟨-, rfl⟩ := held
    exact amount_lives fun k member => lentTickets_live member

theorem book_calls (fits : Fits K) (some : 0 < K.treesLen) (support : Supported P)
    (steady : P.pristine → W.Exact) :
    Calls (driftAccounting W P (blocksModel K.frames base)) bookBacking 0 (ClientThread K) := by
  have calls : Calls (upperAccounting P (blocksModel K.frames base)) bookBacking 0
      (ClientThread K) :=
    kept_calls fits some support
  exact ⟨fun h k p m s F held inv call => safe_drift steady (calls.safe h k p m s F held inv call),
    calls.free⟩

/-! ## Ownership -/

def loansOf (lent : List Lent) : Loans := (lent.map fun b => (b.frame, b.order) : List (Nat × Nat))

theorem loansOf_cons (b : Lent) (lent : List Lent) :
    loansOf (b :: lent) = {(b.frame, b.order)} + loansOf lent := rfl

theorem loansOf_erase {b : Lent} {lent : List Lent} (own : b ∈ lent) :
    loansOf lent = {(b.frame, b.order)} + loansOf (lent.erase b) := by
  rw [← loansOf_cons]
  exact Multiset.coe_eq_coe.mpr ((List.perm_cons_erase own).map _)

theorem mem_loansOf {b : Lent} {lent : List Lent} (own : b ∈ lent) :
    (b.frame, b.order) ∈ loansOf lent :=
  Multiset.mem_coe.mpr (List.mem_map_of_mem own)

def loanBacking : Backing Client Loans where
  held h m := h.refused = 0 ∧ m = loansOf h.lent
  keeps h m := h.refused = 0 ∧ ∃ y, m = y + loansOf h.lent

private theorem owns_frame {α : Type} {h : Client} {p : UpProg α} {x : Loans}
    {Q : α → Loans → Prop} (fine : h.refused = 0) (safe : (loanAccounting K base).Ok p x Q) :
    (loanAccounting K base).Safe (loanBacking.keeps h) p (x + loansOf h.lent)
      (fun a z => ∃ y, Q a y ∧ z = y + loansOf h.lent) := by
  refine Accounting.safe_mono (Accounting.safe_frame safe (loansOf h.lent)) ?_ fun _ _ => id
  rintro z ⟨y, -, rfl⟩
  exact ⟨fine, y, rfl⟩

theorem loan_calls : Calls (loanAccounting K base) loanBacking 0 (ClientThread K) := by
  refine ⟨fun h k p m s F held _ call => ?_, fun h m held => rfl⟩
  obtain ⟨fine, rfl⟩ := held
  cases call with
  | get frame request served =>
    by_cases order : request.order ≤ treeOrder
    · have get : (loanAccounting K base).Ok (llfreeGet K frame request) 0 _ :=
        takes_llfreeGet loan_blockwise (served order)
      have safe := owns_frame (h := h) fine get
      rw [zero_add] at safe
      refine Accounting.safe_bind (Accounting.safe_ends safe) ?_
      rintro r _ ⟨⟨y, takes, rfl⟩, keep⟩
      refine ⟨keep, ?_⟩
      rcases takes with ⟨-, ⟨ok, -, -, rfl⟩ | ⟨error, rfl⟩⟩ | ⟨-, rfl, rfl⟩
      · rw [Client.received, if_pos ok]
        exact ⟨fine, rfl⟩
      · rw [Client.received, if_neg (by simp [error])]
        exact ⟨fine, zero_add _⟩
      · exact ⟨fine, zero_add _⟩
    · simp only [llfreeGet, refused_order order, if_true]
      exact ⟨⟨fine, 0, (zero_add _).symm⟩, fine, rfl⟩
  | put b request own same =>
    have put : (loanAccounting K base).Ok (llfreePut K b.frame request)
        {(b.frame, request.order)} _ :=
      loan_llfreePut
    have safe := owns_frame (h := h.without b) fine put
    have split : loansOf h.lent = {(b.frame, request.order)} + loansOf (h.without b).lent := by
      rw [same]
      exact loansOf_erase own
    rw [split]
    refine Accounting.safe_bind (Accounting.safe_ends safe) ?_
    rintro r _ ⟨⟨y, gives, rfl⟩, keep⟩
    refine ⟨keep, ?_⟩
    rcases gives with ⟨-, ⟨rfl, rfl⟩ | ⟨never, -⟩⟩ | ⟨refused, rfl, rfl⟩
    · exact ⟨fine, zero_add _⟩
    · exact never.elim
    · rw [Client.released, if_neg (by simp), refused]
      exact ⟨fine, split.symm⟩
  | drain =>
    have drain : (loanAccounting K base).Ok (llfreeDrain K) 0 _ :=
      neutral_llfreeDrain loan_blockwise 0
    have safe := owns_frame (h := h) fine drain
    rw [zero_add] at safe
    refine Accounting.safe_bind (Accounting.safe_ends safe) ?_
    rintro _ _ ⟨⟨y, rfl, rfl⟩, keep⟩
    exact ⟨keep, fine, zero_add _⟩

/-! ## Reachable pools -/

def lendingSys (W : Drift K) (base : Set Nat) : Sys UpOp UpOp.Res (Llfree Loans) where
  next := (driftSys W (blocksModel K.frames base)).next
  fails o s := (driftSys W (blocksModel K.frames base)).fails o s ∨ Misused o s.lower

theorem loan_allows {o : UpOp} {r : o.Res} {s s' : Llfree Loans}
    (next : (lendingSys W base).next o s r s') : (loanAccounting K base).sys.next o s r s' := by
  cases o with
  | table o =>
    cases o with
    | treesSteal idx n cls =>
      obtain ⟨c, -, u, -, rfl⟩ := next
      exact rfl
    | _ =>
      obtain ⟨u, -, rfl⟩ := next
      exact rfl
  | _ => exact Or.inl next

abbrev LendingThreads (ι : Type) := Threads UpOp UpOp.Res (Llfree Loans) Amount Client ι

variable {ι : Type} [Fintype ι] [DecidableEq ι] {x : Llfree Loans} {h : ι → Client}
  {T : LendingThreads ι}

/-- Clients that hold all blocks that are out, over an allocator with sound books. -/
structure Begun (P : Promise K) (base : Set Nat) (x : Llfree Loans) (h : ι → Client) : Prop where
  sound : Sound P (blocksModel K.frames base) x (∑ i, lentTickets (h i).lent)
  loans : x.lower = ∑ i, loansOf (h i).lent
  fine : ∀ i, (h i).refused = 0

def LendingReaches (W : Drift K) (base : Set Nat) (x : Llfree Loans) (h : ι → Client)
    (T : LendingThreads ι) : Prop :=
  Reaches (lendingSys W base) upperDelta (ClientThread K) (Threads.idle x h) T

structure Booked (W : Drift K) (P : Promise K) (base : Set Nat) (T : LendingThreads ι)
    (m : ι → Tickets) (n : ι → Loans) : Prop where
  books : Balanced (driftAccounting W P (blocksModel K.frames base)) bookBacking 0 T m
  loans : ∃ ledger, Balanced (loanAccounting K base) loanBacking 0 (relabel T ledger) n

omit [DecidableEq ι] in
private theorem smallOrders_of_begun (begun : Begun P base x h) (i : ι) : SmallOrders (h i) := by
  intro b own
  refine begun.sound.good.small (b.frame, b.order) ?_
  rw [begun.loans]
  exact Multiset.mem_sum.mpr ⟨i, Finset.mem_univ i, mem_loansOf own⟩

theorem lending_booked (fits : Fits K) (some : 0 < K.treesLen) (support : Supported P)
    (steady : P.pristine → W.Exact) (begun : Begun P base x h)
    (reach : LendingReaches W base x h T) :
    ∃ m n, Booked W P base T m n := by
  have books : Balanced (driftAccounting W P (blocksModel K.frames base)) bookBacking 0
      (Threads.idle x h) fun i => lentTickets (h i).lent := by
    refine balanced_idle (book_calls fits some support steady) ?_ (fun i => ?_) fun i => ?_
    · rw [add_zero]
      exact begun.sound
    · exact ⟨smallOrders_of_begun begun i, rfl⟩
    · exact ⟨0, (zero_add _).symm⟩
  have loans : Balanced (loanAccounting K base) loanBacking 0
      (Threads.idle x h) fun i => loansOf (h i).lent := by
    refine balanced_idle loan_calls ?_ (fun i => ?_) fun i => ?_
    · rw [add_zero]
      exact ⟨begun.loans, begun.sound.good⟩
    · exact ⟨begun.fine i, rfl⟩
    · exact ⟨begun.fine i, 0, (zero_add _).symm⟩
  have wide : Reaches (driftAccounting W P (blocksModel K.frames base)).sys upperDelta
      (ClientThread K) (Threads.idle x h) T := by
    apply reaches_wider ?_ reach
    exact fun _ _ _ _ next => next
  obtain ⟨m, books'⟩ := balanced_reaches (book_calls fits some support steady) books wide
  have chaos : ∃ ledger, Reaches (loanAccounting K base).sys (loanAccounting K base).delta
      (ClientThread K) (Threads.idle x h) (relabel T ledger) :=
    reaches_relabel (fun _ _ _ _ next => loan_allows next) reach fun _ => 0
  obtain ⟨ledger, other⟩ := chaos
  obtain ⟨n, loans'⟩ := balanced_reaches loan_calls loans other
  exact ⟨m, n, books', ledger, loans'⟩

/-- In no interleaving does a client stand at a failed assertion, before a failing access, or
before misuse. -/
theorem booked_faultless {m : ι → Tickets} {n : ι → Loans} (booked : Booked W P base T m n) :
    Faultless (lendingSys W base) T := by
  intro i
  have total : ¬ (driftAccounting W P (blocksModel K.frames base)).mayAbort := fun stuck => stuck
  obtain ⟨fine, next⟩ := balanced_no_fault total booked.books i
  refine ⟨fine, fun o k here fault => ?_⟩
  rcases fault with stuck | misused
  · exact next o k here stuck
  · obtain ⟨ledger, loans⟩ := booked.loans
    have safe := loans.safe i
    have inv := loans.inv
    simp only [relabel, here] at safe inv
    rw [sum_split n i, add_assoc] at inv
    exact not_misused safe inv misused

end LLFree.Upper.Lending

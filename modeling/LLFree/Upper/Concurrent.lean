/- module: LLFree/Upper/Concurrent
   digest: Clients of the whole allocator whose accesses interleave in any order. -/

import LLFree.Upper.Layers

set_option autoImplicit false
set_option relaxedAutoImplicit false

namespace LLFree.Upper.Concurrent

open LLFree.Atomic.Escrow LLFree.Atomic.Pool LLFree.Atomic.Refinement LLFree.Code.Entries
open LLFree.Code.Shared LLFree.Code.Stack LLFree.Lower.Holding LLFree.Lower.GetPut
open LLFree.Lower.Quiet LLFree.Upper.Ledger LLFree.Upper.Slots LLFree.Upper.Sequential
open LLFree.Upper.Segregation LLFree.Upper.Blocks LLFree.Upper.Overwritten LLFree.Upper.Lending
open LLFree.Upper.Layers

/-! ## Pools of clients -/

abbrev StackThreads (ι : Type) := Threads WordOp WordOp.Res (Llfree Lower) Int Client ι

def StackCall (K : Config) (h k : Client) (p : WordProg Client) : Prop :=
  ∃ q, ClientThread K h k q ∧ p = words K q

variable {ι : Type} [Fintype ι] [DecidableEq ι] {K : Config} {W : Drift K} {P : Promise K}
  {base : Leftover K.frames} {s : Llfree Lower} {h : ι → Client} {T : StackThreads ι}

/-- The pools that some interleaving of accesses reaches from idle clients. -/
def StackReaches (W : Drift K) (s : Llfree Lower) (h : ι → Client) (T : StackThreads ι) : Prop :=
  Reaches (stackSys W) (fun _ _ => 1) (StackCall K) (Threads.idle s h) T

def allLoans (h : ι → Client) : Loans := ∑ i, loansOf (h i).lent

/-- No call is in progress, the clients hold all blocks that are out, and the books agree. -/
structure Rooted (P : Promise K) (base : Leftover K.frames) (s : Llfree Lower) (h : ι → Client) :
    Prop where
  explained : Explained K base s ⟨allLoans h, s.upper⟩ 0
  begun : Begun P base.frames ⟨allLoans h, s.upper⟩ h

/-- Every pool of clients has one of indivisible lower calls behind it, and sound books. -/
structure Behind (W : Drift K) (P : Promise K) (base : Leftover K.frames) (T : StackThreads ι)
    (U : LendingThreads ι) (d : ι → Held) (m : ι → Tickets) (n : ι → Loans) : Prop where
  sim : Simulated (layer W base) U T d
  booked : Booked W P base.frames U m n

theorem stack_behind (fits : Fits K) (some : 0 < K.treesLen) (support : Supported P)
    (steady : P.pristine → W.Exact) (rooted : Rooted P base s h) (reach : StackReaches W s h T) :
    ∃ U d m n, LendingReaches W base.frames ⟨allLoans h, s.upper⟩ h U ∧
      Behind W P base T U d m n := by
  have booked := fun U (run : LendingReaches W base.frames ⟨allLoans h, s.upper⟩ h U) =>
    lending_booked fits some support steady rooted.begun run
  have faultless : ∀ U, LendingReaches W base.frames ⟨allLoans h, s.upper⟩ h U →
      Faultless (lendingSys W base.frames) U := by
    intro U run
    obtain ⟨m, n, books⟩ := booked U run
    exact booked_faultless books
  obtain ⟨U, d, run, sim⟩ := simulated_reaches (layer_sound fits base) faultless
    (simulated_idle rooted.explained h) reach
  obtain ⟨m, n, books⟩ := booked U run
  exact ⟨U, d, m, n, run, sim, books⟩

section Behind

variable {U : LendingThreads ι} {d : ι → Held} {m : ι → Tickets} {n : ι → Loans}
  (behind : Behind W P base T U d m n)

include behind

theorem behind_data (i : ι) : (T.data i).refused = 0 ∧
    (∃ y, n i = y + loansOf (T.data i).lent) ∧ ∃ z, m i = z + lentTickets (T.data i).lent := by
  obtain ⟨ledger, loans⟩ := behind.booked.loans
  have total : ¬ (driftAccounting W P (blocksModel K.frames base.frames)).mayAbort :=
    fun stuck => stuck
  have alive : U.thread i ≠ .abort := (booked_faultless behind.booked i).1
  have idle : ∀ g, T.thread i = .ret g → g.refused = 0 ∧ n i = loansOf g.lent ∧
      m i = lentTickets g.lent := by
    intro g here
    have quiet := (simulated_ret behind.sim here).1
    obtain ⟨fine, own⟩ := balanced_ret (P := relabel U ledger) loans quiet
    exact ⟨fine, own, (balanced_ret behind.booked.books quiet).2⟩
  have keeps : (T.kept i).refused = 0 ∧ (∃ y, n i = y + loansOf (T.kept i).lent) ∧
      ∃ z, m i = z + lentTickets (T.kept i).lent := by
    have safe := loans.safe i
    have safe' := behind.booked.books.safe i
    rw [behind.sim.kept]
    simp only [relabel] at safe
    have own : loanBacking.keeps (U.kept i) (n i) := by
      cases here : U.thread i with
      | ret g =>
        rw [here] at safe
        exact safe.1
      | abort => exact absurd here alive
      | step o k =>
        rw [here] at safe
        exact safe.1
    have tickets : bookBacking.keeps (U.kept i) (m i) := Accounting.safe_holds total safe'
    exact ⟨own.1, own.2, tickets⟩
  unfold Threads.data
  split
  · next g here =>
    obtain ⟨fine, own, tickets⟩ := idle g here
    exact ⟨fine, ⟨0, by rw [own, zero_add]⟩, 0, by rw [tickets, zero_add]⟩
  · exact keeps

omit [DecidableEq ι] in
theorem behind_idle {i : ι} {g : Client} (idle : T.thread i = .ret g) :
    d i = 0 ∧ n i = loansOf g.lent ∧ m i = lentTickets g.lent := by
  obtain ⟨ledger, loans⟩ := behind.booked.loans
  obtain ⟨quiet, none⟩ := simulated_ret behind.sim idle
  exact ⟨none, (balanced_ret (P := relabel U ledger) loans quiet).2,
    (balanced_ret behind.booked.books quiet).2⟩

omit [DecidableEq ι] in
theorem behind_loans : U.mem.lower = ∑ i, n i ∧ Separate K.frames base.frames (∑ i, n i) := by
  obtain ⟨ledger, loans⟩ := behind.booked.loans
  have inv : U.mem.lower = ∑ i, n i + 0 ∧ Separate K.frames base.frames U.mem.lower := loans.inv
  rw [add_zero] at inv
  exact ⟨inv.1, inv.1 ▸ inv.2⟩

end Behind

/-! ## Safety -/

def Apart (b c : Lent) : Prop :=
  ∀ g, ¬ (Within b.frame b.order g ∧ Within c.frame c.order g)

/-- What holds of the clients at any moment. -/
structure ClientsSafe (K : Config) (T : StackThreads ι) : Prop where
  /-- The blocks that a client holds are aligned and in range. -/
  valid : ∀ i, ∀ b ∈ (T.data i).lent, Valid K.frames b.frame b.order
  /-- No client holds a frame twice, and no two clients hold the same frame. -/
  own : ∀ i, (T.data i).lent.Pairwise Apart
  others : ∀ i j, i ≠ j → ∀ b ∈ (T.data i).lent, ∀ c ∈ (T.data j).lent, Apart b c
  /-- A held block is marked as allocated, frame by frame. -/
  taken : ∀ i, ∀ b ∈ (T.data i).lent, ∀ g, Within b.frame b.order g → ¬ IsFree T.mem.lower g
  /-- Every free of a held block with a valid request returned success. -/
  frees : ∀ i, (T.data i).refused = 0
  /-- No client stands at a failed assertion, or before an access that fails. -/
  assertions : ∀ i, T.thread i ≠ .abort ∧
    ∀ o k, T.thread i = .step o k → WordOp.exec K o T.mem ≠ none

private theorem pairwise_of_separate {N : Nat} {A : Set Nat} {rest : Loans} {lent : List Lent}
    (separate : Separate N A (loansOf lent + rest)) : lent.Pairwise Apart := by
  induction lent generalizing rest with
  | nil => exact .nil
  | cons b lent ih =>
    rw [loansOf_cons, add_assoc, Multiset.singleton_add] at separate
    refine .cons (fun c member => ?_) (@ih ((b.frame, b.order) ::ₘ rest) ?_)
    · exact separate.apart _ _ rfl (c.frame, c.order)
        (Multiset.mem_add.mpr (Or.inl (mem_loansOf member)))
    · rwa [Multiset.add_cons]

private theorem apart_of_separate {N : Nat} {A : Set Nat} {l rest : Loans} {b : Lent}
    {c : Nat × Nat} (separate : Separate N A (l + rest)) (mine : (b.frame, b.order) ∈ l)
    (theirs : c ∈ rest) (g : Nat) : ¬ (Within b.frame b.order g ∧ Within c.1 c.2 g) := by
  obtain ⟨l', rfl⟩ := Multiset.exists_cons_of_mem mine
  rw [Multiset.cons_add] at separate
  exact separate.apart _ _ rfl c (Multiset.mem_add.mpr (Or.inr theirs)) g

theorem clientsSafe_of_behind {U : LendingThreads ι} {d : ι → Held} {m : ι → Tickets}
    {n : ι → Loans} (behind : Behind W P base T U d m n) : ClientsSafe K T := by
  obtain ⟨same, separate⟩ := behind_loans behind
  have data := behind_data behind
  have alone : ∀ i, ∃ rest, ∑ j, n j = loansOf (T.data i).lent + rest := by
    intro i
    obtain ⟨-, ⟨y, own⟩, -⟩ := data i
    refine ⟨y + ∑ j ∈ Finset.univ.erase i, n j, ?_⟩
    rw [sum_split n i, own, add_comm y, add_assoc]
  have member : ∀ i, ∀ b ∈ (T.data i).lent, (b.frame, b.order) ∈ ∑ j, n j := by
    intro i b own
    obtain ⟨rest, split⟩ := alone i
    rw [split]
    exact Multiset.mem_add.mpr (Or.inl (mem_loansOf own))
  have rel : Explained K base T.mem U.mem (∑ i, d i) := behind.sim.rel
  refine ⟨fun i b own => separate.valid _ (member i b own), fun i => ?_,
    fun i j other b mine c theirs => ?_, fun i b own g within free => ?_, fun i => (data i).1,
    simulated_no_fault behind.sim (booked_faultless behind.booked)⟩
  · obtain ⟨rest, split⟩ := alone i
    rw [split] at separate
    exact pairwise_of_separate separate
  · obtain ⟨-, ⟨y, own⟩, -⟩ := data i
    obtain ⟨-, ⟨z, own'⟩, -⟩ := data j
    rw [sum_split n i, own, add_comm y, add_assoc] at separate
    refine apart_of_separate (c := (c.frame, c.order)) separate (mem_loansOf mine)
      (Multiset.mem_add.mpr (Or.inr (Multiset.mem_sum.mpr ⟨j, ?_, ?_⟩)))
    · exact Finset.mem_erase.mpr ⟨other.symm, Finset.mem_univ j⟩
    · rw [own']
      exact Multiset.mem_add.mpr (Or.inr (mem_loansOf theirs))
  · have real : g / 512 < childrenOf K.frames := by
      rw [← rel.backed.childCount_eq]
      exact free.1
    refine (isFree_iff rel.backed real).mp free ?_
    have out := member i b own
    rw [← same] at out
    obtain ⟨l', split⟩ := Multiset.exists_cons_of_mem out
    rw [split, heldOf_cons]
    have aligned := (separate.valid _ (member i b own)).2
    exact covers_add.mpr (Or.inr (covers_add.mpr (Or.inl (covers_add.mpr (Or.inl
      ((covers_block aligned).mpr within))))))

end LLFree.Upper.Concurrent

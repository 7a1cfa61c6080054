/- module: LLFree/Upper/Progress
   digest: How long calls take among clients that disturb each other. -/

import LLFree.Atomic.Progress
import LLFree.Upper.Effort
import LLFree.Upper.Exchanged

/-!
No client waits for another one. Counted in whole updates a call makes a bounded number of
accesses, whatever the other clients do. An update whose exchange is lost is tried again, but only
for another one that has taken effect, so that all clients together cannot go on without bound.
-/

set_option autoImplicit false
set_option relaxedAutoImplicit false

namespace LLFree.Upper.Progress

open LLFree.Atomic.Pool LLFree.Atomic.Bounded LLFree.Atomic.Retrying LLFree.Atomic.Refinement
open LLFree.Atomic.Progress LLFree.Code.Entries LLFree.Code.Shared LLFree.Code.Llfree
open LLFree.Code.Stack LLFree.Code.Exchanges LLFree.Upper.Ledger LLFree.Upper.Slots
open LLFree.Upper.Sequential LLFree.Upper.Conservation LLFree.Upper.Overwritten
open LLFree.Upper.Lending LLFree.Upper.Layers LLFree.Upper.Concurrent LLFree.Upper.Lives
open LLFree.Upper.Exchanged LLFree.Upper.Effort

variable {ι : Type} {K : Config} {W : Drift K} {F : Prop}

/-! ## Calls -/

theorem call_atMost {h k : Client} {p : WordProg Client} (call : StackCall K h k p) :
    (wordTerms F).AtMost (callBound K) p := by
  obtain ⟨q, allowed, rfl⟩ := call
  apply words_atMost
  cases allowed with
  | get frame request served =>
    exact Terms.atMost_bind (m := 0) (atMost_llfreeGet frame request) fun _ => trivial
  | put b request own same =>
    exact Terms.atMost_bind (m := 0) (atMost_llfreePut b.frame request) fun _ => trivial
  | drain => exact Terms.atMost_bind (m := 0) atMost_llfreeDrain fun _ => trivial

private theorem honest_entries (s : Llfree Lower) : (wordTerms False).Honest (stackSys W) s := by
  intro o r s' _
  cases o with
  | buffer o => trivial
  | lower o =>
    cases o with
    | childLoad i => exact fun on => absurd on id
    | _ => trivial
  | table o =>
    cases o with
    | treesReserveOrSteal idx frames cls => exact fun on => absurd on id
    | localTake cls index treeIdx frames => exact fun on => absurd on id
    | _ => trivial

/-! ## Interleavings of whole updates -/

variable [Fintype ι] [DecidableEq ι] {s : Llfree Lower} {h : ι → Client} {T : StackThreads ι}

private theorem life_faultless (fits : Fits K) (life : Life W s h) (reach : StackReaches W s h T) :
    Faultless (stackSys W) T := by
  have support : Supported (plainPromise K) := False.elim
  obtain ⟨base, U, d, m, n, -, behind⟩ := lives_behind fits support False.elim id life reach
  exact simulated_no_fault behind.sim (booked_faultless behind.booked)

omit [Fintype ι] in
theorem left_atMost (reach : StackReaches W s h T) (i : ι) :
    0 ≤ T.ledger i ∧ ∃ m : Nat, T.ledger i + m ≤ callBound K ∧
      (wordTerms False).AtMost m (T.thread i) := by
  exact reaches_atMost (fun h k p => call_atMost) (fun _ _ => rfl) (fun T _ => honest_entries T.mem)
    reach i

/-- Whatever the accesses of the other clients in between: a call makes at most `callBound`
accesses, and until it returns its client can make the next one. -/
theorem calls_bounded (fits : Fits K) (life : Life W s h) (reach : StackReaches W s h T) (i : ι) :
    ((∃ g, T.thread i = .ret g) ∧ T.ledger i ≤ callBound K) ∨
      (T.ledger i < callBound K ∧ ∃ o k r s', T.thread i = .step o k ∧
        (stackSys W).next o T.mem r s') := by
  obtain ⟨-, m, spent, bounded⟩ := left_atMost reach i
  obtain ⟨alive, fine⟩ := life_faultless fits life reach i
  cases here : T.thread i with
  | ret g => exact Or.inl ⟨⟨g, rfl⟩, by omega⟩
  | abort => exact absurd here alive
  | step o k =>
    rw [here] at bounded
    obtain ⟨-, l, cost, -⟩ := bounded
    obtain ⟨⟨r, s'⟩, done⟩ := Option.ne_none_iff_exists'.mp (fine o k here)
    have one : (wordTerms False).cost o = 1 := rfl
    exact Or.inr ⟨by omega, o, k, r, s', rfl, stackSys_exec done⟩

/-- One client holds a frame, and the other one has made three accesses of its call. -/
theorem calls_bounded_taken : (midway (0 : Fin 2) 1).thread 0 = .ret ⟨[⟨0, 0, 0⟩], 0⟩ ∧
    (∀ g, (midway (0 : Fin 2) 1).thread 1 ≠ .ret g) ∧ (midway (0 : Fin 2) 1).ledger 1 = 3 ∧
    (midway (0 : Fin 2) 1).ledger 1 < callBound oneTree := by
  have running : ∀ g, (midway (0 : Fin 2) 1).thread 1 ≠ .ret g := fun _ idle => by cases idle
  refine ⟨rfl, running, rfl, ?_⟩
  rcases calls_bounded (by decide) (.first .free _ (Or.inl rfl)
    (initZeroed_initialised (by decide))) (midway_reached oneTreeDrift) 1 with
    ⟨⟨g, idle⟩, -⟩ | ⟨less, -⟩
  · exact absurd idle (running g)
  · exact less

/-! ## Interleavings of loads and exchanges -/

variable {R : TryingClients K ι}

theorem trying_sound (byClass : ByClass K.policy) (fits : Fits K) (life : TryingLife K s h)
    (reach : TryingReaches K s h R) :
    (∀ i, (R.thread i).Fair) ∧ (∀ i, R.Fine i) ∧
       ∀ i, (wordTerms False).AtMost (callBound K) (R.thread i).rest := by
  have whole := life_of_trying byClass life
  obtain ⟨fair, ledger, reach'⟩ := stack_of_trying byClass reach
  have faultless := life_faultless fits whole reach'
  refine ⟨fair, fine_of_faultless (words_within byClass) fair faultless, fun i => ?_⟩
  obtain ⟨pos, l, spent, bounded⟩ := left_atMost reach' i
  exact Terms.atMost_mono bounded (by omega)

/-- Clients that load and exchange hold each other up only so long as calls return: nobody in a
call is ever blocked, and as exchanges are lost only to others, the accesses from any moment on
are bounded by the calls that are under way and those that begin. -/
theorem accesses_bounded (byClass : ByClass K.policy) (fits : Fits K) (life : TryingLife K s h)
    (reach : TryingReaches K s h R) :
    (∀ i, (∃ g, R.thread i = .between (.ret g)) ∨
      ∃ t s', Access (wordMeans K) R (R.moved i t s')) ∧
    ∀ calls accesses R', Ran (wordMeans K) (StackCall K) R calls accesses R' →
      accesses ≤ (Fintype.card ι + calls) * ((Fintype.card ι + 1) * callBound K + 1) := by
  obtain ⟨fair, fine, begun⟩ := trying_sound byClass fits life reach
  refine ⟨fun i => ?_, fun calls accesses R' ran => ?_⟩
  · by_cases idle : ∃ g, R.thread i = .between (.ret g)
    · exact Or.inl idle
    · exact Or.inr (can_access (fine i) (fair i) fun g here => idle ⟨g, here⟩)
  · refine ran_bounded (words_within byClass) (fun _ => Nat.one_pos) (fun h k p => call_atMost)
      (fun Q (more : TryReaches (wordMeans K) True (StackCall K) R Q) => ?_) begun ran
    obtain ⟨fair', -⟩ := trying_sound byClass fits life (reach.trans more)
    exact ⟨honest_entries Q.mem, fair'⟩

/-- One of two clients has allocated a frame. -/
theorem accesses_bounded_one : ∃ R : TryingClients oneTree (Fin 2),
    R.thread 0 = .between (.ret ⟨[⟨0, 0, 0⟩], 0⟩) ∧
      ∀ calls accesses R', Ran (wordMeans oneTree) (StackCall oneTree) R calls accesses R' →
        accesses ≤ (2 + calls) * (3 * callBound oneTree + 1) := by
  obtain ⟨life, R, reach, thread⟩ := one_trying
  obtain ⟨-, bound⟩ := accesses_bounded oneTree_standard.byClass (by decide) life reach
  exact ⟨R, by rw [thread]; rfl, bound⟩

end LLFree.Upper.Progress

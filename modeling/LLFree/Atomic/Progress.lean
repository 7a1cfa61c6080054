/- module: LLFree/Atomic/Progress
   digest: Bounds on the accesses of threads that make each other try again. -/

import LLFree.Atomic.Bounded
import LLFree.Atomic.Retrying
import Mathlib.Algebra.Order.BigOperators.Group.Finset

/-!
An exchange is lost to one that takes effect. An operation that takes effect makes every other
thread look at its word once more, and each call has only so many operations. So threads that
make each other try again cannot do so forever.
-/

set_option autoImplicit false
set_option relaxedAutoImplicit false

namespace LLFree.Atomic.Progress

open LLFree.Atomic.Program LLFree.Atomic.Escrow LLFree.Atomic.Pool LLFree.Atomic.Bounded
open LLFree.Atomic.Retrying

variable {Op : Type} {Res : Op → Type} {S X H ι : Type} [DecidableEq ι] {L : Means Op Res S X}
  {call : H → H → Prog Op Res H → Prop} {weak : Prop} {P P' : Triers L H ι} {i : ι}

/-! ## Runs -/

abbrev Access (L : Means Op Res S X) : Triers L H ι → Triers L H ι → Prop :=
  TryStep L False fun _ _ _ => False

/-- A run in which so many calls begin, and so many accesses are made. -/
inductive Ran (L : Means Op Res S X) (call : H → H → Prog Op Res H → Prop) (P : Triers L H ι) :
    Nat → Nat → Triers L H ι → Prop
  | refl : Ran L call P 0 0 P
  | start (calls accesses : Nat) (Q : Triers L H ι) (i : ι) (h k : H) (p : Prog Op Res H)
      (before : Ran L call P calls accesses Q) (idle : Q.thread i = .between (.ret h))
      (allowed : call h k p) : Ran L call P (calls + 1) accesses
        ⟨Q.mem, Function.update Q.thread i (.between p), Function.update Q.kept i k⟩
  | access (calls accesses : Nat) (Q Q' : Triers L H ι) (before : Ran L call P calls accesses Q)
      (step : Access L Q Q') : Ran L call P calls (accesses + 1) Q'

theorem step_of_access (step : Access L P P') : TryStep L weak call P P' := by
  cases step with
  | start i h k p idle allowed => exact absurd allowed id
  | access i o k r s next single done => exact .access P i o k r s next single done
  | load i o k t next update reaction => exact .load P i o k t next update reaction
  | exchange i o k seen new x left r next same stores =>
    exact .exchange P i o k seen new x left r next same stores
  | lost i o k seen new x left r t next changed stores reaction =>
    exact .lost P i o k seen new x left r t next (fun same => absurd (changed same) id) stores
      reaction

theorem ran_reaches {calls accesses : Nat} (ran : Ran L call P calls accesses P') :
    TryReaches L weak call P P' := by
  induction ran with
  | refl => exact .refl
  | start calls accesses Q i h k p _ idle allowed ih =>
    exact ih.tail (.start Q i h k p idle allowed)
  | access calls accesses Q Q' _ step ih => exact ih.tail (step_of_access step)

/-- A thread in a call that stands at no failed assertion can make its next access, whatever the
other threads are doing. -/
theorem can_access (fine : P.Fine i) (fair : (P.thread i).Fair)
    (busy : ∀ h, P.thread i ≠ .between (.ret h)) : ∃ t s, Access L P (P.moved i t s) := by
  unfold Triers.Fine at fine
  cases here : P.thread i with
  | between p =>
    rw [here] at fine
    cases p with
    | ret h => exact absurd here (busy h)
    | abort => exact absurd fine id
    | step o k =>
      dsimp only at fine
      cases single : L.single o with
      | true =>
        rw [if_pos single] at fine
        obtain ⟨⟨r, s⟩, done⟩ := Option.ne_none_iff_exists'.mp fine
        exact ⟨_, s, .access P i o k r s here single done⟩
      | false =>
        rw [if_neg (by simp [single])] at fine
        obtain ⟨t, reaction⟩ := Option.ne_none_iff_exists'.mp fine
        exact ⟨t, P.mem, .load P i o k t here single reaction⟩
  | trying o k seen x =>
    rw [here] at fine fair
    obtain ⟨-, new, r, left, stores⟩ := fair
    by_cases same : (L.update o).load P.mem = some seen
    · exact ⟨_, _, .exchange P i o k seen new x left r here same stores⟩
    · obtain ⟨t, reaction⟩ := Option.ne_none_iff_exists'.mp (fine new r left stores)
      exact ⟨t, P.mem, .lost P i o k seen new x left r t here
        (fun same' => absurd same' same) stores reaction⟩

/-! ## Effort -/

variable [Fintype ι]

def Fresh (t : Trier L H) (s : S) : Prop :=
  match t with
  | .between _ => False
  | .trying o _ seen _ => (L.update o).load s = some seen

open Classical in
noncomputable def looks (t : Trier L H) (s : S) : Nat := if Fresh t s then 0 else 1

noncomputable def effort (P : Triers L H ι) (n : ι → Nat) : Nat :=
  ∑ i, ((Fintype.card ι + 1) * n i + looks (P.thread i) P.mem)

variable {n : ι → Nat} {m c : Nat}

private theorem looks_le (t : Trier L H) (s : S) : looks t s ≤ 1 := by
  unfold looks
  split_ifs <;> omega

private theorem looks_fresh {t : Trier L H} {s : S} (fresh : Fresh t s) : looks t s = 0 :=
  if_pos fresh

private theorem looks_stale {t : Trier L H} {s : S} (stale : ¬ Fresh t s) : looks t s = 1 :=
  if_neg stale

omit [DecidableEq ι] in
theorem effort_le (P : Triers L H ι) (bounded : ∀ i, n i ≤ m) :
    effort P n ≤ Fintype.card ι * ((Fintype.card ι + 1) * m + 1) := by
  have each : ∀ i, (Fintype.card ι + 1) * n i + looks (P.thread i) P.mem ≤
      (Fintype.card ι + 1) * m + 1 :=
    fun i => Nat.add_le_add (Nat.mul_le_mul_left _ (bounded i)) (looks_le _ _)
  refine (Finset.sum_le_sum fun i _ => each i).trans ?_
  simp

theorem effort_done (P P' : Triers L H ι) (less : c < n i) :
    effort P' (Function.update n i c) < effort P n := by
  have after : effort P' (Function.update n i c) ≤
      ∑ j, Function.update (fun j => (Fintype.card ι + 1) * n j) i ((Fintype.card ι + 1) * c) j +
        Fintype.card ι := by
    have each : ∀ j, (Fintype.card ι + 1) * Function.update n i c j + looks (P'.thread j) P'.mem ≤
        Function.update (fun j => (Fintype.card ι + 1) * n j) i
          ((Fintype.card ι + 1) * c) j + 1 := by
      intro j
      refine Nat.add_le_add (Nat.le_of_eq ?_) (looks_le _ _)
      by_cases same : j = i
      · subst same
        simp
      · simp [same]
    refine (Finset.sum_le_sum fun j _ => each j).trans ?_
    simp [Finset.sum_add_distrib]
  have before : ∑ j, (Fintype.card ι + 1) * n j ≤ effort P n :=
    Finset.sum_le_sum fun j _ => Nat.le_add_right _ _
  rw [sum_update] at after
  rw [sum_split _ i] at before
  have paid : (Fintype.card ι + 1) * c + (Fintype.card ι + 1) ≤ (Fintype.card ι + 1) * n i := by
    rw [← Nat.mul_succ]
    exact Nat.mul_le_mul_left _ less
  omega

theorem effort_looked {t : Trier L H} (stale : ¬ Fresh (P.thread i) P.mem) (fresh : Fresh t P.mem) :
    effort (P.moved i t P.mem) n < effort P n := by
  refine Finset.sum_lt_sum (fun j _ => ?_) ⟨i, Finset.mem_univ i, ?_⟩
  · by_cases same : j = i
    · subst same
      simp only [Triers.moved, Function.update_self]
      rw [looks_fresh fresh]
      exact Nat.add_le_add_left (Nat.zero_le _) _
    · simp only [Triers.moved, Function.update_of_ne same]
      exact le_refl _
  · simp only [Triers.moved, Function.update_self]
    rw [looks_fresh fresh, looks_stale stale]
    exact Nat.lt_succ_self _

theorem effort_begun {t : Trier L H} (mem : P'.mem = P.mem)
    (thread : P'.thread = Function.update P.thread i t) :
    effort P' (Function.update n i m) ≤ effort P n + ((Fintype.card ι + 1) * m + 1) := by
  have each : ∀ j, (Fintype.card ι + 1) * Function.update n i m j + looks (P'.thread j) P'.mem ≤
      Function.update (fun j => (Fintype.card ι + 1) * n j + looks (P.thread j) P.mem) i
        ((Fintype.card ι + 1) * m + 1) j := by
    intro j
    rw [mem, thread]
    by_cases same : j = i
    · subst same
      simp only [Function.update_self]
      exact Nat.add_le_add_left (looks_le _ _) _
    · simp only [Function.update_of_ne same]
      exact le_refl _
  refine (Finset.sum_le_sum fun j _ => each j).trans ?_
  rw [sum_update, Nat.add_comm]
  exact Nat.add_le_add_right (Finset.sum_le_sum_of_subset (Finset.erase_subset i Finset.univ)) _

/-! ## Bounds -/

variable {E : Terms Op Res} {sys : Sys Op Res S}

def Budget (E : Terms Op Res) (P : Triers L H ι) (n : ι → Nat) : Prop :=
  ∀ i, E.AtMost (n i) (P.thread i).rest

omit [Fintype ι] in
private theorem budget_moved {t : Trier L H} (budget : Budget E P n)
    (thread : P'.thread = Function.update P.thread i t) (mine : E.AtMost m t.rest) :
    Budget E P' (Function.update n i m) := by
  intro j
  rw [thread]
  by_cases same : j = i
  · subst same
    simp only [Function.update_self]
    exact mine
  · simp only [Function.update_of_ne same]
    exact budget j

omit [DecidableEq ι] [Fintype ι] in
private theorem spent {o : Op} {k : Res o → Prog Op Res H} (costs : ∀ o, 0 < E.cost o)
    (bounded : E.AtMost m (.step o k)) : ∃ c < m, ∀ r, E.given o r → E.AtMost c (k r) := by
  obtain ⟨-, c, cost, rest⟩ := bounded
  have pos := costs o
  exact ⟨c, by omega, rest⟩

theorem access_effort (within : L.Within sys) (costs : ∀ o, 0 < E.cost o)
    (honest : E.Honest sys P.mem) (fair : ∀ i, (P.thread i).Fair) (budget : Budget E P n)
    (step : Access L P P') : ∃ n', Budget E P' n' ∧ effort P' n' < effort P n := by
  have acts : ∀ i o k r s, (P.thread i).rest = .step o k → sys.next o P.mem r s →
      ∃ n', Budget E (P.moved i (.between (k r)) s) n' ∧
        effort (P.moved i (.between (k r)) s) n' < effort P n := by
    intro i o k r s here next
    have bounded := budget i
    rw [here] at bounded
    obtain ⟨c, less, rest⟩ := spent costs bounded
    exact ⟨_, budget_moved budget rfl (rest r (honest o r s next)), effort_done P _ less⟩
  have reacts : ∀ i o k t x, (P.thread i).rest = .step o k → ¬ Fresh (P.thread i) P.mem →
      (L.update o).Left x → L.react o k P.mem x = some t →
      ∃ n', Budget E (P.moved i t P.mem) n' ∧ effort (P.moved i t P.mem) n' < effort P n := by
    intro i o k t x here stale left reaction
    obtain ⟨v, seen, ⟨r, gives, rfl⟩ | ⟨new, r, after, -, rfl⟩⟩ := react_cases reaction
    · exact acts i o k r P.mem here (within.gives o P.mem v x r left seen gives)
    · refine ⟨n, ?_, effort_looked stale seen⟩
      have bounded := budget i
      rw [here] at bounded
      have moved : Budget E (P.moved i (.trying o k v x) P.mem) (Function.update n i (n i)) :=
        budget_moved budget rfl bounded
      rwa [Function.update_eq_self] at moved
  cases step with
  | start i h k p idle allowed => exact absurd allowed id
  | access i o k r s next single done =>
    exact acts i o k r s (by rw [next]; rfl) (within.access o P.mem r s single done)
  | load i o k t next update reaction =>
    exact reacts i o k t _ (by rw [next]; rfl) (by rw [next]; exact id) .vars reaction
  | exchange i o k seen new x left r next same stores =>
    have mine := fair i
    rw [next] at mine
    exact acts i o k r _ (by rw [next]; rfl)
      (within.stores o P.mem seen x new r left mine.1 same stores)
  | lost i o k seen new x left r t next changed stores reaction =>
    have mine := fair i
    rw [next] at mine
    refine reacts i o k t _ (by rw [next]; rfl) ?_ (.lost seen new r x left mine.1 stores) reaction
    rw [next]
    exact changed

/-- However the threads interleave, all accesses together are bounded by the calls: those under
way, and those that begin. -/
theorem ran_bounded (within : L.Within sys) (costs : ∀ o, 0 < E.cost o)
    (calls : ∀ h k p, call h k p → E.AtMost m p)
    (sound : ∀ Q, TryReaches L weak call P Q → E.Honest sys Q.mem ∧ ∀ i, (Q.thread i).Fair)
    (begun : ∀ i, E.AtMost m (P.thread i).rest) {a b : Nat} (ran : Ran L call P a b P') :
    b ≤ (Fintype.card ι + a) * ((Fintype.card ι + 1) * m + 1) := by
  suffices ∃ n, Budget E P' n ∧ b + effort P' n ≤
      (Fintype.card ι + a) * ((Fintype.card ι + 1) * m + 1) by
    obtain ⟨n, -, le⟩ := this
    exact (Nat.le_add_right b _).trans le
  induction ran with
  | refl =>
    refine ⟨fun _ => m, begun, ?_⟩
    rw [Nat.zero_add, Nat.add_zero]
    exact effort_le P fun _ => le_refl m
  | start a b Q i h k p before idle allowed ih =>
    obtain ⟨n, budget, le⟩ := ih
    refine ⟨Function.update n i m, budget_moved budget rfl (calls h k p allowed), ?_⟩
    have more : effort (⟨Q.mem, Function.update Q.thread i (.between p),
        Function.update Q.kept i k⟩ : Triers L H ι) (Function.update n i m) ≤
          effort Q n + ((Fintype.card ι + 1) * m + 1) := effort_begun rfl rfl
    rw [← Nat.add_assoc (Fintype.card ι) a 1, Nat.succ_mul]
    omega
  | access a b Q Q' before step ih =>
    obtain ⟨n, budget, le⟩ := ih
    obtain ⟨honest, fair⟩ := sound Q (ran_reaches before)
    obtain ⟨n', budget', less⟩ := access_effort within costs honest fair budget step
    exact ⟨n', budget', by omega⟩

end LLFree.Atomic.Progress

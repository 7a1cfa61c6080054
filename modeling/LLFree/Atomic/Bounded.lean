/- module: LLFree/Atomic/Bounded
   digest: How many operations a program performs at most, and with which arguments. -/

import LLFree.Atomic.Refinement
import Mathlib.Tactic.Ring

/-!
A program is judged before it runs: its operations return anything that the terms let them, so the
bound holds whatever other threads do in between.
-/

set_option autoImplicit false
set_option relaxedAutoImplicit false

namespace LLFree.Atomic.Bounded

open LLFree.Atomic.Program LLFree.Atomic.Escrow LLFree.Atomic.Pool LLFree.Atomic.Expansion

/-- What an operation costs, what a program may ask for, and what it is given in return. -/
structure Terms (Op : Type) (Res : Op → Type) where
  cost : Op → Nat
  asks : Op → Prop
  given : (o : Op) → Res o → Prop

variable {Op OpA : Type} {Res : Op → Type} {ResA : OpA → Type} {S D H α β ι : Type}

namespace Terms

/-- The program asks for what it may, costs `n` at most, and ends with a result in `Q`. -/
def Within (E : Terms Op Res) : Nat → Prog Op Res α → (α → Prop) → Prop
  | _, .ret a, Q => Q a
  | _, .abort, _ => True
  | n, .step o k, Q => E.asks o ∧ ∃ m, E.cost o + m ≤ n ∧ ∀ r, E.given o r → E.Within m (k r) Q

abbrev AtMost (E : Terms Op Res) (n : Nat) (p : Prog Op Res α) : Prop := E.Within n p fun _ => True

variable {E : Terms Op Res} {n m c : Nat} {p : Prog Op Res α} {Q Q' : α → Prop}

theorem within_mono (within : E.Within n p Q) (le : n ≤ m) (post : ∀ a, Q a → Q' a) :
    E.Within m p Q' := by
  induction p generalizing n m with
  | ret a => exact post a within
  | abort => trivial
  | step o k ih =>
    obtain ⟨asks, l, cost, rest⟩ := within
    exact ⟨asks, l, cost.trans le, fun r given => ih r (rest r given) (le_refl l)⟩

theorem atMost_mono (bounded : E.AtMost n p) (le : n ≤ m) : E.AtMost m p :=
  within_mono bounded le fun _ => id

theorem within_bind {f : α → Prog Op Res β} {P : β → Prop} (first : E.Within n p Q)
    (rest : ∀ a, Q a → E.Within m (f a) P) : E.Within (n + m) (p >>= f) P := by
  induction p generalizing n with
  | ret a => exact within_mono (rest a first) (Nat.le_add_left m n) fun _ => id
  | abort => trivial
  | step o k ih =>
    obtain ⟨asks, l, cost, more⟩ := first
    refine ⟨asks, l + m, ?_, fun r given => ih r (more r given)⟩
    rw [← Nat.add_assoc]
    exact Nat.add_le_add_right cost m

theorem atMost_bind {f : α → Prog Op Res β} (first : E.AtMost n p)
    (rest : ∀ a, E.AtMost m (f a)) : E.AtMost (n + m) (p >>= f) :=
  within_bind first fun a _ => rest a

theorem within_step {o : Op} {k : Res o → Prog Op Res α} (asks : E.asks o)
    (rest : ∀ r, E.given o r → E.Within m (k r) Q) : E.Within (E.cost o + m) (.step o k) Q :=
  ⟨asks, m, le_refl _, rest⟩

theorem atMost_assert {q : Prop} [Decidable q] : E.AtMost n (Prog.assert q) := by
  unfold Prog.assert
  split_ifs <;> trivial

theorem within_assert {q : Prop} [Decidable q] {f : Unit → Prog Op Res α}
    (rest : q → E.Within n (f ()) Q) : E.Within n (Prog.assert q >>= f) Q := by
  unfold Prog.assert
  split_ifs with holds
  · exact rest holds
  · trivial

theorem within_firstSome {γ : Type} {f : γ → Prog Op Res (Option α)} {cost : γ → Nat}
    {Q : Option α → Prop} (xs : List γ) (miss : Q none)
    (each : ∀ x ∈ xs, E.Within (cost x) (f x) Q) :
    E.Within (xs.map cost).sum (Prog.firstSome xs f) Q := by
  induction xs with
  | nil => exact miss
  | cons x xs ih =>
    rw [Prog.firstSome, List.map_cons, List.sum_cons]
    refine within_bind (each x List.mem_cons_self) fun r post => ?_
    cases r with
    | some a => exact post
    | none => exact ih fun y member => each y (List.mem_cons_of_mem x member)

theorem atMost_firstSome {γ : Type} {f : γ → Prog Op Res (Option α)} (xs : List γ)
    (each : ∀ x ∈ xs, E.AtMost c (f x)) : E.AtMost (xs.length * c) (Prog.firstSome xs f) := by
  have turns := within_firstSome (Q := fun _ => True) xs trivial each
  rwa [List.map_const', List.sum_replicate_nat] at turns

theorem atMost_each {γ : Type} {f : γ → Prog Op Res Unit} (xs : List γ)
    (each : ∀ x ∈ xs, E.AtMost c (f x)) : E.AtMost (xs.length * c) (Prog.each xs f) := by
  induction xs with
  | nil => trivial
  | cons x xs ih =>
    rw [Prog.each, List.length_cons, Nat.add_mul, Nat.one_mul, Nat.add_comm]
    exact atMost_bind (each x List.mem_cons_self) fun _ =>
      ih fun y member => each y (List.mem_cons_of_mem x member)

theorem within_expand {A : Terms OpA ResA} {impl : (o : OpA) → Prog Op Res (ResA o)}
    (keeps : ∀ o, A.asks o → E.Within (A.cost o) (impl o) (A.given o)) {p : Prog OpA ResA α}
    (within : A.Within n p Q) : E.Within n (expand impl p) Q := by
  induction p generalizing n with
  | ret a => exact within
  | abort => trivial
  | step o k ih =>
    obtain ⟨asks, m, cost, rest⟩ := within
    exact within_mono (within_bind (keeps o asks) fun r given => ih r (rest r given)) cost
      fun _ => id

end Terms

/-! ## Pools -/

section Pools

variable [DecidableEq ι] {E : Terms Op Res} {sys : Sys Op Res S}
  {call : H → H → Prog Op Res H → Prop} {n : Nat}

def Terms.Honest (E : Terms Op Res) (sys : Sys Op Res S) (s : S) : Prop :=
  ∀ o r s', sys.next o s r s' → E.given o r

/-- In the middle of a call a thread has not spent more than its calls may, and is within what is
left of it. -/
theorem reaches_atMost {delta : (o : Op) → Res o → Int} {P : Threads Op Res S Int H ι} {s : S}
    {h : ι → H} (calls : ∀ h k p, call h k p → E.AtMost n p) (priced : ∀ o r, delta o r = E.cost o)
    (honest : ∀ P, Reaches sys delta call (Threads.idle s h) P → E.Honest sys P.mem)
    (reach : Reaches sys delta call (Threads.idle s h) P) (i : ι) :
    0 ≤ P.ledger i ∧ ∃ m : Nat, P.ledger i + m ≤ n ∧ E.AtMost m (P.thread i) := by
  induction reach with
  | refl => exact ⟨le_refl _, n, by simp [Threads.idle], trivial⟩
  | @tail Q Q' before step ih =>
    cases step with
    | start j h k p idle allowed =>
      by_cases same : i = j
      · subst same
        simp only [Function.update_self]
        exact ⟨le_refl _, n, by omega, calls h k p allowed⟩
      · simp only [Function.update_of_ne same]
        exact ih
    | act j o k r s next effect =>
      by_cases same : i = j
      · subst same
        obtain ⟨pos, m, spent, bounded⟩ := ih
        rw [next] at bounded
        obtain ⟨-, l, cost, rest⟩ := bounded
        simp only [Function.update_self]
        rw [priced]
        exact ⟨by omega, l, by omega, rest r (honest Q before o r s effect)⟩
      · simp only [Function.update_of_ne same]
        exact ih

end Pools

end LLFree.Atomic.Bounded

/- module: LLFree/Atomic/Loops
   digest: Complete runs of counted loops, with a condition on each of their operations. -/

import LLFree.Atomic.Program
import Mathlib.Data.List.Basic

set_option autoImplicit false
set_option relaxedAutoImplicit false

namespace LLFree.Atomic.Loops

open LLFree.Atomic.Program LLFree.Atomic.Program.Prog

variable {Op : Type} {Res : Op → Type} {S α β : Type}
  {exec : (o : Op) → S → Option (Res o × S)} {P : Op → S → Prop}

/-- The run ends with `a` in state `s'`, and each of its operations meets `P`. -/
structure Completes (exec : (o : Op) → S → Option (Res o × S)) (P : Op → S → Prop)
    (p : Prog Op Res α) (s : S) (a : α) (s' : S) : Prop where
  run : Prog.run exec p s = some (a, s')
  along : Along exec P p s

theorem completes_ret (a : α) (s : S) : Completes exec P (.ret a) s a s := ⟨rfl, trivial⟩

theorem completes_step {o : Op} {k : Res o → Prog Op Res α} {s t s' : S} {r : Res o} {a : α}
    (done : exec o s = some (r, t)) (meets : P o s) (rest : Completes exec P (k r) t a s') :
    Completes exec P (.step o k) s a s' := by
  refine ⟨?_, meets, fun r' t' other => ?_⟩
  · rw [run_step, done]
    exact rest.run
  · rw [done] at other
    obtain ⟨rfl, rfl⟩ := Prod.mk.inj (Option.some.inj other)
    exact rest.along

theorem completes_bind {p : Prog Op Res α} {f : α → Prog Op Res β} {s t s' : S} {a : α} {b : β}
    (first : Completes exec P p s a t) (rest : Completes exec P (f a) t b s') :
    Completes exec P (p >>= f) s b s' := by
  induction p generalizing s with
  | ret a' =>
    obtain ⟨rfl, rfl⟩ := Prod.mk.inj (Option.some.inj first.run)
    exact rest
  | abort => cases first.run
  | step o k ih =>
    obtain ⟨run, meets, along⟩ := first
    rw [run_step] at run
    obtain ⟨⟨r, u⟩, done, tail⟩ := Option.bind_eq_some_iff.mp run
    exact completes_step done meets (ih r ⟨tail, along r u done⟩)

theorem completes_assert {c : Prop} [Decidable c] (holds : c) (s : S) :
    Completes exec P (Prog.assert c) s () s := by
  rw [Prog.assert, if_pos holds]
  exact completes_ret () s

theorem runFor_along {J : S → Prop} (meets : ∀ o s, P o s → J s) {p : Prog Op Res α} {s s' : S}
    {a : α} (done : Completes exec P p s a s') (start : J s) (last : J s') (n : Nat) :
    J (Prog.runFor exec n p s).2 := by
  induction p generalizing s n with
  | ret a' =>
    cases n <;> exact start
  | abort => cases done.run
  | step o k ih =>
    cases n with
    | zero => exact start
    | succ n =>
      obtain ⟨run, -, along⟩ := done
      rw [run_step] at run
      obtain ⟨⟨r, t⟩, first, tail⟩ := Option.bind_eq_some_iff.mp run
      have rest : Completes exec P (k r) t a s' := ⟨tail, along r t first⟩
      have next : J t := by
        cases here : k r with
        | ret a' =>
          rw [here] at tail
          obtain ⟨-, rfl⟩ := Prod.mk.inj (Option.some.inj tail)
          exact last
        | abort =>
          rw [here] at tail
          cases tail
        | step o' k' =>
          have meets' := rest.along
          rw [here] at meets'
          exact meets o' t meets'.1
      simp only [Prog.runFor, first]
      exact ih r rest next n

/-! ## Loops -/

theorem run_each_same {ι : Type} {f : ι → Prog Op Res Unit} {s : S} (xs : List ι)
    (same : ∀ x ∈ xs, Prog.run exec (f x) s = some ((), s)) :
    Prog.run exec (Prog.each xs f) s = some ((), s) := by
  induction xs with
  | nil => rfl
  | cons x xs ih =>
    rw [Prog.each, Prog.run_bind_some (same x List.mem_cons_self)]
    exact ih fun y member => same y (List.mem_cons_of_mem x member)

theorem completes_each {f : Nat → Prog Op Res Unit} {state : Nat → S} (first count : Nat)
    (turn : ∀ k, first ≤ k → k < first + count →
      Completes exec P (f k) (state k) () (state (k + 1))) :
    Completes exec P (Prog.each (List.range' first count) f) (state first) ()
      (state (first + count)) := by
  induction count generalizing first with
  | zero => exact completes_ret () _
  | succ count ih =>
    rw [List.range'_succ, Prog.each, Nat.add_comm count 1, ← Nat.add_assoc]
    refine completes_bind (turn first (Nat.le_refl _) (Nat.lt_add_of_pos_right (Nat.succ_pos _))) ?_
    refine ih (first + 1) fun k low high => turn k (Nat.le_of_succ_le low) ?_
    rwa [Nat.add_comm count 1, ← Nat.add_assoc]

theorem completes_fold {f : β → Nat → Prog Op Res β} {s : S} (sum : Nat → β) (first count : Nat)
    (turn : ∀ k, first ≤ k → k < first + count →
      Completes exec P (f (sum k) k) s (sum (k + 1)) s) :
    Completes exec P ((List.range' first count).foldlM f (sum first)) s
      (sum (first + count)) s := by
  induction count generalizing first with
  | zero => exact completes_ret _ s
  | succ count ih =>
    rw [List.range'_succ, List.foldlM_cons, Nat.add_comm count 1, ← Nat.add_assoc]
    refine completes_bind (turn first (Nat.le_refl _) (Nat.lt_add_of_pos_right (Nat.succ_pos _))) ?_
    refine ih (first + 1) fun k low high => turn k (Nat.le_of_succ_le low) ?_
    rwa [Nat.add_comm count 1, ← Nat.add_assoc]

end LLFree.Atomic.Loops

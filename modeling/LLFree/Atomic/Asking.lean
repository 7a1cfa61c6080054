/- module: LLFree/Atomic/Asking
   digest: Which operations a program asks for, given what is known of the answers. -/

import LLFree.Atomic.Program

set_option autoImplicit false
set_option relaxedAutoImplicit false

namespace LLFree.Atomic.Asking

open LLFree.Atomic.Program

variable {Op : Type} {Res : Op → Type} {S α β : Type}

/-- What programs may ask of a memory and what they may rely on in its answers. -/
structure Discipline (Op : Type) (Res : Op → Type) where
  asks : Op → Prop
  answers : (o : Op) → Res o → Prop

namespace Discipline

/-- As long as the answers are as promised, the program asks for nothing else and ends in `Q`. -/
def Keeps (D : Discipline Op Res) : Prog Op Res α → (α → Prop) → Prop
  | .ret a, Q => Q a
  | .abort, _ => True
  | .step o k, Q => D.asks o ∧ ∀ r, D.answers o r → D.Keeps (k r) Q

variable {D : Discipline Op Res}

theorem keeps_bind {p : Prog Op Res α} {f : α → Prog Op Res β} {Q : α → Prop} {Q' : β → Prop}
    (first : D.Keeps p Q) (rest : ∀ a, Q a → D.Keeps (f a) Q') : D.Keeps (p >>= f) Q' := by
  induction p with
  | ret a => exact rest a first
  | abort => trivial
  | step o k ih => exact ⟨first.1, fun r answer => ih r (first.2 r answer)⟩

theorem keeps_assert {c : Prop} [Decidable c] {f : Unit → Prog Op Res β} {Q : β → Prop}
    (rest : c → D.Keeps (f ()) Q) : D.Keeps (Prog.assert c >>= f) Q := by
  by_cases holds : c
  · rw [Prog.assert_bind holds]
    exact rest holds
  · rw [Prog.assert, if_neg holds]
    trivial

/-! ## Loops -/

theorem keeps_firstSome {ι : Type} {f : ι → Prog Op Res (Option α)} {Q : α → Prop} (xs : List ι)
    (attempt : ∀ x ∈ xs, D.Keeps (f x) fun r => ∀ a, r = some a → Q a) :
    D.Keeps (Prog.firstSome xs f) fun r => ∀ a, r = some a → Q a := by
  induction xs with
  | nil =>
    intro a none
    cases none
  | cons x xs ih =>
    apply keeps_bind (attempt x List.mem_cons_self)
    rintro (_ | a) found
    · exact ih fun y member => attempt y (List.mem_cons_of_mem x member)
    · exact found

theorem keeps_search {ι : Type} {f : ι → Prog Op Res (Option α)} {Q : α → Prop} {d : α}
    (xs : List ι) (fail : Q d)
    (attempt : ∀ x ∈ xs, D.Keeps (f x) fun r => ∀ a, r = some a → Q a) :
    D.Keeps (Prog.firstSome xs f >>= fun r => pure (r.getD d)) Q := by
  apply keeps_bind (keeps_firstSome xs attempt)
  rintro (_ | a) found
  · exact fail
  · exact found a rfl

theorem keeps_each {ι : Type} {f : ι → Prog Op Res Unit} (xs : List ι)
    (body : ∀ x ∈ xs, D.Keeps (f x) fun _ => True) :
    D.Keeps (Prog.each xs f) fun _ => True := by
  induction xs with
  | nil => trivial
  | cons x xs ih =>
    apply keeps_bind (body x List.mem_cons_self)
    intro _ _
    exact ih fun y member => body y (List.mem_cons_of_mem x member)

/-! ## Runs -/

variable {exec : (o : Op) → S → Option (Res o × S)} {I : S → Prop}

def Serves (D : Discipline Op Res) (exec : (o : Op) → S → Option (Res o × S)) (I : S → Prop) :
    Prop :=
  ∀ o s r s', D.asks o → I s → exec o s = some (r, s') → D.answers o r ∧ I s'

theorem along_keeps (serves : D.Serves exec I) {p : Prog Op Res α} {Q : α → Prop} {s : S}
    (keeps : D.Keeps p Q) (start : I s) :
    Prog.Along exec (fun o t => D.asks o ∧ I t) p s := by
  induction p generalizing s with
  | ret a => trivial
  | abort => trivial
  | step o k ih =>
    refine ⟨⟨keeps.1, start⟩, fun r s' done => ?_⟩
    obtain ⟨answer, next⟩ := serves o s r s' keeps.1 start done
    exact ih r (keeps.2 r answer) next

theorem run_keeps (serves : D.Serves exec I) {p : Prog Op Res α} {Q : α → Prop} {s s' : S} {a : α}
    (keeps : D.Keeps p Q) (start : I s) (run : Prog.run exec p s = some (a, s')) : Q a ∧ I s' := by
  induction p generalizing s with
  | ret b =>
    obtain ⟨rfl, rfl⟩ := Prod.mk.inj (Option.some.inj run)
    exact ⟨keeps, start⟩
  | abort => cases run
  | step o k ih =>
    rw [Prog.run_step, Option.bind_eq_some_iff] at run
    obtain ⟨⟨r, t⟩, first, tail⟩ := run
    obtain ⟨answer, next⟩ := serves o s r t keeps.1 start first
    exact ih r (keeps.2 r answer) next tail

end Discipline

/-! ## Runs whose operations are known -/

variable {exec : (o : Op) → S → Option (Res o × S)} {P P' : Op → S → Prop}

theorem along_and {p : Prog Op Res α} {s : S} (one : Prog.Along exec P p s)
    (two : Prog.Along exec P' p s) : Prog.Along exec (fun o t => P o t ∧ P' o t) p s := by
  induction p generalizing s with
  | ret a => trivial
  | abort => trivial
  | step o k ih => exact ⟨⟨one.1, two.1⟩, fun r s' done => ih r (one.2 r s' done) (two.2 r s' done)⟩

theorem run_along {I : S → Prop} {p : Prog Op Res α} {s s' : S} {a : α}
    (along : Prog.Along exec P p s)
    (step : ∀ o t r t', P o t → I t → exec o t = some (r, t') → I t') (start : I s)
    (run : Prog.run exec p s = some (a, s')) : I s' := by
  induction p generalizing s with
  | ret b =>
    obtain ⟨rfl, rfl⟩ := Prod.mk.inj (Option.some.inj run)
    exact start
  | abort => cases run
  | step o k ih =>
    rw [Prog.run_step, Option.bind_eq_some_iff] at run
    obtain ⟨⟨r, t⟩, first, tail⟩ := run
    exact ih r (along.2 r t first) (step o s r t along.1 start first) tail

end LLFree.Atomic.Asking

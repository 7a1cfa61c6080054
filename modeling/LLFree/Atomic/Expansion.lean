/- module: LLFree/Atomic/Expansion
   digest: Programs whose operations are carried out by programs over finer operations. -/

import LLFree.Atomic.Program

set_option autoImplicit false
set_option relaxedAutoImplicit false

namespace LLFree.Atomic.Expansion

open LLFree.Atomic.Program

variable {OpA Op : Type} {ResA : OpA → Type} {Res : Op → Type} {S α : Type}

/-- The program that carries out each operation of `p` by a program of its own. -/
def expand (impl : (o : OpA) → Prog Op Res (ResA o)) : Prog OpA ResA α → Prog Op Res α
  | .ret a => .ret a
  | .abort => .abort
  | .step o k => impl o >>= fun r => expand impl (k r)

variable {impl : (o : OpA) → Prog Op Res (ResA o)}

@[simp] theorem expand_ret (a : α) : expand impl (.ret a) = .ret a := rfl

@[simp] theorem expand_abort : expand impl (.abort : Prog OpA ResA α) = .abort := rfl

@[simp] theorem expand_step (o : OpA) (k : ResA o → Prog OpA ResA α) :
    expand impl (.step o k) = impl o >>= fun r => expand impl (k r) := rfl

theorem expand_bind {β : Type} (p : Prog OpA ResA α) (f : α → Prog OpA ResA β) :
    expand impl (p >>= f) = expand impl p >>= fun a => expand impl (f a) := by
  induction p with
  | ret a => rfl
  | abort => rfl
  | step o k ih =>
    simp only [Prog.step_bind, expand_step, Prog.assoc]
    congr 1
    funext r
    exact ih r

theorem run_expand {exec : (o : Op) → S → Option (Res o × S)}
    {whole : (o : OpA) → S → Option (ResA o × S)} {I : S → Prop}
    (same : ∀ o s, I s → Prog.run exec (impl o) s = whole o s)
    (keeps : ∀ o s r s', I s → whole o s = some (r, s') → I s') (p : Prog OpA ResA α) {s : S}
    (start : I s) : Prog.run exec (expand impl p) s = Prog.run whole p s := by
  induction p generalizing s with
  | ret a => rfl
  | abort => rfl
  | step o k ih =>
    rw [expand_step, Prog.run_bind, Prog.run_step, same o s start]
    cases done : whole o s with
    | none => rfl
    | some x => exact ih x.1 (keeps o s x.1 x.2 start done)

end LLFree.Atomic.Expansion

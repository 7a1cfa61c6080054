/- module: LLFree/Atomic/Program
   digest: Programs over indivisible operations, their complete and cut-off runs. -/

import Mathlib.Init
import Mathlib.Tactic.Basic

set_option autoImplicit false
set_option relaxedAutoImplicit false

namespace LLFree.Atomic.Program

/-- A program that reaches shared memory only through indivisible operations.
`abort` is a failed assertion: the program never continues past it. -/
inductive Prog (Op : Type) (Res : Op → Type) (α : Type) where
  | ret (a : α)
  | abort
  | step (o : Op) (k : Res o → Prog Op Res α)

variable {Op : Type} {Res : Op → Type} {S α β γ : Type}

namespace Prog

def bind : Prog Op Res α → (α → Prog Op Res β) → Prog Op Res β
  | .ret a, f => f a
  | .abort, _ => .abort
  | .step o k, f => .step o (fun r => (k r).bind f)

instance : Monad (Prog Op Res) where
  pure := .ret
  bind := .bind

@[simp] theorem ret_bind (a : α) (f : α → Prog Op Res β) : (Prog.ret a >>= f) = f a := rfl

@[simp] theorem abort_bind (f : α → Prog Op Res β) :
    ((.abort : Prog Op Res α) >>= f) = .abort := rfl

@[simp] theorem step_bind (o : Op) (k : Res o → Prog Op Res α) (f : α → Prog Op Res β) :
    (Prog.step o k >>= f) = .step o (fun r => k r >>= f) := rfl

@[simp] theorem pure_eq (a : α) : (pure a : Prog Op Res α) = .ret a := rfl

theorem assoc (p : Prog Op Res α) (f : α → Prog Op Res β) (g : β → Prog Op Res γ) :
    (p >>= f) >>= g = p >>= fun a => f a >>= g := by
  induction p with
  | ret a => rfl
  | abort => rfl
  | step o k ih =>
    simp only [step_bind]
    congr 1
    funext r
    exact ih r

theorem bind_ret (p : Prog Op Res α) : (p >>= Prog.ret) = p := by
  induction p with
  | ret a => rfl
  | abort => rfl
  | step o k ih =>
    simp only [step_bind]
    congr 1
    funext r
    exact ih r

instance : LawfulMonad (Prog Op Res) :=
  LawfulMonad.mk' _ bind_ret (fun _ _ => rfl) assoc

def op (o : Op) : Prog Op Res (Res o) := .step o .ret

@[simp] theorem op_bind (o : Op) (f : Res o → Prog Op Res β) :
    (op o >>= f) = .step o f := rfl

def assert (c : Prop) [Decidable c] : Prog Op Res Unit := if c then .ret () else .abort

theorem assert_bind {c : Prop} [Decidable c] (h : c) (f : Unit → Prog Op Res β) :
    (assert c >>= f) = f () := by
  simp [assert, h]

/-! ## Loops -/

def firstSome {ι : Type} : List ι → (ι → Prog Op Res (Option α)) → Prog Op Res (Option α)
  | [], _ => .ret none
  | x :: xs, f => f x >>= fun r => match r with
    | some a => .ret (some a)
    | none => firstSome xs f

def each {ι : Type} : List ι → (ι → Prog Op Res Unit) → Prog Op Res Unit
  | [], _ => .ret ()
  | x :: xs, f => f x >>= fun _ => each xs f

def quietly : Prog Op Res α → Prog Op Res (Option α)
  | .ret a => .ret (some a)
  | .abort => .ret none
  | .step o k => .step o fun r => (k r).quietly

/-! ## Sequential runs -/

/-- The uninterrupted run of a program: `none` when an assertion fails. -/
def run (exec : (o : Op) → S → Option (Res o × S)) : Prog Op Res α → S → Option (α × S)
  | .ret a, s => some (a, s)
  | .abort, _ => none
  | .step o k, s => match exec o s with
    | none => none
    | some (r, s') => run exec (k r) s'

/-- The first `n` operations of a run: what is left of the program and the memory then. -/
def runFor (exec : (o : Op) → S → Option (Res o × S)) :
    Nat → Prog Op Res α → S → Prog Op Res α × S
  | n + 1, .step o k, s => match exec o s with
    | none => (.abort, s)
    | some (r, s') => runFor exec n (k r) s'
  | _, p, s => (p, s)

/-- Every operation of the run meets `P` in the state it is applied to. -/
def Along (exec : (o : Op) → S → Option (Res o × S)) (P : Op → S → Prop) :
    Prog Op Res α → S → Prop
  | .ret _, _ => True
  | .abort, _ => True
  | .step o k, s => P o s ∧ ∀ r s', exec o s = some (r, s') → Along exec P (k r) s'

instance decidableAlong (exec : (o : Op) → S → Option (Res o × S)) (P : Op → S → Prop)
    [∀ o s, Decidable (P o s)] : (p : Prog Op Res α) → (s : S) → Decidable (Along exec P p s)
  | .ret _, _ => isTrue trivial
  | .abort, _ => isTrue trivial
  | .step o k, s => match done : exec o s with
    | none => decidable_of_iff (P o s)
      ⟨fun here => ⟨here, fun r s' step => by simp [done] at step⟩, fun both => both.1⟩
    | some (r, s') =>
      have := decidableAlong exec P (k r) s'
      decidable_of_iff (P o s ∧ Along exec P (k r) s')
        ⟨fun both => ⟨both.1, fun r' t step => by
          rw [done] at step
          obtain ⟨rfl, rfl⟩ := Prod.mk.inj (Option.some.inj step)
          exact both.2⟩, fun both => ⟨both.1, both.2 r s' done⟩⟩

variable {exec : (o : Op) → S → Option (Res o × S)}

@[simp] theorem run_ret (a : α) (s : S) : run exec (.ret a) s = some (a, s) := rfl

@[simp] theorem run_abort (s : S) : run exec (.abort : Prog Op Res α) s = none := rfl

theorem run_step (o : Op) (k : Res o → Prog Op Res α) (s : S) :
    run exec (.step o k) s = (exec o s).bind (fun x => run exec (k x.1) x.2) := by
  simp only [run]
  cases exec o s <;> rfl

theorem run_bind (p : Prog Op Res α) (f : α → Prog Op Res β) (s : S) :
    run exec (p >>= f) s = (run exec p s).bind (fun x => run exec (f x.1) x.2) := by
  induction p generalizing s with
  | ret a => rfl
  | abort => rfl
  | step o k ih =>
    rw [step_bind, run_step, run_step, Option.bind_assoc]
    congr 1
    funext x
    exact ih x.1 x.2

theorem run_bind_some {p : Prog Op Res α} {f : α → Prog Op Res β} {s s' : S} {a : α}
    (first : run exec p s = some (a, s')) : run exec (p >>= f) s = run exec (f a) s' := by
  rw [run_bind, first]
  rfl

theorem run_bind_eq_some {p : Prog Op Res α} {f : α → Prog Op Res β} {s t : S} {b : β} :
    run exec (p >>= f) s = some (b, t) ↔
      ∃ a s', run exec p s = some (a, s') ∧ run exec (f a) s' = some (b, t) := by
  rw [run_bind, Option.bind_eq_some_iff]
  constructor
  · rintro ⟨⟨a, s'⟩, first, rest⟩
    exact ⟨a, s', first, rest⟩
  · rintro ⟨a, s', first, rest⟩
    exact ⟨(a, s'), first, rest⟩

theorem runFor_zero (p : Prog Op Res α) (s : S) : runFor exec 0 p s = (p, s) := by
  cases p <;> rfl

theorem along_true (p : Prog Op Res α) (s : S) : Along exec (fun _ _ => True) p s := by
  induction p generalizing s with
  | ret a => trivial
  | abort => trivial
  | step o k ih => exact ⟨trivial, fun r s' _ => ih r s'⟩

theorem along_mono {P P' : Op → S → Prop} {p : Prog Op Res α} {s : S} (along : Along exec P p s)
    (weaker : ∀ o t, P o t → P' o t) : Along exec P' p s := by
  induction p generalizing s with
  | ret a => trivial
  | abort => trivial
  | step o k ih => exact ⟨weaker o s along.1, fun r s' done => ih r (along.2 r s' done)⟩

theorem run_firstSome_keeps {ι : Type} {I : S → Prop} {f : ι → Prog Op Res (Option α)}
    (xs : List ι) {s : S} (start : I s)
    (attempt : ∀ x ∈ xs, ∀ t, I t → ∃ r t', run exec (f x) t = some (r, t') ∧ I t') :
    ∃ r s', run exec (firstSome xs f) s = some (r, s') ∧ I s' := by
  induction xs generalizing s with
  | nil => exact ⟨none, s, rfl, start⟩
  | cons x xs ih =>
    obtain ⟨r, t, first, kept⟩ := attempt x List.mem_cons_self s start
    cases r with
    | some a => exact ⟨some a, t, by rw [firstSome, run_bind_some first]; rfl, kept⟩
    | none =>
      obtain ⟨r, s', rest, last⟩ := ih kept fun y mem => attempt y (List.mem_cons_of_mem x mem)
      exact ⟨r, s', by rw [firstSome, run_bind_some first]; exact rest, last⟩

/-- A search whose attempts settle each element stops at the first one that yields a value, and
misses only when every attempt does. -/
theorem run_firstSome_first {ι : Type} {f : ι → Prog Op Res (Option α)} {s : S} (A : ι → Prop)
    (Q : ι → α → S → Prop) (xs : List ι)
    (settled : ∀ x ∈ xs, (run exec (f x) s = some (none, s) ∧ A x) ∨
      ∃ a s', run exec (f x) s = some (some a, s') ∧ Q x a s') :
    (run exec (firstSome xs f) s = some (none, s) ∧ ∀ x ∈ xs, A x) ∨
      ∃ (k : Nat) (x : ι) (a : α) (s' : S), xs[k]? = some x ∧
        (∀ j < k, ∀ y, xs[j]? = some y → A y) ∧
        run exec (firstSome xs f) s = some (some a, s') ∧ Q x a s' := by
  induction xs with
  | nil => exact Or.inl ⟨rfl, by simp⟩
  | cons x xs ih =>
    rw [firstSome]
    rcases settled x List.mem_cons_self with ⟨miss, absent⟩ | ⟨a, s', hit, good⟩
    · rw [run_bind_some miss]
      rcases ih (fun y member => settled y (List.mem_cons_of_mem x member)) with
        ⟨rest, all⟩ | ⟨k, z, a, s', place, before, rest, good⟩
      · exact Or.inl ⟨rest, List.forall_mem_cons.mpr ⟨absent, all⟩⟩
      · refine Or.inr ⟨k + 1, z, a, s', place, ?_, rest, good⟩
        intro j less y here
        cases j with
        | zero =>
          cases here
          exact absent
        | succ j => exact before j (Nat.lt_of_succ_lt_succ less) y here
    · rw [run_bind_some hit]
      exact Or.inr ⟨0, x, a, s', rfl, fun j less => absurd less (Nat.not_lt_zero j), rfl, good⟩

/-- If every attempt yields a good value or leaves the state alone, so does the search, and it
misses only when every attempt does. -/
theorem run_firstSome_settled {ι : Type} {f : ι → Prog Op Res (Option α)} {s : S}
    (Q : α → S → Prop) (xs : List ι)
    (settled : ∀ x ∈ xs, run exec (f x) s = some (none, s) ∨
      ∃ a s', run exec (f x) s = some (some a, s') ∧ Q a s') :
    (run exec (firstSome xs f) s = some (none, s) ∧ ∀ x ∈ xs, run exec (f x) s = some (none, s)) ∨
      ∃ a s', run exec (firstSome xs f) s = some (some a, s') ∧ Q a s' := by
  rcases run_firstSome_first (fun x => run exec (f x) s = some (none, s)) (fun _ => Q) xs
      (fun x member => (settled x member).imp (fun miss => ⟨miss, miss⟩) id) with
    miss | ⟨k, x, a, s', -, -, hit, good⟩
  · exact Or.inl miss
  · exact Or.inr ⟨a, s', hit, good⟩

end Prog

end LLFree.Atomic.Program

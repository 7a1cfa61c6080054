/- module: LLFree/Atomic/Escrow
   digest: A program logic whose ghost resources say what a running program holds in escrow. -/

import LLFree.Atomic.Program
import Mathlib.Algebra.Group.Hom.Defs
import Mathlib.Tactic.Abel

/-!
A running program may hold back part of what the shared memory accounts for: a counter
it has lowered, a flag it has set and not yet cleared. Such amounts are resources `M`.
The invariant relates the memory to the sum of all resources, so a program is judged
alone, against an arbitrary remainder `F` held by everybody else.

`amt` measures a resource, `delta` is what an operation moves into the hands of the
program. Both are kept in step, so the measure of a resource can be read off the
operations done so far.
-/

set_option autoImplicit false
set_option relaxedAutoImplicit false

namespace LLFree.Atomic.Escrow

open LLFree.Atomic.Program

/-- The operations of a shared memory: their outcomes and when they fault. -/
structure Sys (Op : Type) (Res : Op → Type) (S : Type) where
  next : (o : Op) → S → Res o → S → Prop
  fails : Op → S → Prop

variable {Op : Type} {Res : Op → Type} {S M D α β : Type}

/-- A deterministic memory behaves as `sys` says wherever its operations meet `guard`. -/
structure Sys.Runs (sys : Sys Op Res S) (guard : Op → S → Prop)
    (exec : (o : Op) → S → Option (Res o × S)) : Prop where
  next : ∀ o s r s', guard o s → exec o s = some (r, s') → sys.next o s r s'
  fails : ∀ o s, exec o s = none → sys.fails o s

def Sys.ofExec (exec : (o : Op) → S → Option (Res o × S)) : Sys Op Res S where
  next := fun o s r s' => exec o s = some (r, s')
  fails := fun o s => exec o s = none

theorem Sys.ofExec_runs (exec : (o : Op) → S → Option (Res o × S)) (guard : Op → S → Prop) :
    (Sys.ofExec exec).Runs guard exec :=
  ⟨fun _ _ _ _ _ done => done, fun _ _ stuck => stuck⟩

/-- An accounting discipline over a shared memory. Failed assertions are ruled out unless
`mayAbort`. -/
structure Accounting (Op : Type) (Res : Op → Type) (S M D : Type) [AddCommMonoid M]
    [AddCommGroup D] where
  sys : Sys Op Res S
  inv : S → M → Prop
  amt : M →+ D
  delta : (o : Op) → Res o → D
  mayAbort : Prop

variable [AddCommMonoid M] [AddCommGroup D]

namespace Accounting

/-- From resource `m` the program keeps the invariant whatever the others do, holds only
resources that satisfy `C` on the way, and ends with a result and a resource in `Q`. -/
def Safe (E : Accounting Op Res S M D) (C : M → Prop) :
    Prog Op Res α → M → (α → M → Prop) → Prop
  | .ret a, m, Q => C m ∧ Q a m
  | .abort, _, _ => E.mayAbort
  | .step o k, m, Q => C m ∧ ∀ s F, E.inv s (m + F) →
      (E.sys.fails o s → E.mayAbort) ∧
      ∀ r s', E.sys.next o s r s' →
        ∃ m', E.inv s' (m' + F) ∧ E.amt m' = E.amt m + E.delta o r ∧ E.Safe C (k r) m' Q

abbrev Ok (E : Accounting Op Res S M D) (p : Prog Op Res α) (m : M) (Q : α → M → Prop) : Prop :=
  E.Safe (fun _ => True) p m Q

variable {E : Accounting Op Res S M D} {C C' : M → Prop} {m : M}

theorem safe_mono {p : Prog Op Res α} {Q Q' : α → M → Prop}
    (safe : E.Safe C p m Q) (cond : ∀ x, C x → C' x) (post : ∀ a x, Q a x → Q' a x) :
    E.Safe C' p m Q' := by
  induction p generalizing m with
  | ret a => exact ⟨cond m safe.1, post a m safe.2⟩
  | abort => exact safe
  | step o k ih =>
    refine ⟨cond m safe.1, fun s F inv => ?_⟩
    obtain ⟨fault, moves⟩ := safe.2 s F inv
    refine ⟨fault, fun r s' next => ?_⟩
    obtain ⟨m', inv', amount, rest⟩ := moves r s' next
    exact ⟨m', inv', amount, ih r rest⟩

theorem safe_post {p : Prog Op Res α} {Q Q' : α → M → Prop}
    (safe : E.Safe C p m Q) (post : ∀ a x, Q a x → Q' a x) : E.Safe C p m Q' :=
  safe_mono safe (fun _ h => h) post

theorem safe_bind {p : Prog Op Res α} {f : α → Prog Op Res β} {Q' : α → M → Prop}
    {Q : β → M → Prop} (first : E.Safe C p m Q')
    (rest : ∀ a x, Q' a x → E.Safe C (f a) x Q) : E.Safe C (p >>= f) m Q := by
  induction p generalizing m with
  | ret a => exact rest a m first.2
  | abort => exact first
  | step o k ih =>
    refine ⟨first.1, fun s F inv => ?_⟩
    obtain ⟨fault, moves⟩ := first.2 s F inv
    refine ⟨fault, fun r s' next => ?_⟩
    obtain ⟨m', inv', amount, tail⟩ := moves r s' next
    exact ⟨m', inv', amount, ih r tail⟩

theorem safe_frame {p : Prog Op Res α} {Q : α → M → Prop} (safe : E.Safe C p m Q) (R : M) :
    E.Safe (fun x => ∃ y, C y ∧ x = y + R) p (m + R) (fun a x => ∃ y, Q a y ∧ x = y + R) := by
  induction p generalizing m with
  | ret a => exact ⟨⟨m, safe.1, rfl⟩, m, safe.2, rfl⟩
  | abort => exact safe
  | step o k ih =>
    refine ⟨⟨m, safe.1, rfl⟩, fun s F inv => ?_⟩
    obtain ⟨fault, moves⟩ := safe.2 s (R + F) (by rwa [← add_assoc])
    refine ⟨fault, fun r s' next => ?_⟩
    obtain ⟨m', inv', amount, rest⟩ := moves r s' next
    refine ⟨m' + R, by rwa [add_assoc], ?_, ih r rest⟩
    rw [map_add, map_add, amount]
    abel

/-- Before an operation a resource may be rearranged into one that the invariant and the
measure cannot tell from it. -/
theorem safe_rearrange {o : Op} {k : Res o → Prog Op Res α} {Q : α → M → Prop} {n : M}
    (cond : C m) (same : ∀ s F, E.inv s (m + F) → E.inv s (n + F)) (amount : E.amt n = E.amt m)
    (safe : E.Safe C (.step o k) n Q) : E.Safe C (.step o k) m Q := by
  refine ⟨cond, fun s F inv => ?_⟩
  obtain ⟨fault, moves⟩ := safe.2 s F (same s F inv)
  refine ⟨fault, fun r s' next => ?_⟩
  obtain ⟨m', inv', total, rest⟩ := moves r s' next
  exact ⟨m', inv', by rw [total, amount], rest⟩

theorem safe_assert {c : Prop} [Decidable c] {f : Unit → Prog Op Res β} {Q : β → M → Prop}
    (cond : c) (rest : E.Safe C (f ()) m Q) : E.Safe C (Prog.assert c >>= f) m Q := by
  rwa [Prog.assert_bind cond]

theorem safe_ends {p : Prog Op Res α} {Q : α → M → Prop} (safe : E.Safe C p m Q) :
    E.Safe C p m (fun a x => Q a x ∧ C x) := by
  induction p generalizing m with
  | ret a => exact ⟨safe.1, safe.2, safe.1⟩
  | abort => exact safe
  | step o k ih =>
    refine ⟨safe.1, fun s F inv => ?_⟩
    obtain ⟨fault, moves⟩ := safe.2 s F inv
    refine ⟨fault, fun r s' next => ?_⟩
    obtain ⟨m', inv', amount, rest⟩ := moves r s' next
    exact ⟨m', inv', amount, ih r rest⟩

theorem safe_holds {p : Prog Op Res α} {Q : α → M → Prop} (total : ¬ E.mayAbort)
    (safe : E.Safe C p m Q) : C m := by
  cases p with
  | ret a => exact safe.1
  | abort => exact absurd safe total
  | step o k => exact safe.1

theorem safe_exec {exec : (o : Op) → S → Option (Res o × S)} {o : Op} {k : Res o → Prog Op Res α}
    {Q : α → M → Prop} (memory : E.sys = Sys.ofExec exec) (cond : C m)
    (moves : ∀ s F, E.inv s (m + F) → ∃ r s', exec o s = some (r, s') ∧
      ∃ m', E.inv s' (m' + F) ∧ E.amt m' = E.amt m + E.delta o r ∧ E.Safe C (k r) m' Q) :
    E.Safe C (.step o k) m Q := by
  refine ⟨cond, fun s F inv => ?_⟩
  obtain ⟨r, s', done, result⟩ := moves s F inv
  rw [memory]
  constructor
  · intro stuck
    simp [Sys.ofExec, done] at stuck
  · intro r' t next
    simp only [Sys.ofExec, done, Option.some.injEq, Prod.mk.injEq] at next
    obtain ⟨rfl, rfl⟩ := next
    exact result

/-! ## Loops -/

theorem safe_firstSome {ι : Type} {xs : List ι} {f : ι → Prog Op Res (Option α)}
    {Q : α → M → Prop} (cond : C m)
    (attempt : ∀ x ∈ xs, E.Safe C (f x) m
      (fun r y => match r with | some a => Q a y | none => y = m)) :
    E.Safe C (Prog.firstSome xs f) m
      (fun r y => match r with | some a => Q a y | none => y = m) := by
  induction xs with
  | nil => exact ⟨cond, rfl⟩
  | cons x xs ih =>
    refine safe_bind (safe_ends (attempt x List.mem_cons_self)) ?_
    rintro (_ | a) y ⟨hy, hc⟩
    · obtain rfl : y = m := hy
      exact ih (fun z hz => attempt z (List.mem_cons_of_mem x hz))
    · exact ⟨hc, hy⟩

theorem safe_search {ι : Type} {xs : List ι} {f : ι → Prog Op Res (Option α)} {d : α}
    {Q : α → M → Prop} (cond : C m) (fail : Q d m)
    (attempt : ∀ x ∈ xs, E.Safe C (f x) m
      (fun r y => match r with | some a => Q a y | none => y = m)) :
    E.Safe C (Prog.firstSome xs f >>= fun r => pure (r.getD d)) m Q := by
  refine safe_bind (safe_ends (safe_firstSome cond attempt)) ?_
  rintro (_ | a) y ⟨result, held⟩
  · obtain rfl : y = m := result
    exact ⟨held, fail⟩
  · exact ⟨held, result⟩

theorem safe_each {ι : Type} {xs : List ι} {f : ι → Prog Op Res Unit} (cond : C m)
    (body : ∀ x ∈ xs, E.Safe C (f x) m (fun _ y => y = m)) :
    E.Safe C (Prog.each xs f) m (fun _ y => y = m) := by
  induction xs with
  | nil => exact ⟨cond, rfl⟩
  | cons x xs ih =>
    refine safe_bind (body x List.mem_cons_self) ?_
    rintro _ y rfl
    exact ih (fun z hz => body z (List.mem_cons_of_mem x hz))

/-! ## Programs that may be given up -/

theorem safe_quietly_bind {p : Prog Op Res α} {f : α → Prog Op Res β} {Q' : Option α → M → Prop}
    {Q : Option β → M → Prop} (first : E.Safe C p.quietly m Q')
    (rest : ∀ a x, Q' (some a) x → E.Safe C (f a).quietly x Q) (stop : ∀ x, Q' none x → Q none x) :
    E.Safe C (p >>= f).quietly m Q := by
  induction p generalizing m with
  | ret a => exact rest a m first.2
  | abort => exact ⟨first.1, stop m first.2⟩
  | step o k ih =>
    refine ⟨first.1, fun s F inv => ?_⟩
    obtain ⟨fault, moves⟩ := first.2 s F inv
    refine ⟨fault, fun r s' next => ?_⟩
    obtain ⟨m', inv', amount, tail⟩ := moves r s' next
    exact ⟨m', inv', amount, ih r tail⟩

theorem safe_quietly_firstSome {ι : Type} {xs : List ι} {f : ι → Prog Op Res (Option α)}
    (cond : C m) (attempt : ∀ x ∈ xs, E.Safe C (f x).quietly m fun _ y => y = m) :
    E.Safe C (Prog.firstSome xs f).quietly m fun _ y => y = m := by
  induction xs with
  | nil => exact ⟨cond, rfl⟩
  | cons x xs ih =>
    apply safe_quietly_bind (attempt x List.mem_cons_self)
    · rintro (_ | a) y rfl
      · exact ih fun z member => attempt z (List.mem_cons_of_mem x member)
      · exact ⟨cond, rfl⟩
    · exact fun _ => id

/-! ## Sequential runs -/

variable {guard : Op → S → Prop} {exec : (o : Op) → S → Option (Res o × S)}

/-- What a complete run guarantees, provided its operations meet the guard and succeed as the
system says. -/
theorem run_next {p : Prog Op Res α} {Q : α → M → Prop} {F : M} {s s' : S} {a : α}
    (next : ∀ o s r s', guard o s → exec o s = some (r, s') → E.sys.next o s r s')
    (safe : E.Safe C p m Q) (inv : E.inv s (m + F)) (along : Prog.Along exec guard p s)
    (run : Prog.run exec p s = some (a, s')) : ∃ m', Q a m' ∧ E.inv s' (m' + F) := by
  induction p generalizing m s with
  | ret b =>
    obtain ⟨rfl, rfl⟩ := Prod.mk.inj (Option.some.inj run)
    exact ⟨m, safe.2, inv⟩
  | abort => cases run
  | step o k ih =>
    rw [Prog.run_step, Option.bind_eq_some_iff] at run
    obtain ⟨⟨r, t⟩, first, tail⟩ := run
    obtain ⟨m', inv', -, rest⟩ := (safe.2 s F inv).2 r t (next o s r t along.1 first)
    exact ih r rest inv' (along.2 r t first) tail

theorem run_sound {p : Prog Op Res α} {Q : α → M → Prop} {F : M} {s s' : S} {a : α}
    (seq : E.sys.Runs guard exec) (safe : E.Safe C p m Q) (inv : E.inv s (m + F))
    (along : Prog.Along exec guard p s) (run : Prog.run exec p s = some (a, s')) :
    ∃ m', Q a m' ∧ E.inv s' (m' + F) := run_next seq.next safe inv along run

theorem run_total {p : Prog Op Res α} {Q : α → M → Prop} {F : M} {s : S}
    (total : ¬ E.mayAbort) (seq : E.sys.Runs (fun _ _ => True) exec)
    (safe : E.Safe C p m Q) (inv : E.inv s (m + F)) :
    ∃ a s' m', Prog.run exec p s = some (a, s') ∧ Q a m' ∧ E.inv s' (m' + F) := by
  induction p generalizing m s with
  | ret b => exact ⟨b, s, m, rfl, safe.2, inv⟩
  | abort => exact absurd safe total
  | step o k ih =>
    obtain ⟨fault, moves⟩ := safe.2 s F inv
    cases first : exec o s with
    | none => exact absurd (fault (seq.fails o s first)) total
    | some x =>
      obtain ⟨m', inv', -, rest⟩ := moves x.1 x.2 (seq.next o s x.1 x.2 trivial first)
      obtain ⟨a, s', m'', run, post, last⟩ := ih x.1 rest inv'
      exact ⟨a, s', m'', by rw [Prog.run_step, first]; exact run, post, last⟩

theorem along_next {p : Prog Op Res α} {Q : α → M → Prop} {F : M} {s : S}
    (next : ∀ o s r s', guard o s → exec o s = some (r, s') → E.sys.next o s r s')
    (safe : E.Safe C p m Q) (inv : E.inv s (m + F)) (along : Prog.Along exec guard p s) :
    Prog.Along exec (fun o t => (∃ x, E.inv t (x + F)) ∧
      ∀ r t', exec o t = some (r, t') → ∃ x, E.inv t' (x + F)) p s := by
  induction p generalizing m s with
  | ret a => trivial
  | abort => trivial
  | step o k ih =>
    have moves := fun r t done => (safe.2 s F inv).2 r t (next o s r t along.1 done)
    refine ⟨⟨⟨m, inv⟩, fun r t done => ?_⟩, fun r t done => ?_⟩
    · obtain ⟨x, inv', -⟩ := moves r t done
      exact ⟨x, inv'⟩
    · obtain ⟨x, inv', -, rest⟩ := moves r t done
      exact ih r rest inv' (along.2 r t done)

/-- A run cut off after any number of operations stops in a memory that the invariant
explains with a resource satisfying the condition. -/
theorem runFor_sound {p : Prog Op Res α} {Q : α → M → Prop} {F : M} {s : S} (n : Nat)
    (total : ¬ E.mayAbort) (seq : E.sys.Runs (fun _ _ => True) exec)
    (safe : E.Safe C p m Q) (inv : E.inv s (m + F)) :
    ∃ m', C m' ∧ E.inv (Prog.runFor exec n p s).2 (m' + F) := by
  induction n generalizing p m s with
  | zero =>
    rw [Prog.runFor_zero]
    exact ⟨m, safe_holds total safe, inv⟩
  | succ n ih =>
    cases p with
    | ret a => exact ⟨m, safe.1, inv⟩
    | abort => exact absurd safe total
    | step o k =>
      obtain ⟨fault, moves⟩ := safe.2 s F inv
      cases first : exec o s with
      | none => exact absurd (fault (seq.fails o s first)) total
      | some x =>
        obtain ⟨m', inv', -, rest⟩ := moves x.1 x.2 (seq.next o s x.1 x.2 trivial first)
        simp only [Prog.runFor, first]
        exact ih rest inv'

end Accounting

end LLFree.Atomic.Escrow

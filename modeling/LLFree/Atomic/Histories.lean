/- module: LLFree/Atomic/Histories
   digest: What is heard of a pool from outside: the calls that begin, and those that return. -/

import LLFree.Atomic.Pool

/-!
Two pools with the same history cannot be told apart by their clients: the same calls begin and
return in the same order, with the same data. When the operations of a pool are whole calls, a call
takes effect at one moment between its begin and its return, so that a pool whose histories are all
histories of such a pool is linearizable.
-/

set_option autoImplicit false
set_option relaxedAutoImplicit false

namespace LLFree.Atomic.Histories

open LLFree.Atomic.Program LLFree.Atomic.Escrow LLFree.Atomic.Pool

variable {Op : Type} {Res : Op → Type} {S D H ι : Type} [AddCommGroup D] [DecidableEq ι]

/-- A thread begins a call and keeps `k` meanwhile, or its call returns. -/
inductive Event (H ι : Type) where
  | begins (i : ι) (k : H)
  | returns (i : ι) (h : H)

inductive ActStep (sys : Sys Op Res S) (delta : (o : Op) → Res o → D) (i : ι) :
    Threads Op Res S D H ι → Threads Op Res S D H ι → Prop
  | act (P : Threads Op Res S D H ι) (o : Op) (k : Res o → Prog Op Res H) (r : Res o) (s : S)
      (next : P.thread i = .step o k) (effect : sys.next o P.mem r s) :
      ActStep sys delta i P
        ⟨s, Function.update P.thread i (k r), P.kept,
          Function.update P.ledger i (P.ledger i + delta o r)⟩

/-- The pools that some interleaving reaches, with the history of their calls. Threads in `under`
have begun a call that has not returned. A call returns when its client takes notice, which may be
at any time after the last operation. -/
inductive Heard (sys : Sys Op Res S) (delta : (o : Op) → Res o → D)
    (call : H → H → Prog Op Res H → Prop) (P : Threads Op Res S D H ι) :
    List (Event H ι) → (ι → Bool) → Threads Op Res S D H ι → Prop
  | nil : Heard sys delta call P [] (fun _ => false) P
  | begins {es : List (Event H ι)} {under : ι → Bool} {T : Threads Op Res S D H ι} (i : ι) (h k : H)
      (p : Prog Op Res H) (before : Heard sys delta call P es under T) (answered : under i = false)
      (idle : T.thread i = .ret h) (allowed : call h k p) :
      Heard sys delta call P (es ++ [.begins i k]) (Function.update under i true) (T.enter i k p)
  | acts {es : List (Event H ι)} {under : ι → Bool} {T T' : Threads Op Res S D H ι} (i : ι)
      (before : Heard sys delta call P es under T) (step : ActStep sys delta i T T') :
      Heard sys delta call P es under T'
  | returns {es : List (Event H ι)} {under : ι → Bool} {T : Threads Op Res S D H ι} (i : ι) (h : H)
      (before : Heard sys delta call P es under T) (late : under i = true)
      (idle : T.thread i = .ret h) :
      Heard sys delta call P (es ++ [.returns i h]) (Function.update under i false) T

variable {sys : Sys Op Res S} {delta : (o : Op) → Res o → D} {call : H → H → Prog Op Res H → Prop}
  {P T T' : Threads Op Res S D H ι} {es : List (Event H ι)} {under : ι → Bool} {i : ι}

theorem ActStep.step (acted : ActStep sys delta i T T') : Step sys delta call T T' := by
  cases acted with
  | act o k r s next effect => exact .act T i o k r s next effect

theorem Heard.reaches (heard : Heard sys delta call P es under T) : Reaches sys delta call P T := by
  induction heard with
  | nil => exact .refl
  | begins i h k p before answered idle allowed ih => exact ih.tail (.start _ i h k p idle allowed)
  | acts i before step ih => exact ih.tail step.step
  | returns i h before late idle ih => exact ih

theorem Heard.acted (heard : Heard sys delta call P es under T)
    (acted : Relation.ReflTransGen (ActStep sys delta i) T T') :
    Heard sys delta call P es under T' := by
  induction acted with
  | refl => exact heard
  | tail _ step ih => exact .acts i ih step

/-- Every pool has a history: a call may return just before its thread begins the next one. -/
theorem heard_of_reaches (run : Reaches sys delta call P T) :
    ∃ es under, Heard sys delta call P es under T := by
  induction run with
  | refl => exact ⟨[], _, .nil⟩
  | @tail U _ _ step ih =>
    obtain ⟨es, under, heard⟩ := ih
    cases step with
    | start i h k p idle allowed =>
      cases busy : under i with
      | false => exact ⟨_, _, .begins i h k p heard busy idle allowed⟩
      | true =>
        have answered : Function.update under i false i = false := Function.update_self ..
        exact ⟨_, _, .begins i h k p (.returns i h heard busy idle) answered idle allowed⟩
    | act i o k r s next effect => exact ⟨es, under, .acts i heard (.act U o k r s next effect)⟩

theorem Heard.scheduled {exec : (o : Op) → S → Option (Res o × S)}
    (next : ∀ o s r s', exec o s = some (r, s') → sys.next o s r s') (schedule : List ι)
    (heard : Heard sys delta call P es under T)
    (ready : T.allReady exec delta (fun _ _ => True) (fun _ _ _ => True) schedule = true) :
    Heard sys delta call P es under (T.acts exec delta schedule) := by
  induction schedule generalizing T with
  | nil => exact heard
  | cons i schedule ih =>
    obtain ⟨first, rest⟩ := Bool.and_eq_true_iff.mp ready
    refine ih (.acts i heard ?_) rest
    cases here : T.thread i with
    | ret h => simp [Threads.ready, here] at first
    | abort => simp [Threads.ready, here] at first
    | step o k =>
      cases done : exec o T.mem with
      | none => simp [Threads.ready, here, done] at first
      | some x =>
        simp only [Threads.act, here, done]
        exact .act T o k x.1 x.2 here (next o _ x.1 x.2 done)

end LLFree.Atomic.Histories

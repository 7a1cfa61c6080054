/- module: LLFree/Atomic/Update
   digest: Updates that retry a callback with output variables until its exchange succeeds. -/

import Mathlib.Init
import Mathlib.Tactic.Basic

/-!
A callback computes the value to store from the value it sees and may write to variables of its
caller, on every attempt. An attempt whose exchange is lost leaves these writes behind. An update
acts once if it ends as a single application of the callback would, given the original variables
and the value that was replaced, or seen last by an attempt that gave up.
-/

set_option autoImplicit false
set_option relaxedAutoImplicit false

namespace LLFree.Atomic.Update

variable {V σ : Type}

abbrev Callback (V σ : Type) := V → σ → Option V × σ

/-- How an update ends: the stored value, the value replaced or seen last, the variables. -/
@[ext] structure Outcome (V σ : Type) where
  new : Option V
  old : V
  out : σ
  deriving DecidableEq

/-- An update whose exchanges are lost on the values `lost`, and not on the value `last`. -/
def retry (fn : Callback V σ) : List V → V → σ → Outcome V σ
  | [], last, out => ⟨(fn last out).1, last, (fn last out).2⟩
  | v :: lost, last, out =>
    if (fn v out).1.isSome then retry fn lost last (fn v out).2 else ⟨none, v, (fn v out).2⟩

def ActsOnce (update : List V → V → σ → Outcome V σ) (lost : List V) (last : V) (out : σ) : Prop :=
  update lost last out = update [] (update lost last out).old out

instance [DecidableEq V] [DecidableEq σ] (update : List V → V → σ → Outcome V σ) (lost : List V)
    (last : V) (out : σ) : Decidable (ActsOnce update lost last out) :=
  inferInstanceAs (Decidable (_ = _))

theorem retry_lost {fn : Callback V σ} {v last : V} {lost : List V} {out : σ}
    (taken : (fn v out).1.isSome) :
    retry fn (v :: lost) last out = retry fn lost last (fn v out).2 := by
  rw [retry, if_pos taken]

theorem retry_refused {fn : Callback V σ} {v last : V} {lost : List V} {out : σ}
    (refused : (fn v out).1 = none) :
    retry fn (v :: lost) last out = ⟨none, v, (fn v out).2⟩ := by
  rw [retry, if_neg (by simp [refused])]

theorem retry_nil_inj {fn : Callback V σ} {v : V} {out out' : σ} :
    retry fn [] v out = retry fn [] v out' ↔ fn v out = fn v out' := by
  rw [retry, retry, Outcome.mk.injEq, Prod.ext_iff]
  simp

/-! ## Callbacks that only write -/

def writer (g : V → Option (V × σ)) : Callback V σ := fun v out => match g v with
  | some (new, left) => (some new, left)
  | none => (none, out)

theorem writer_stores {g : V → Option (V × σ)} {v new : V} {left : σ}
    (stores : g v = some (new, left)) (out : σ) : writer g v out = (some new, left) := by
  rw [writer, stores]

theorem writer_refuses {g : V → Option (V × σ)} {v : V} (refuses : g v = none) (out : σ) :
    writer g v out = (none, out) := by
  rw [writer, refuses]

/-- Whenever an attempt is lost and the next one refuses, the lost one has left the variables with
the values they had. -/
def Unleaked (g : V → Option (V × σ)) (lost : List V) (last : V) (out : σ) : Prop :=
  ∀ before u v after, lost ++ [last] = before ++ u :: v :: after →
    (∀ x ∈ before, g x ≠ none) → ∀ new left, g u = some (new, left) → g v = none → left = out

theorem unleaked_nil (g : V → Option (V × σ)) (last : V) (out : σ) : Unleaked g [] last out := by
  intro before u v after same
  have length := congrArg List.length same
  simp only [List.nil_append, List.length_append, List.length_cons, List.length_nil] at length
  omega

theorem unleaked_refused {g : V → Option (V × σ)} {v last : V} {lost : List V} {out : σ}
    (refuses : g v = none) : Unleaked g (v :: lost) last out := by
  intro before u w after same taken new left stores
  cases before with
  | nil =>
    obtain ⟨rfl, -⟩ := List.cons.inj same
    rw [refuses] at stores
    cases stores
  | cons x before =>
    obtain ⟨rfl, -⟩ := List.cons.inj same
    exact absurd refuses (taken v List.mem_cons_self)

def next (lost : List V) (last : V) : V := lost.headD last

theorem unleaked_lost {g : V → Option (V × σ)} {v last new : V} {lost : List V} {left out : σ}
    (stores : g v = some (new, left)) :
    Unleaked g (v :: lost) last out ↔
      (g (next lost last) = none → left = out) ∧ Unleaked g lost last out := by
  constructor
  · intro unleaked
    constructor
    · intro refuses
      cases lost with
      | nil => exact unleaked [] v last [] rfl (by simp) new left stores refuses
      | cons w rest => exact unleaked [] v w (rest ++ [last]) rfl (by simp) new left stores refuses
    · intro before u w after same taken
      apply unleaked (v :: before) u w after (by rw [List.cons_append, same, List.cons_append])
      intro x member
      rcases List.mem_cons.mp member with rfl | later
      · simp [stores]
      · exact taken x later
  · rintro ⟨first, rest⟩ before u w after same taken new' left' stores' refuses
    cases before with
    | nil =>
      rw [List.nil_append, List.cons_append] at same
      obtain ⟨rfl, tail⟩ := List.cons.inj same
      have head : next lost last = w := by
        cases lost with
        | nil => exact (List.cons.inj tail).1
        | cons x xs => exact (List.cons.inj tail).1
      rw [stores] at stores'
      obtain ⟨-, rfl⟩ := Prod.mk.inj (Option.some.inj stores')
      exact first (head ▸ refuses)
    | cons x before =>
      rw [List.cons_append, List.cons_append] at same
      obtain ⟨-, tail⟩ := List.cons.inj same
      exact rest before u w after tail
        (fun y member => taken y (List.mem_cons_of_mem x member)) new' left' stores' refuses

private theorem writer_from (g : V → Option (V × σ)) (lost : List V) (last : V) (out now : σ) :
    retry (writer g) lost last now =
        retry (writer g) [] (retry (writer g) lost last now).old out ↔
      (g (next lost last) = none → now = out) ∧ Unleaked g lost last out := by
  induction lost generalizing now with
  | nil =>
    rw [show (retry (writer g) [] last now).old = last from rfl, retry_nil_inj]
    constructor
    · intro same
      refine ⟨fun refuses => ?_, unleaked_nil g last out⟩
      rw [show next [] last = last from rfl] at refuses
      rw [writer_refuses refuses, writer_refuses refuses] at same
      exact (Prod.mk.inj same).2
    · rintro ⟨kept, -⟩
      cases answer : g last with
      | none => rw [kept answer]
      | some stored => rw [writer_stores answer, writer_stores answer]
  | cons v lost ih =>
    cases answer : g v with
    | none =>
      have refused := writer_refuses answer
      rw [retry_refused (by rw [refused]), refused, retry, refused, Outcome.mk.injEq]
      constructor
      · rintro ⟨-, -, kept⟩
        exact ⟨fun _ => kept, unleaked_refused answer⟩
      · rintro ⟨kept, -⟩
        exact ⟨rfl, rfl, kept answer⟩
    | some stored =>
      obtain ⟨new, left⟩ := stored
      rw [retry_lost (by rw [writer_stores answer]; rfl), writer_stores answer, ih,
        unleaked_lost answer]
      constructor
      · intro rest
        exact ⟨fun refuses => absurd (answer.symm.trans refuses) (by simp), rest⟩
      · exact fun both => both.2

theorem writer_actsOnce (g : V → Option (V × σ)) (lost : List V) (last : V) (out : σ) :
    ActsOnce (retry (writer g)) lost last out ↔ Unleaked g lost last out := by
  rw [ActsOnce, writer_from g lost last out out]
  exact ⟨fun both => both.2, fun unleaked => ⟨fun _ => rfl, unleaked⟩⟩

end LLFree.Atomic.Update

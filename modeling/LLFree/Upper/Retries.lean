/- module: LLFree/Upper/Retries
   digest: When a retried update of a tree or a row acts as one step with its arguments. -/

import LLFree.Code.Shared
import LLFree.Code.Updates

/-!
A steal that is retried asks its policy for the class that the lost attempts have left, not for
the class of its caller. The other updates only leak variables that their callers do not read
after a failure.
-/

set_option autoImplicit false
set_option relaxedAutoImplicit false

namespace LLFree.Upper.Retries

open LLFree.Atomic.Update LLFree.Code.Types LLFree.Code.Trees LLFree.Code.Shared
open LLFree.Code.Updates

variable {policy : PolicyFn} {frames cls : Nat}

/-! ## Steals -/

/-- The class that a steal with class `cls` gives the tree and its caller. -/
def stolenClass (policy : PolicyFn) (cls : Nat) (tree : Tree) : Nat :=
  if (policy cls tree.cls tree.free).type = .steal then tree.cls else cls

def Steals (policy : PolicyFn) (frames cls : Nat) (tree : Tree) : Prop :=
  frames ≤ tree.free ∧ (policy cls tree.cls tree.free).type ≠ .invalid

instance (policy : PolicyFn) (frames cls : Nat) (tree : Tree) :
    Decidable (Steals policy frames cls tree) :=
  inferInstanceAs (Decidable (_ ∧ _))

theorem treeStealAt_steals {tree : Tree} (steals : Steals policy frames cls tree) :
    treeStealAt frames policy tree cls =
      (some { tree with free := tree.free - frames, cls := stolenClass policy cls tree },
        stolenClass policy cls tree) := by
  obtain ⟨room, valid⟩ := steals
  rw [treeStealAt, if_neg (by omega), stolenClass]
  cases answer : (policy cls tree.cls tree.free).type with
  | «match» => rfl
  | steal => rfl
  | demote => rfl
  | invalid => exact absurd answer valid

theorem treeStealAt_refuses {tree : Tree} (refuses : ¬ Steals policy frames cls tree) :
    treeStealAt frames policy tree cls = (none, cls) := by
  rw [treeStealAt]
  split_ifs with few
  · rfl
  · have invalid : (policy cls tree.cls tree.free).type = .invalid := by
      by_contra valid
      exact refuses ⟨by omega, valid⟩
    rw [invalid]

/-- Steals with two classes end alike on a tree: the classes are the same, or both get their
frames and give the tree the same class. -/
def Alike (policy : PolicyFn) (frames cls now : Nat) (tree : Tree) : Prop :=
  now = cls ∨ Steals policy frames now tree ∧ Steals policy frames cls tree ∧
    stolenClass policy now tree = stolenClass policy cls tree

theorem alike_iff {now : Nat} {tree : Tree} :
    treeStealAt frames policy tree now = treeStealAt frames policy tree cls ↔
      Alike policy frames cls now tree := by
  constructor
  · intro same
    by_cases now_steals : Steals policy frames now tree
    · by_cases cls_steals : Steals policy frames cls tree
      · rw [treeStealAt_steals now_steals, treeStealAt_steals cls_steals] at same
        exact Or.inr ⟨now_steals, cls_steals, (Prod.mk.inj same).2⟩
      · rw [treeStealAt_steals now_steals, treeStealAt_refuses cls_steals] at same
        cases (Prod.mk.inj same).1
    · by_cases cls_steals : Steals policy frames cls tree
      · rw [treeStealAt_refuses now_steals, treeStealAt_steals cls_steals] at same
        cases (Prod.mk.inj same).1
      · rw [treeStealAt_refuses now_steals, treeStealAt_refuses cls_steals] at same
        exact Or.inl (Prod.mk.inj same).2
  · rintro (rfl | ⟨now_steals, cls_steals, same⟩)
    · rfl
    · rw [treeStealAt_steals now_steals, treeStealAt_steals cls_steals, same]

/-- Along the values that a retried steal sees, each lost attempt that is answered with a steal
replaces the class that it asks for. Where the steal ends, the class it asks for by then and the
class of its caller end alike. -/
def ClassKept (policy : PolicyFn) (frames cls : Nat) : Nat → List Tree → Tree → Prop
  | now, [], last => Alike policy frames cls now last
  | now, tree :: lost, last =>
    if Steals policy frames now tree then
      ClassKept policy frames cls (stolenClass policy now tree) lost last
    else now = cls

private theorem steal_from (lost : List Tree) (last : Tree) (now : Nat) :
    treesStealOver frames policy lost last now =
        treesStealOver frames policy [] (treesStealOver frames policy lost last now).old cls ↔
      ClassKept policy frames cls now lost last := by
  unfold treesStealOver
  induction lost generalizing now with
  | nil =>
    rw [show (retry (treeStealAt frames policy) [] last now).old = last from rfl, retry_nil_inj,
      alike_iff, ClassKept]
  | cons tree lost ih =>
    rw [ClassKept]
    by_cases steals : Steals policy frames now tree
    · have taken := treeStealAt_steals steals
      rw [if_pos steals, retry_lost (by rw [taken]; rfl), taken, ih]
    · have refused := treeStealAt_refuses steals
      have once : retry (treeStealAt frames policy) [] tree now = ⟨none, tree, now⟩ := by
        rw [retry, refused]
      rw [if_neg steals, retry_refused (by rw [refused]), refused, ← once,
        show (retry (treeStealAt frames policy) [] tree now).old = tree from rfl, retry_nil_inj,
        alike_iff]
      constructor
      · rintro (same | ⟨steals', -⟩)
        · exact same
        · exact absurd steals' steals
      · exact Or.inl

/-! ## Reservations and rows -/

private theorem reserve_actsOnce (lost : List Tree) (last : Tree) (out : ReserveOut) :
    ActsOnce (treesReserveOrStealOver frames policy cls) lost last out ↔
      Unleaked (fun self => treeReserveOrSteal self frames policy cls) lost last
        (out.reserved, out.cls) := by
  rw [← writer_actsOnce]
  unfold ActsOnce treesReserveOrStealOver
  constructor
  · intro same
    have parts := Outcome.mk.inj same
    apply Outcome.ext parts.1 parts.2.1
    exact Prod.ext (congrArg ReserveOut.reserved parts.2.2) (congrArg ReserveOut.cls parts.2.2)
  · intro same
    rw [← same]

/-! ## One step -/

private theorem steal_once (K : Config) (u : Upper) {idx : Nat} (inside : idx < K.treesLen) :
    TableOp.exec K (.treesSteal idx frames cls) u =
      let done := treesStealOver frames K.policy [] (u.trees idx) cls
      some (done.new.map fun _ => done.out, (done.new.map (u.setTree idx)).getD u) := by
  simp only [TableOp.exec, if_pos inside, treesStealOver, retry, treeSteal, treeStealAt]
  by_cases few : (u.trees idx).free < frames
  · rw [if_pos few, if_pos few]
    rfl
  · rw [if_neg few, if_neg few]
    cases (K.policy cls (u.trees idx).cls (u.trees idx).free).type <;> rfl

/-- A retried steal that keeps its class is the step of the model on the value that it replaces, or
sees last. -/
theorem steal_steps (K : Config) {u : Upper} {idx : Nat} {lost : List Tree} {last : Tree}
    (inside : idx < K.treesLen) (kept : ClassKept K.policy frames cls cls lost last)
    (here : u.trees idx = (treesStealOver frames K.policy lost last cls).old) :
    TableOp.exec K (.treesSteal idx frames cls) u =
      let done := treesStealOver frames K.policy lost last cls
      some (done.new.map fun _ => done.out, (done.new.map (u.setTree idx)).getD u) := by
  rw [steal_once K u inside, here, ← (steal_from lost last cls).mpr kept]

/-- A retried update acts as one step with the arguments of its caller exactly when no lost
attempt leaks into how it ends. -/
theorem updates_act_once (policy : PolicyFn) (frames cls : Nat) :
    (∀ lost last, ActsOnce (treesStealOver frames policy) lost last cls ↔
      ClassKept policy frames cls cls lost last) ∧
    (∀ lost last out,
      ActsOnce (treesReserveOrStealOver frames policy cls) lost last out ↔
        Unleaked (fun self => treeReserveOrSteal self frames policy cls) lost last
          (out.reserved, out.cls)) ∧
    (∀ order lost last pos, 2 ^ order ≤ atomicSize →
      (ActsOnce (rowZerosOver order) lost last pos ↔
        Unleaked (firstZerosWrites order) lost last pos)) := by
  refine ⟨?_, ?_, ?_⟩
  · intro lost last
    exact steal_from lost last cls
  · intro lost last out
    exact reserve_actsOnce lost last out
  · intro order lost last pos _
    exact writer_actsOnce (firstZerosWrites order) lost last pos

/-- The steal for class 1 loses its first exchange to a write that gives the tree class 1: the
second attempt asks for class 0 and demotes the tree. -/
theorem steal_leaks_class :
    treesStealOver 1 llfreeSimplePolicy [⟨false, 0, 4096⟩] ⟨false, 1, 4096⟩ 1 =
        ⟨some ⟨false, 0, 4095⟩, ⟨false, 1, 4096⟩, 0⟩ ∧
      treesStealOver 1 llfreeSimplePolicy [] ⟨false, 1, 4096⟩ 1 =
        ⟨some ⟨false, 1, 4095⟩, ⟨false, 1, 4096⟩, 1⟩ ∧
      ¬ ActsOnce (treesStealOver 1 llfreeSimplePolicy) [⟨false, 0, 4096⟩] ⟨false, 1, 4096⟩ 1 := by
  decide

/-- A steal that loses an exchange to a free acts once, and so does the update of a row that loses
one to an allocation and finds the next frame. -/
theorem updates_act_once_after_loss :
    ActsOnce (treesStealOver 1 llfreeSimplePolicy) [⟨false, 1, 5⟩] ⟨false, 1, 6⟩ 1 ∧
      ActsOnce (rowZerosOver 0) [0#64] 1#64 0 :=
  ⟨((updates_act_once llfreeSimplePolicy 1 1).1 _ _).mpr (Or.inl rfl),
    ((updates_act_once llfreeSimplePolicy 1 1).2.2 0 _ _ 0 (by decide)).mpr
      ((unleaked_lost (show firstZerosWrites 0 0#64 = some (1#64, 0) by decide)).mpr
        ⟨fun _ => rfl, unleaked_nil _ _ _⟩)⟩

end LLFree.Upper.Retries

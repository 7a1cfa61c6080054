/- module: LLFree/Upper/Overwritten
   digest: Steals that take effect with a class which a lost attempt has left behind. -/

import LLFree.Code.Updates
import LLFree.Upper.Steps
import Mathlib.Logic.Relation

/-!
A steal whose exchange is lost may go on with another class than its caller asked for. Where the
policy goes by the order of the classes it then takes what its own class would take from a tree
whose class was lowered before, and the books do not mind a lower class.
-/

set_option autoImplicit false
set_option relaxedAutoImplicit false

namespace LLFree.Upper.Overwritten

open LLFree.Atomic.Escrow LLFree.Code.Types LLFree.Code.Trees LLFree.Code.Shared
open LLFree.Code.Updates LLFree.Upper.Ledger LLFree.Upper.Steps

/-! ## Classes left behind -/

/-- The classes that a steal of some frames may have when it takes effect. -/
structure Drift (K : Config) where
  leaves : Nat → Nat → Nat → Prop
  own : ∀ n cls, leaves n cls cls
  lowered : ∀ n cls c, leaves n cls c → ∀ tree result, treeSteal tree n c K.policy = some result →
    ∃ d ≤ tree.cls, treeSteal { tree with cls := d } n cls K.policy = some result
  refused : ∀ n cls c, leaves n cls c → ∀ tree, treeSteal tree n c K.policy = none →
    treeSteal tree n cls K.policy = none

variable {K : Config}

def Drift.Exact (W : Drift K) : Prop := ∀ n cls c, W.leaves n cls c → c = cls

def exact (K : Config) : Drift K where
  leaves _ cls c := c = cls
  own _ _ := rfl
  lowered _ _ _ same tree result step := ⟨tree.cls, le_refl _, by rw [← same]; exact step⟩
  refused _ _ _ same _ step := same ▸ step

theorem exact_exact (K : Config) : (exact K).Exact := fun _ _ _ same => same

def Leaves (policy : PolicyFn) (n c d : Nat) : Prop :=
  ∃ tree new, treeStealAt n policy tree c = (some new, d)

abbrev LeftOver (policy : PolicyFn) (n : Nat) : Nat → Nat → Prop :=
  Relation.ReflTransGen (Leaves policy n)

private theorem treeSteal_byClass {policy : PolicyFn} (byClass : ByClass policy) (tree : Tree)
    (n c : Nat) : treeSteal tree n c policy =
      if tree.free < n then none
      else if c > tree.cls then some ({ tree with free := tree.free - n }, tree.cls)
      else some ({ tree with free := tree.free - n, cls := c }, c) := by
  have type := byClass c tree.cls tree.free
  simp only [treeSteal]
  by_cases few : tree.free < n
  · rw [if_pos few, if_pos few]
  · rw [if_neg few, if_neg few, type]
    split_ifs <;> rfl

private theorem leftOver_le {policy : PolicyFn} (byClass : ByClass policy) {n cls c : Nat}
    (left : LeftOver policy n cls c) : c ≤ cls := by
  induction left with
  | refl => exact le_refl _
  | @tail c d _ lost ih =>
    obtain ⟨tree, new, step⟩ := lost
    have type := byClass c tree.cls tree.free
    simp only [treeStealAt] at step
    by_cases few : tree.free < n
    · rw [if_pos few] at step
      cases (Prod.mk.inj step).1
    · rw [if_neg few, type] at step
      split_ifs at step with above below
      · obtain ⟨-, rfl⟩ := Prod.mk.inj step
        omega
      all_goals
        obtain ⟨-, rfl⟩ := Prod.mk.inj step
        exact ih

def overwritten (byClass : ByClass K.policy) : Drift K where
  leaves := LeftOver K.policy
  own _ _ := .refl
  lowered n cls c left tree result step := by
    have le := leftOver_le byClass left
    rw [treeSteal_byClass byClass] at step
    split_ifs at step with few above
    · refine ⟨tree.cls, le_refl _, ?_⟩
      rw [treeSteal_byClass byClass, if_neg few, if_pos (by simp only; omega)]
      exact step
    · refine ⟨c, by omega, ?_⟩
      rw [treeSteal_byClass byClass, if_neg few]
      split_ifs with lower
      · exact step
      · obtain rfl : c = cls := by
          simp only at lower
          omega
        exact step
  refused n cls c left tree step := by
    rw [treeSteal_byClass byClass] at step ⊢
    split_ifs at step with few above
    rw [if_pos few]

/-! ## The books -/

variable {L : Type} {P : Promise K} {low : LowerModel L K.frames}

def driftSys (W : Drift K) (low : LowerModel L K.frames) : Sys UpOp UpOp.Res (Llfree L) where
  next
    | .table (.treesSteal idx n cls), s, r, s' => ∃ c, W.leaves n cls c ∧
      (upperSys K low).next (.table (.treesSteal idx n c)) s r s'
    | o, s, r, s' => (upperSys K low).next o s r s'
  fails := (upperSys K low).fails

def driftAccounting (W : Drift K) (P : Promise K) (low : LowerModel L K.frames) :
    Accounting UpOp UpOp.Res (Llfree L) Tickets Amount :=
  { upperAccounting P low with sys := driftSys W low }

private theorem sound_lowered {s : Llfree L} {x : Tickets} {idx d : Nat} (sound : Sound P low s x)
    (inside : idx < K.treesLen) (lower : d ≤ (s.upper.trees idx).cls) (used : ¬ P.pristine) :
    Sound P low { s with upper := s.upper.setTree idx { s.upper.trees idx with cls := d } } x := by
  have move : Move P idx (s.upper.trees idx) { s.upper.trees idx with cls := d } 0 0 := by
    refine ⟨by simp, by simp, rfl, rfl, rfl, fun _ => Or.inr ⟨fun c capped => ?_, by simp⟩,
      fun _ known _ => ⟨lower.trans_lt known, by simp⟩, fun on => absurd on used⟩
    rcases capped with entry | ⟨k, member, -⟩
    · exact Or.inl (lower.trans entry)
    · exact absurd member (Multiset.notMem_zero k)
  have moved : Sound P low _ (0 + 0 + x) :=
    Sound.tree (m := 0) (by rwa [zero_add, zero_add]) inside move
  rwa [zero_add, zero_add] at moved

private theorem steal_moves {W : Drift K} (steady : P.pristine → W.Exact) {idx n cls c : Nat}
    (left : W.leaves n cls c) {s s' : Llfree L} {r : Option Nat} {x : Tickets}
    (sound : Sound P low s x) (next : (upperSys K low).next (.table (.treesSteal idx n c)) s r s') :
    ∃ t, Sound P low t x ∧ (upperSys K low).next (.table (.treesSteal idx n cls)) t r s' := by
  obtain ⟨u, done, rfl⟩ := next
  by_cases on : P.pristine
  · obtain rfl := steady on n cls c left
    exact ⟨s, sound, u, done, rfl⟩
  · simp only [TableOp.exec] at done
    split_ifs at done with inside
    cases step : treeSteal (s.upper.trees idx) n c K.policy with
    | none =>
      rw [step] at done
      refine ⟨s, sound, u, ?_, rfl⟩
      simp only [TableOp.exec, if_pos inside, W.refused n cls c left _ step]
      exact done
    | some result =>
      obtain ⟨tree, stolen⟩ := result
      rw [step] at done
      obtain ⟨rfl, rfl⟩ := Prod.mk.inj (Option.some.inj done)
      obtain ⟨d, lower, step'⟩ := W.lowered n cls c left _ _ step
      refine ⟨_, sound_lowered sound inside lower on, s.upper.setTree idx tree, ?_, rfl⟩
      simp only [TableOp.exec, if_pos inside, Upper.setTree, Function.update_self, step',
        Function.update_idem]

theorem safe_drift {α : Type} {W : Drift K} (steady : P.pristine → W.Exact) {C : Tickets → Prop}
    {p : UpProg α} {m : Tickets} {Q : α → Tickets → Prop}
    (safe : (upperAccounting P low).Safe C p m Q) : (driftAccounting W P low).Safe C p m Q := by
  induction p generalizing m with
  | ret a => exact safe
  | abort => exact safe
  | step o k ih =>
    have plain : ∀ t F, Sound P low t (m + F) → ∀ r s', (upperSys K low).next o t r s' →
        ∃ m', Sound P low s' (m' + F) ∧ upperAmount m' = upperAmount m + upperDelta o r ∧
          (driftAccounting W P low).Safe C (k r) m' Q := by
      intro t F sound r s' next
      obtain ⟨m', sound', amount, rest⟩ := (safe.2 t F sound).2 r s' next
      exact ⟨m', sound', amount, ih r rest⟩
    refine ⟨safe.1, fun s F inv => ⟨(safe.2 s F inv).1, fun r s' next => ?_⟩⟩
    cases o with
    | table o =>
      cases o with
      | treesSteal idx n cls =>
        obtain ⟨c, left, step⟩ := next
        obtain ⟨t, sound, step'⟩ := steal_moves steady left inv step
        exact plain t F sound r s' step'
      | _ => exact plain s F inv r s' next
    | _ => exact plain s F inv r s' next

end LLFree.Upper.Overwritten

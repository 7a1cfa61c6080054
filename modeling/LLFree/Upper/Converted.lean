/- module: LLFree/Upper/Converted
   digest: A class change converts one matching tree whenever there is one. -/

import LLFree.Upper.ClassStats

set_option autoImplicit false
set_option relaxedAutoImplicit false

namespace LLFree.Upper.Converted

open LLFree.Atomic.Program LLFree.Code.Types LLFree.Code.Entries LLFree.Code.Lower
open LLFree.Code.Trees LLFree.Code.Shared LLFree.Code.Llfree LLFree.Upper.Sequential
open LLFree.Upper.Requests LLFree.Upper.Changes LLFree.Upper.ClassStats

variable {K : Config} {s s' : Llfree Lower} {matcher : TreeMatch} {change : TreeChange} {t : Nat}

structure Matches (K : Config) (s : Llfree Lower) (matcher : TreeMatch) (change : TreeChange)
    (t : Nat) : Prop where
  inside : t < K.treesLen
  named : ∀ id, matcher.id = some id → t = id
  idle : (s.upper.trees t).reserved = false
  classed : matcher.cls ≠ classNone → (s.upper.trees t).cls = matcher.cls
  enough : matcher.free ≤ (s.upper.trees t).free
  empty : change.operation = .online → (s.upper.trees t).free = 0

/-- The entry `tree` after a change, with `online` frames if it comes online. A class that can be
configured fits the bit field and is stored as it is. -/
def convertedTree (tree : Tree) (change : TreeChange) (online : Nat) : Tree where
  reserved := false
  cls := if change.cls = classNone then tree.cls else storeClass change.cls
  free := match change.operation with
    | .none => tree.free
    | .offline => 0
    | .online => online

/-- What becomes of tree `t`; online, it has the free frames of the lower allocator. -/
def converted (s : Llfree Lower) (change : TreeChange) (t : Nat) : Tree :=
  convertedTree (s.upper.trees t) change
    (lowerStatsAt s.lower (frameFromTree t) treeOrder).freeFrames

theorem changed_some {tree : Tree} (addressed : Addressed K matcher t)
    (step : changed s matcher change t = some tree) :
    Matches K s matcher change t ∧ tree = converted s change t := by
  obtain ⟨idle, classed, enough, empty, same⟩ := treeChange_cases step
  refine ⟨⟨addressed.1, addressed.2, idle, classed, enough, empty⟩, ?_⟩
  simp only [same, converted, convertedTree]
  cases operation : change.operation with
  | none => rfl
  | offline => rfl
  | online => rw [onlineFrames, if_pos operation]

theorem changed_matching (found : Matches K s matcher change t) :
    ∃ tree, changed s matcher change t = some tree := by
  have reserved : ¬ (s.upper.trees t).reserved = true := by simp [found.idle]
  have other : ¬ (matcher.cls ≠ classNone ∧ (s.upper.trees t).cls ≠ matcher.cls) := by
    intro both
    exact both.2 (found.classed both.1)
  simp only [changed, treeChange]
  rw [if_neg reserved, if_neg other, if_neg (Nat.not_lt_of_le found.enough)]
  cases operation : change.operation with
  | none => exact ⟨_, rfl⟩
  | offline => exact ⟨_, rfl⟩
  | online =>
    dsimp only
    rw [if_neg (not_not.mpr (found.empty operation))]
    exact ⟨_, rfl⟩

theorem counters_full {mode : InitMode} (fresh : FreshMode mode) (init : Initialised K mode s)
    (run : History K RowCalls () s () s') :
    ∀ t < K.treesLen, (s'.upper.trees t).free ≤ treeSize :=
  fun t inside => (sane_reached fresh init run t inside).2

/-- A change answers OK exactly when some tree matches, and then it converts one such tree and
nothing else; otherwise it answers MEMORY and nothing changes. No counter is above the size of a
tree: `tree_new` and `tree_put` assert that. -/
theorem changeTree_exact (some : 0 < K.treesLen) (turns : Nat) (matcher : TreeMatch)
    (change : TreeChange) (s : Llfree Lower)
    (full : ∀ t < K.treesLen, (s.upper.trees t).free ≤ treeSize) :
    ∃ r s', Prog.run (UpOp.exec K) (llfreeChangeTree K (turns + 1) matcher change) s =
        Option.some (r, s') ∧
      (r.error = .ok ↔ ∃ t, Matches K s matcher change t) ∧
      (r.error = .ok → ∃ t, Matches K s matcher change t ∧
        s' = { s with upper := s.upper.setTree t (converted s change t) }) ∧
      (r.error ≠ .ok → r.error = .memory ∧ s' = s) := by
  rcases run_changeTree_settled some turns matcher change s with
    ⟨run, refused⟩ | ⟨s', run, t, tree, addressed, step, rfl⟩
  · refine ⟨_, s, run, ⟨by simp, ?_⟩, by simp, fun _ => ⟨rfl, rfl⟩⟩
    intro ⟨t, found⟩
    obtain ⟨tree, step⟩ := changed_matching found
    have small := found.enough.trans (full t found.inside)
    rw [refused small t ⟨found.inside, found.named⟩] at step
    cases step
  · obtain ⟨found, rfl⟩ := changed_some addressed step
    exact ⟨_, _, run, ⟨fun _ => ⟨t, found⟩, fun _ => rfl⟩, fun _ => ⟨t, found, rfl⟩,
      fun failed => absurd rfl failed⟩

/-- A slot has reserved the second of two trees. A call by class finds the first one. -/
theorem changeTree_exact_first : ∃ r s', Prog.run (UpOp.exec twoWhole)
      (llfreeChangeTree twoWhole 1 ⟨none, 1, 4096⟩ ⟨0, .offline⟩)
      ((Call.get none ⟨0, 0, some 0⟩).after twoWhole (initZeroed twoWhole .free)) = some (r, s') ∧
    r.error = .ok := by
  have run : History twoWhole RowCalls () (initZeroed twoWhole .free) () _ :=
    .call (.get none ⟨0, 0, some 0⟩) (.start () _)
      (Call.run_after (r := some (llfreeOk 4096 0)) (by decide +kernel)) (Or.inl (by decide))
  obtain ⟨r, s', done, exact, -⟩ := changeTree_exact (by decide) 0 ⟨none, 1, 4096⟩ ⟨0, .offline⟩ _
    (counters_full (Or.inl rfl) (initZeroed_initialised (by decide)) run)
  refine ⟨r, s', done, exact.mpr ⟨0, by decide, by simp, ?_, ?_, ?_, by simp⟩⟩ <;> decide +kernel

end LLFree.Upper.Converted

/- module: LLFree/Upper/Recovery
   digest: What a restart finds after a crash in the middle of a call. -/

import LLFree.Lower.Crash
import LLFree.Upper.Sequential

set_option autoImplicit false
set_option relaxedAutoImplicit false

namespace LLFree.Upper.Recovery

open LLFree.Atomic.Program LLFree.Code.Types LLFree.Code.Entries LLFree.Code.Lower
open LLFree.Code.Trees LLFree.Code.Shared LLFree.Code.Setup LLFree.Lower.Quiet
open LLFree.Lower.FrameSet LLFree.Lower.FreeCount LLFree.Lower.Crash

structure Bootable (K : Config) : Prop where
  frames : minPages ≤ K.frames ∧ K.frames ≤ maxPages
  classes : 1 ≤ K.numClasses ∧ K.numClasses ≤ maxClasses
  default : K.defaultClass < maxClasses

def recovered (N : Nat) (l : Lower) : Lower := (lowerInit l N .recover).2

/-- Whatever call is cut off in state `l`, after any number of accesses: recovery restores the
entries, the interrupted call has moved no frames but those of its block, and the trees are
rebuilt with the counters of their children. With no call in progress nothing changes. -/
structure CrashSafe (N : Nat) (l : Lower) : Prop where
  entries : ∀ c, Owned N c l → ∀ n, EntriesMatch N (recovered N (cutOff N n c l))
  frames : ∀ c, Owned N c l → ∀ n,
    CrashSpec (freeSet l) (freeSet (recovered N (cutOff N n c l))) c
  trees : ∀ c, Owned N c l → ∀ n K upper, K.frames = N → Bootable K →
    ∃ u, llfreeInit K .recover ⟨cutOff N n c l, upper⟩ =
        some (llfreeOk 0 0, ⟨recovered N (cutOff N n c l), u⟩) ∧
      ∀ t < K.treesLen,
        (u.trees t).free = groupFree (recovered N (cutOff N n c l)) (t * treeChildren)
  quiet : recovered N l = l

variable {N : Nat} {l l' : Lower}

theorem init_recover {K : Config} {buffers : Llfree Lower} (boot : Bootable K)
    (cons : Consistent K.frames (recovered K.frames buffers.lower)) :
    ∃ u, llfreeInit K .recover buffers =
        some (llfreeOk 0 0, ⟨recovered K.frames buffers.lower, u⟩) ∧
      ∀ t < K.treesLen,
        (u.trees t).free = groupFree (recovered K.frames buffers.lower) (t * treeChildren) := by
  obtain ⟨⟨low, high⟩, classes, known⟩ := boot
  have accepted : ¬ (K.frames < minPages ∨ K.frames > maxPages) := by omega
  have entry : ∀ t < K.treesLen, treeNew false K.defaultClass
      (initTreeCb (recovered K.frames buffers.lower) t) =
        some ⟨false, K.defaultClass, groupFree (recovered K.frames buffers.lower) (t * 8)⟩ := by
    intro t inside
    have le : groupFree (recovered K.frames buffers.lower) (t * 8) ≤ treeSize := by
      rw [groupFree_eq cons inside]
      exact treeFree_le _ t
    exact if_pos ⟨le, known⟩
  have all : ∀ t < K.treesLen, (treeNew false K.defaultClass
      (initTreeCb (recovered K.frames buffers.lower) t)).isSome := by
    intro t inside
    rw [entry t inside]
    rfl
  have built : ∃ trees, treesInit K .recover (recovered K.frames buffers.lower)
      buffers.upper.trees = some trees ∧ ∀ t < K.treesLen,
        (trees t).free = groupFree (recovered K.frames buffers.lower) (t * 8) := by
    have rebuild : ¬ InitMode.recover = .none := by simp
    rw [treesInit, if_neg rebuild, if_pos all]
    refine ⟨_, rfl, fun t inside => ?_⟩
    simp only [if_pos inside, entry t inside, Option.getD_some]
  obtain ⟨trees, built, counters⟩ := built
  refine ⟨⟨trees, llLocalInit K buffers.upper.slots⟩, ?_, counters⟩
  rw [llfreeInit, if_pos classes, if_neg accepted]
  change Option.map _ (treesInit K .recover (recovered K.frames buffers.lower) _) = _
  rw [built]
  rfl

/-- Crash consistency of the lower allocator. -/
theorem crash_safe (fresh : Fresh N l) (run : LowerRun N (Owned N) l l') : CrashSafe N l' := by
  have cons := run_consistent owned_complete (fresh_consistent fresh) run
  refine ⟨fun c ok n => entriesMatch_of_consistent (recover_cutOff cons c ok n).1,
    fun c ok n => (recover_cutOff cons c ok n).2, fun c ok n K upper same boot => ?_,
    recover_consistent_self cons .recover rfl⟩
  subst same
  exact init_recover boot (recover_cutOff cons c ok n).1

/-- A crash after a huge frame was allocated. -/
theorem crash_safe_huge :
    ∃ l, Prog.run LoOp.exec (lowerGet 600 0 9 none) (lowerInit zeroed 600 .free).2 =
        some (llfreeOk 0 0, l) ∧
      CrashSafe 600 l :=
  ⟨_, rfl, crash_safe ⟨zeroed, .free, Or.inl rfl, rfl⟩
    (.call (.get 0 9 none) (.refl _) ⟨by decide, by decide, rfl⟩ rfl)⟩

end LLFree.Upper.Recovery

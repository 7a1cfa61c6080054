/- module: LLFree/Upper/Restarts
   digest: A crash at any access of any interleaving, and what the restart makes of it. -/

import LLFree.Layout.Resumption
import LLFree.Upper.AtRest

set_option autoImplicit false
set_option relaxedAutoImplicit false

namespace LLFree.Upper.Restarts

open LLFree.Code.Types LLFree.Code.Entries LLFree.Code.Lower LLFree.Code.Local LLFree.Code.Shared
open LLFree.Code.Setup LLFree.Lower.Quiet LLFree.Lower.FrameSet LLFree.Upper.Slots
open LLFree.Upper.Sequential LLFree.Upper.Balance LLFree.Upper.Recovery LLFree.Upper.Conservation
open LLFree.Upper.Overwritten LLFree.Upper.Lending LLFree.Upper.Layers LLFree.Upper.Concurrent
open LLFree.Upper.Lives LLFree.Upper.Midway

open LLFree.Code.Accesses (lowerRecoverLoop)
open LLFree.Layout.Loops (Runs)
open LLFree.Lower.Crash (with_frames)
open LLFree.Layout.Resumption (cutRecoveries cutRecoveries_alike runs_lowerRecover)

variable {K : Config} {W : Drift K} {ι : Type} [Fintype ι] [DecidableEq ι] {s : Llfree Lower}
  {h : ι → Client} {T : StackThreads ι}

/-- Memory `s'` after a restart of an allocator that crashed in pool `T`. -/
structure Resumed (K : Config) (T : StackThreads ι) (s' : Llfree Lower) : Prop where
  entries : EntriesMatch K.frames s'.lower
  accounted : Accounted K s'
  idle : ∀ t < K.treesLen, (s'.upper.trees t).reserved = false
  slots : ∀ c i, K.HasSlot c i → s'.upper.slots c i = noReserved
  /-- No frame changes its status, so what a client held is still allocated. -/
  free : freeSet s'.lower = freeSet T.mem.lower
  held : ∀ g ∈ heldFrames T.data, ¬ IsFree s'.lower g

omit [Fintype ι] in
private theorem bootable (numbered : Numbered K) (life : Life W s h) : Bootable K := by
  have rebuilt : ∃ s', Rebuilt K s' := by
    cases life with
    | first mode s fresh init =>
      obtain ⟨buffers, init⟩ := init
      exact ⟨s, (init_rebuilt init fresh.ne_none).1⟩
    | again _ _ _ _ _ _ _ _ init _ _ => exact ⟨s, (init_rebuilt init (by simp)).1⟩
  obtain ⟨s', rebuilt⟩ := rebuilt
  exact ⟨rebuilt.frames, rebuilt.classes, numbered.default.trans_le rebuilt.classes.2⟩

private theorem resumes (numbered : Numbered K) (fits : Fits K) (life : Life W s h)
    (reach : StackReaches W s h T) (upper : Upper) : T.mem.lower.frames = K.frames ∧
    K.frames ≤ maxPages ∧ ∃ s', llfreeInit K .recover ⟨T.mem.lower, upper⟩ =
      some (llfreeOk 0 0, s') ∧ Resumed K T s' := by
  have support : Supported (plainPromise K) := False.elim
  obtain ⟨base, U, d, m, n, -, behind⟩ := lives_behind fits support False.elim id life reach
  have rel : Explained K base T.mem U.mem (∑ i, d i) := behind.sim.rel
  have tail : ∀ g, K.frames ≤ g → ¬ IsFree T.mem.lower g := fun g past free =>
    absurd (free_of_explained rel free).1 (Nat.not_lt_of_le past)
  obtain ⟨cons, same⟩ := recovered_of_backed rel.backed tail
  obtain ⟨u, init, -⟩ := @init_recover K ⟨T.mem.lower, upper⟩ (bootable numbered life) cons
  have rebuilt := (init_rebuilt init (by simp)).1
  have sound := sound_of_rebuilt (numberedPromise numbered) fits rebuilt cons
  refine ⟨rel.backed.frames, rebuilt.frames.2, _, init, entriesMatch_of_consistent cons,
    accounted_of_sound sound trivial, fun t inside => ?_, rebuilt.slots, same, fun g held free =>
      ?_⟩
  · rw [rebuilt.trees t inside]
  · obtain ⟨i, b, own, within⟩ := held
    exact (clientsSafe_of_behind behind).taken i b own g within (same.le free)

/-- Wherever a crash cuts off the calls in progress, and whatever is left of trees and slots: the
restart succeeds, entries and counters match the bitfields again, and no frame has moved. -/
theorem restart_resumes (numbered : Numbered K) (fits : Fits K) (life : Life W s h)
    (reach : StackReaches W s h T) (upper : Upper) :
    ∃ s', llfreeInit K .recover ⟨T.mem.lower, upper⟩ = some (llfreeOk 0 0, s') ∧
      Resumed K T s' := by
  obtain ⟨-, -, resumed⟩ := resumes numbered fits life reach upper
  exact resumed

/-- A restart after a client allocated a frame. -/
theorem restart_resumes_one : ∃ (T : StackThreads (Fin 2)) (s' : Llfree Lower),
    T.thread 0 = .ret ⟨[⟨0, 0, 0⟩], 0⟩ ∧
      llfreeInit oneTree .recover T.mem = some (llfreeOk 0 0, s') ∧
      Resumed oneTree T s' := by
  obtain ⟨T, reach, zero, -, -⟩ := one_client oneTreeDrift
  obtain ⟨s', init, resumed⟩ := restart_resumes ⟨by decide, by decide⟩ (by decide)
    (.first .free _ (Or.inl rfl) (initZeroed_initialised (by decide))) reach T.mem.upper
  exact ⟨T, s', zero, init, resumed⟩

private theorem init_alike {l l' : Lower} {upper : Upper} {s' : Llfree Lower}
    (same : lowerInit l' K.frames .recover = lowerInit l K.frames .recover)
    (init : llfreeInit K .recover ⟨l, upper⟩ = some (llfreeOk 0 0, s')) :
    llfreeInit K .recover ⟨l', upper⟩ = some (llfreeOk 0 0, s') := by
  unfold llfreeInit at init ⊢
  split_ifs at init ⊢
  · cases init
  · dsimp only at init ⊢
    rw [same]
    exact init

/-- A crash may cut off the recovery too, and the next ones: the last one runs through within the
buffer and ends with the words of an undisturbed recovery, and no frame has moved. -/
theorem recovery_survives (numbered : Numbered K) (fits : Fits K) (life : Life W s h)
    (reach : StackReaches W s h T) (upper : Upper) (cuts : List Nat) :
    Runs K.frames (lowerRecoverLoop K.frames) (cutRecoveries cuts T.mem.lower) ()
      (lowerRecover T.mem.lower) ∧
    ∃ s', llfreeInit K .recover ⟨cutRecoveries cuts T.mem.lower, upper⟩ = some (llfreeOk 0 0, s') ∧
      Resumed K T s' := by
  obtain ⟨sized, accepted, s', init, resumed⟩ := resumes numbered fits life reach upper
  rw [← sized] at accepted
  obtain ⟨frames, alike⟩ := cutRecoveries_alike accepted cuts
  have loop := runs_lowerRecover (l := cutRecoveries cuts T.mem.lower) (by rwa [frames])
  rw [frames, sized, alike] at loop
  refine ⟨loop, s', init_alike ?_ init, resumed⟩
  rw [lowerInit, lowerInit, with_frames sized, with_frames (frames.trans sized), alike]

/-- The first recovery is cut off after 100 accesses, the second one after 3. -/
theorem recovery_survives_twice : ∃ (T : StackThreads (Fin 2)) (s' : Llfree Lower),
    T.thread 0 = .ret ⟨[⟨0, 0, 0⟩], 0⟩ ∧
      llfreeInit oneTree .recover ⟨cutRecoveries [100, 3] T.mem.lower, T.mem.upper⟩ =
        some (llfreeOk 0 0, s') ∧ Resumed oneTree T s' := by
  obtain ⟨T, reach, zero, -, -⟩ := one_client oneTreeDrift
  obtain ⟨-, s', init, resumed⟩ := recovery_survives ⟨by decide, by decide⟩ (by decide)
    (.first .free _ (Or.inl rfl) (initZeroed_initialised (by decide))) reach T.mem.upper [100, 3]
  exact ⟨T, s', zero, init, resumed⟩

end LLFree.Upper.Restarts

/- module: LLFree/Upper/Attached
   digest: Attaching to buffers that are in use forgets the slots. -/

import LLFree.Upper.Offline

/-!
`llfree_init` without initialisation trusts the tree entries and the lower allocator, but it empties
the slots. What a slot counted is lost, and its tree stays reserved for nobody.
-/

set_option autoImplicit false
set_option relaxedAutoImplicit false

namespace LLFree.Upper.Attached

open LLFree.Code.Types LLFree.Code.Entries LLFree.Code.Lower LLFree.Code.Local LLFree.Code.Shared
open LLFree.Code.Llfree LLFree.Code.Setup LLFree.Upper.Ledger LLFree.Upper.Slots
open LLFree.Upper.Steps LLFree.Upper.Sequential LLFree.Upper.Conservation LLFree.Upper.Requests
open LLFree.Upper.Tidied LLFree.Upper.Offline

variable {K : Config} {fits : Fits K} {s s' : Llfree Lower} {t : Nat}

/-- Allocations, frees and drains of row orders or of a huge frame. -/
def ServedCalls : Unit → Llfree Lower → Call → Option Result → Unit → Prop :=
  fun _ s c _ _ => RowCall c s ∧ ∀ turns matcher change, c ≠ .changeTree turns matcher change

/-- No memory is lost: each counter and its slots make up the free frames of the tree, and a
reserved tree has a slot. -/
structure Kept (K : Config) (s : Llfree Lower) : Prop where
  balance : ∀ t < K.treesLen, (s.upper.trees t).free +
    ∑ p ∈ holders K s.upper t, (s.upper.slots p.1 p.2).free = groupFree s.lower (t * treeChildren)
  owned : ∀ t < K.treesLen, (s.upper.trees t).reserved = true → (holders K s.upper t).Nonempty

def attached (K : Config) (s : Llfree Lower) : Llfree Lower :=
  ⟨{ s.lower with frames := K.frames }, ⟨s.upper.trees, llLocalInit K s.upper.slots⟩⟩

theorem attach_succeeds (frames : minPages ≤ K.frames ∧ K.frames ≤ maxPages)
    (classes : 1 ≤ K.numClasses ∧ K.numClasses ≤ maxClasses) (s : Llfree Lower) :
    llfreeInit K .none s = some (llfreeOk 0 0, attached K s) := by
  rw [llfreeInit, if_pos classes, if_neg (by omega)]
  simp [lowerInit, treesInit, attached]

private theorem kept_iff (parked : Parked fits s 0) :
    Kept K (attached K s) ↔ ∀ c i, K.HasSlot c i → (s.upper.slots c i).present = false := by
  have lower : (attached K s).lower = s.lower := by
    rw [attached]
    have frames := parked.sound.good.frames
    cases same : s.lower
    rw [same] at frames
    cases frames
    rfl
  have none : ∀ t, holders K (attached K s).upper t = ∅ := by
    apply holders_empty
    intro c i has
    simp [attached, llLocalInit, has, noReserved]
  constructor
  · intro kept c i has
    by_contra held
    have present : (s.upper.slots c i).present = true := by simpa using held
    have inside := (parked.sound.slots c i has).tree present
    have holder : (c, i) ∈ holders K s.upper (treeFromRow (s.upper.slots c i).startRow) :=
      mem_holders.mpr ⟨has, present, rfl⟩
    have card := parked.holders_card inside
    have some : 0 < (holders K s.upper (treeFromRow (s.upper.slots c i).startRow)).card :=
      Finset.card_pos.mpr ⟨_, holder⟩
    have reserved : (s.upper.trees (treeFromRow (s.upper.slots c i).startRow)).reserved = true := by
      by_contra idle
      rw [if_neg idle] at card
      omega
    have lost := kept.owned _ inside reserved
    rw [none] at lost
    exact Finset.not_nonempty_empty lost
  · intro empty
    have unheld := holders_empty empty
    refine ⟨fun t inside => ?_, fun t inside reserved => ?_⟩
    · have balance := parked.balance inside
      rw [unheld, Finset.sum_empty, Nat.add_zero, counted_zero, Nat.add_zero] at balance
      rw [none, Finset.sum_empty, Nat.add_zero, lower]
      exact balance
    · have card := parked.holders_card inside
      rw [unheld, show (s.upper.trees t).reserved = true from reserved] at card
      simp at card

/-- Attaching to an allocator in use keeps its memory exactly when no slot holds a tree. -/
theorem attach_keeps_iff {mode : InitMode} (fits : Fits K) (fresh : FreshMode mode)
    (init : Initialised K mode s) (run : History K ServedCalls () s () s') :
    ∃ s'', llfreeInit K .none s' = some (llfreeOk 0 0, s'') ∧
      (Kept K s'' ↔ ∀ c i, K.HasSlot c i → (s'.upper.slots c i).present = false) := by
  obtain ⟨rebuilt, sound⟩ := sound_init (plainPromise K) fits fresh init
  have books : Sound (plainPromise K) (words fits) s' 0 := by
    refine run.keeps (I := fun _ u => Sound (plainPromise K) (words fits) u 0) sound ?_
    rintro _ c r _ u u' before ⟨row, kept⟩ done
    have steady : Steady K u := ⟨before.good, before.slots⟩
    exact call_tidy plain_supported not_false (treesLen_pos rebuilt) kept before
      (row_tidy (reach_of_fits fits) row steady) done
  exact ⟨_, attach_succeeds rebuilt.frames rebuilt.classes s', kept_iff ⟨by simp, books⟩⟩

/-- A frame that was allocated without a slot. -/
theorem attach_keeps_iff_global :
    ∃ s, llfreeInit ⟨4097, llfreeClassingSimple 1⟩ .none ((Call.get none ⟨0, 1, none⟩).after
        ⟨4097, llfreeClassingSimple 1⟩ (initZeroed ⟨4097, llfreeClassingSimple 1⟩ .free)) =
      some (llfreeOk 0 0, s) ∧ Kept ⟨4097, llfreeClassingSimple 1⟩ s := by
  obtain ⟨s, attach, kept⟩ := attach_keeps_iff (K := ⟨4097, llfreeClassingSimple 1⟩) (by decide)
    (Or.inl rfl) (initZeroed_initialised (by decide))
    (.call (.get none ⟨0, 1, none⟩) (.start () _)
      (Call.run_after (r := some (llfreeOk 0 1)) (by decide +kernel))
      ⟨Or.inl (by decide), by intro _ _ _ same; cases same⟩)
  refine ⟨s, attach, kept.mpr fun c i has => ?_⟩
  have every : ∀ p ∈ allSlots ⟨4097, llfreeClassingSimple 1⟩,
      ((((Call.get none ⟨0, 1, none⟩).after ⟨4097, llfreeClassingSimple 1⟩
        (initZeroed ⟨4097, llfreeClassingSimple 1⟩ .free)).upper.slots p.1 p.2).present =
          false) := by
    decide +kernel
  exact every (c, i) (mem_allSlots.mpr has)

/-- The tree that a slot holds is lost. -/
theorem attach_loses_tree :
    ∃ s s' s'', Initialised ⟨4097, llfreeClassingSimple 1⟩ .free s ∧
      History ⟨4097, llfreeClassingSimple 1⟩ ServedCalls () s () s' ∧
      llfreeInit ⟨4097, llfreeClassingSimple 1⟩ .none s' = some (llfreeOk 0 0, s'') ∧
      ¬ Kept ⟨4097, llfreeClassingSimple 1⟩ s'' := by
  refine ⟨_, _, _, initZeroed_initialised (by decide),
    .call (.get none ⟨0, 0, some 0⟩) (.start () _)
      (Call.run_after (r := some (llfreeOk 0 0)) (by decide +kernel))
      ⟨Or.inl (by decide), by intro _ _ _ same; cases same⟩,
    attach_succeeds (by decide) (by decide) _, fun kept => ?_⟩
  exact absurd (kept.balance 0 (by decide)) (by decide +kernel)

end LLFree.Upper.Attached

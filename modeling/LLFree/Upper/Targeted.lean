/- module: LLFree/Upper/Targeted
   digest: An allocation of one given frame succeeds exactly when the frame is free. -/

import LLFree.Upper.Balance
import LLFree.Upper.Effects
import LLFree.Upper.Fallbacks

set_option autoImplicit false
set_option relaxedAutoImplicit false

namespace LLFree.Upper.Targeted

open LLFree.Atomic.Program LLFree.Code.Types LLFree.Code.Entries LLFree.Code.Lower
open LLFree.Code.Trees LLFree.Code.Local LLFree.Code.Shared LLFree.Code.Llfree
open LLFree.Lower.GetPut LLFree.Lower.Quiet LLFree.Lower.FreeCount LLFree.Lower.Search
open LLFree.Upper.Ledger LLFree.Upper.Slots LLFree.Upper.Steps LLFree.Upper.Calls
open LLFree.Upper.Sequential LLFree.Upper.Balance LLFree.Upper.Attempts LLFree.Upper.Fallbacks
open LLFree.Upper.Effects

variable {K : Config} {P : Promise K} {fits : Fits K} {s s' : Llfree Lower} {l : Lower} {u : Upper}
  {f cls index : Nat}

/-! ## The lower allocator -/

theorem lower_target (cons : Consistent K.frames l) (reach : K.frames ≤ 2 ^ 63)
    (inside : f < K.frames) (free : IsFree l f) (start : Nat) :
    ∃ l', Prog.run LoOp.exec (lowerGet K.frames start 0 (some f)) l = some (llfreeOk f 0, l') := by
  have args : GetArgs K.frames start (some f) := by
    refine ⟨(fun none => nomatch none), ?_⟩
    rintro _ ⟨⟩
    omega
  obtain ⟨r, l', run, -, exact⟩ := get_exact cons args (Or.inl (Nat.zero_le 6))
  rcases exact with ⟨g, rfl, -, -, same | ⟨none, -⟩⟩ | ⟨-, -, -, absent⟩
  · cases same
    exact ⟨l', run⟩
  · cases none
  · refine absurd ?_ (absent f ⟨by omega, one_dvd f⟩ (Or.inl rfl))
    refine ⟨one_dvd f, fun g within => ?_⟩
    have below := within.2
    obtain rfl : g = f := Nat.le_antisymm (by omega) within.1
    exact free

/-! ## The own slot -/

section Free

variable (cons : Consistent K.frames l) (reach : K.frames ≤ 2 ^ 63) (inside : f < K.frames)
  (free : IsFree l f)
include cons reach inside free

theorem run_getLocal_target (has : K.HasSlot cls index) (accounted : Accounted K ⟨l, u⟩)
    (tree : (u.slots cls index).present = true →
      treeFromRow (u.slots cls index).startRow < K.treesLen) :
    (∃ s', Prog.run (UpOp.exec K) (getLocal cls index 0 (some f) true) ⟨l, u⟩ =
        some ((llfreeOk f cls, none), s')) ∨
      ∃ out u', Prog.run (UpOp.exec K) (getLocal cls index 0 (some f) true) ⟨l, u⟩ =
        some ((llfreeErr .memory, out), ⟨l, u'⟩) := by
  have serves : ∀ v miss, Holds (v.slots cls index) (some (treeFromFrame f)) (2 ^ 0) →
      ∃ s', Prog.run (UpOp.exec K) (getLocalWith cls index 0 (some f) miss) ⟨l, v⟩ =
        some ((llfreeOk f cls, none), s') := by
    intro v miss holds
    obtain ⟨l', done⟩ := lower_target cons reach inside free
      (frameFromRow (v.slots cls index).startRow)
    obtain ⟨u', run, -⟩ := run_getLocalWith has miss holds (holds.asked _ rfl).symm done
    exact ⟨_, run⟩
  by_cases holds : Holds (u.slots cls index) (some (treeFromFrame f)) (2 ^ 0)
  · exact Or.inl (serves u _ holds)
  have missed : ∀ v, ¬ Holds (v.slots cls index) (some (treeFromFrame f)) (2 ^ 0) →
      ∃ out, Prog.run (UpOp.exec K) (getLocalWith cls index 0 (some f)
        fun again => return localMiss again) ⟨l, v⟩ = some ((llfreeErr .memory, out), ⟨l, v⟩) := by
    intro v refuses
    rw [run_getLocalWith_miss has refuses]
    exact ⟨_, rfl⟩
  cases present : (u.slots cls index).present with
  | false =>
    right
    rw [getLocal, run_getLocalWith_miss has holds, if_neg (by simp [makeResult, present])]
    exact ⟨_, u, rfl⟩
  | true =>
    have settle : ∀ taken u', Prog.run (UpOp.exec K)
        (syncWithGlobal cls index (2 ^ 0) (makeResult false cls (u.slots cls index))) ⟨l, u⟩ =
          some (taken, ⟨l, u'⟩) →
        (∃ s', Prog.run (UpOp.exec K) (getLocal cls index 0 (some f) true) ⟨l, u⟩ =
            some ((llfreeOk f cls, none), s')) ∨
          ∃ out u', Prog.run (UpOp.exec K) (getLocal cls index 0 (some f) true) ⟨l, u⟩ =
            some ((llfreeErr .memory, out), ⟨l, u'⟩) := by
      intro taken u' sync
      rw [run_getLocal_miss has present (by exact holds) sync]
      cases taken with
      | false =>
        rw [if_neg (by simp)]
        exact Or.inr ⟨_, u', rfl⟩
      | true =>
        rw [if_pos rfl]
        by_cases again : Holds (u'.slots cls index) (some (treeFromFrame f)) (2 ^ 0)
        · exact Or.inl (serves u' _ again)
        · obtain ⟨out, run⟩ := missed u' again
          exact Or.inr ⟨out, u', run⟩
    obtain ⟨-, room⟩ := accounted.slot has present
    by_cases enough : 2 ^ 0 ≤ (u.slots cls index).free
    · exact settle _ _ (run_sync_enough present enough)
    · by_cases covers : Covers u cls index (2 ^ 0)
      · exact settle _ _ (run_sync_taken present (tree present) (Nat.lt_of_not_le enough) has covers
          room)
      · exact settle _ _ (run_sync_refused present (tree present) (Nat.lt_of_not_le enough) covers)

/-! ## The other slots -/

theorem slots_serve {c j : Nat} (_ : K.HasSlot c j)
    (_ : Holds (u.slots c j) ((some f).map treeFromFrame) (2 ^ 0)) :
    ∃ g l', Prog.run LoOp.exec
      (lowerGet K.frames (frameFromRow (u.slots c j).startRow) 0 (some f)) l =
      some (llfreeOk g 0, l') := by
  obtain ⟨l', done⟩ := lower_target cons reach inside free (frameFromRow (u.slots c j).startRow)
  exact ⟨f, l', done⟩

/-! ## The whole call -/

theorem covered (accounted : Accounted K ⟨l, u⟩) :
    0 < (u.trees (treeFromFrame f)).free ∨
      ∃ c j, K.HasSlot c j ∧ Holds (u.slots c j) (some (treeFromFrame f)) 1 := by
  have tree : treeFromFrame f < K.treesLen := by
    simp only [treeFromFrame, Config.treesLen, divCeil, treeSize]
    omega
  have balance := accounted.balance _ tree
  have some : 0 < groupFree l (treeFromFrame f * treeChildren) := by
    rw [show treeChildren = 8 from rfl, groupFree_eq cons tree]
    exact treeFree_pos free
  by_contra bare
  rw [not_or, Nat.not_lt, Nat.le_zero] at bare
  obtain ⟨counter, none⟩ := bare
  have slots : ∑ p ∈ holders K u (treeFromFrame f), (u.slots p.1 p.2).free = 0 := by
    refine Finset.sum_eq_zero fun p member => ?_
    obtain ⟨has, present, here⟩ := mem_holders.mp member
    by_contra held
    refine none ⟨p.1, p.2, has, present, ?_, by omega⟩
    rintro _ ⟨⟩
    exact here
  dsimp only at balance
  omega

theorem run_getAtGlobal_target {slot : Option Nat} {r : Result} (byClass : ByClass K.policy)
    (small : cls < 8) (accounted : Accounted K ⟨l, u⟩)
    (run : Prog.run (UpOp.exec K) (getAtGlobal K f ⟨0, cls, slot⟩) ⟨l, u⟩ = some (r, s')) :
    r.error = .ok := by
  have tree : treeFromFrame f < K.treesLen := by
    simp only [treeFromFrame, Config.treesLen, divCeil, treeSize]
    omega
  simp only [getAtGlobal, treesSteal, Nat.pow_zero, Prog.step_bind, Prog.ret_bind] at run
  by_cases counter : 1 ≤ (u.trees (treeFromFrame f)).free
  · obtain ⟨tree', c, step⟩ :=
      treeSteal_some (n := 1) counter (ByClass.never_invalid byClass cls _ _)
    obtain ⟨l', done⟩ := lower_target cons reach inside free f
    rw [run_table (by simp only [TableOp.exec, if_pos tree, step]; rfl)] at run
    simp only [lowerGetStep, Prog.step_bind, Prog.ret_bind] at run
    rw [run_lower (c := .get f 0 (some f)) done] at run
    obtain ⟨rfl, -⟩ := Prod.mk.inj (Option.some.inj run)
    rfl
  · have empty : treeSteal (u.trees (treeFromFrame f)) 1 cls K.policy = none :=
      if_pos (Nat.lt_of_not_le counter)
    rw [run_table (by simp only [TableOp.exec, if_pos tree, empty]; rfl)] at run
    obtain ⟨c, j, has, holds⟩ := (covered cons reach inside free accounted).resolve_left counter
    have order := byClass cls c (2 ^ 0)
    refine (run_stealOrDemote (fun _ _ => slots_serve cons reach inside free) run).resolve_right
      fun kept => kept.2 c j has (ByClass.never_invalid byClass cls c _) (fun demote => ?_) holds
    -- only a class above is demoted
    rw [order] at demote
    split_ifs at demote
    omega

end Free

theorem get_free {slot : Option Nat} {r : Result} (numbered : Numbered K)
    (byClass : ByClass K.policy)
    (sound : Sound (numberedPromise numbered) (words fits) s 0) (inside : f < K.frames)
    (free : IsFree s.lower f) (valid : validateRequest K ⟨0, cls, slot⟩ (some f) = true)
    (run : Prog.run (UpOp.exec K) (llfreeGet K (some f) ⟨0, cls, slot⟩) s = some (r, s')) :
    r.error = .ok := by
  obtain ⟨l, u⟩ := s
  have reach := reach_of_fits fits
  have wanted : Wanted (numberedPromise numbered) (words fits) cls 0 slot (some f) :=
    wanted_of_valid (fun _ _ => numbered.known) (Or.inl (Nat.zero_le 6)) valid
  have small : cls < 8 := by
    have known := (checked_of_valid valid).locals
    by_contra big
    exact known (by rw [Config.locals, classLocals, if_pos (by simpa using big)])
  simp only [llfreeGet, valid, Bool.true_eq_false, if_false, llfreeGetAt] at run
  rw [Prog.assert_bind inside] at run
  cases slot with
  | none =>
    exact run_getAtGlobal_target sound.good reach inside free byClass small
      (accounted_of_sound sound trivial) run
  | some index =>
    have has := wanted.slot index rfl
    have ok := sound.slots cls index has
    dsimp only at run
    rcases run_getLocal_target sound.good reach inside free has (accounted_of_sound sound trivial)
      (fun present => ok.tree present) with ⟨t, got⟩ | ⟨out, u', missed⟩
    · rw [Prog.run_bind_some got, if_pos (by simp)] at run
      obtain ⟨rfl, -⟩ := Prod.mk.inj (Option.some.inj run)
      rfl
    · -- the state after a miss is sound again, and the frame still free
      have safe : (upperAccounting (numberedPromise numbered) (words fits)).Ok
          (getLocal cls index 0 (some f) true) 0
            (GotLocal (numberedPromise numbered) cls 0 (some f)) :=
        safe_getLocal fits wanted
      obtain ⟨p, t, y, done, ⟨got, -⟩, sound'⟩ := run_safe safe (by rwa [← add_zero 0] at sound)
      rw [missed] at done
      obtain ⟨rfl, rfl⟩ := Prod.mk.inj (Option.some.inj done)
      obtain rfl := got.none (by simp)
      rw [Prog.run_bind_some missed, if_neg (by simp)] at run
      exact run_getAtGlobal_target sound'.good reach inside free byClass small
        (accounted_of_sound (by rwa [add_zero] at sound') trivial) run

/-! ## Runs -/

theorem valid_target {slot : Option Nat} (inside : f < K.frames) (configured : K.locals cls ≠ none)
    (legal : ∀ i, slot = some i → K.HasSlot cls i) :
    validateRequest K ⟨0, cls, slot⟩ (some f) = true := by
  apply valid_of_checked
  refine ⟨Nat.zero_le 12, configured, legal, Nat.zero_lt_of_lt inside, ?_⟩
  rintro _ ⟨⟩
  exact ⟨inside, one_dvd f⟩

/-- In every reachable state a call for one frame succeeds exactly when the frame is free; it then
returns this frame and changes the status of no other. -/
theorem targeted_exact {mode : InitMode} (standard : Standard K) (fits : Fits K)
    (fresh : FreshMode mode) (init : Initialised K mode s)
    (run : History K (Anytime (AnyCall K)) () s () s') (inside : f < K.frames) {slot : Option Nat}
    (configured : K.locals cls ≠ none) (legal : ∀ i, slot = some i → K.HasSlot cls i) :
    ∃ r s'', (Call.get (some f) ⟨0, cls, slot⟩).run K s' = some (some r, s'') ∧
      (r.error = .ok ↔ IsFree s'.lower f) ∧
      (r.error = .ok → r.frame = f ∧ ¬ IsFree s''.lower f ∧
        ∀ g, g ≠ f → (IsFree s''.lower g ↔ IsFree s'.lower g)) := by
  have numbered := standard.numbered
  obtain ⟨some, sound⟩ := sound_reached numbered fits fresh init run
  have row : RowOrHuge (⟨0, cls, slot⟩ : Request).order := Or.inl (Nat.zero_le 6)
  obtain ⟨r, s'', y, done, -, -⟩ := run_get (Option.some f) (fun _ => numbered) some sound row
  have effect := get_effect (reach_of_fits fits) sound.good row done
  have exact : r.error = .ok → r.frame = f ∧ Took f 0 s'.lower s''.lower := by
    intro ok
    obtain ⟨-, -, hit, took⟩ := effect.resolve_right fun failed => failed.1 ok
    obtain rfl := hit f rfl
    exact ⟨rfl, took⟩
  have here : Within f 0 f := ⟨le_refl f, by omega⟩
  refine ⟨r, s'', done, ⟨fun ok => (exact ok).2.free f here, fun free => ?_⟩, fun ok => ?_⟩
  · obtain ⟨r', t, done', same⟩ := Prog.run_bind_eq_some.mp done
    cases same
    exact get_free numbered standard.byClass sound inside free
      (valid_target inside configured legal) done'
  · obtain ⟨same, took⟩ := exact ok
    refine ⟨same, took.taken f here, fun g other => took.others g fun within => other ?_⟩
    have below := within.2
    exact Nat.le_antisymm (by omega) within.1

def oneTaken : Llfree Lower :=
  (Call.get none ⟨0, 0, some 0⟩).after twoWhole (initZeroed twoWhole .free)

private theorem oneTaken_reached : History twoWhole (Anytime (AnyCall twoWhole)) ()
    (initZeroed twoWhole .free) () oneTaken :=
  .call (.get none ⟨0, 0, some 0⟩) (.start () _)
    (Call.run_after (r := some (llfreeOk 4096 0)) (by decide +kernel))
    (.get _ _ (Or.inl (by decide)) : AnyCall twoWhole _)

/-- A slot without a tree takes a frame of the tree that the slot of another class holds. -/
theorem targeted_exact_beside : (oneTaken.upper.slots 0 0).present = true ∧
    treeFromRow (oneTaken.upper.slots 0 0).startRow = 5000 / treeSize ∧
      (oneTaken.upper.slots 1 0).present = false ∧
    ∃ r s'', (Call.get (some 5000) ⟨0, 1, some 0⟩).run twoWhole oneTaken = some (some r, s'') ∧
      (r.error = .ok ↔ IsFree oneTaken.lower 5000) ∧
      (r.error = .ok → r.frame = 5000 ∧ ¬ IsFree s''.lower 5000 ∧
        ∀ g, g ≠ 5000 → (IsFree s''.lower g ↔ IsFree oneTaken.lower g)) :=
  ⟨by decide +kernel, by decide +kernel, by decide +kernel,
    targeted_exact ⟨1, le_refl 1, Or.inl rfl⟩ (by decide) (Or.inl rfl)
      (initZeroed_initialised (by decide)) oneTaken_reached (by decide) (by decide) (by decide)⟩

end LLFree.Upper.Targeted

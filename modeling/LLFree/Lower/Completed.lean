/- module: LLFree/Lower/Completed
   digest: Complete calls of any order move one block of frames, or none. -/

import LLFree.Lower.Rollback

/-!
Blocks of two or four rows, and of several huge frames, are taken back step by step when an
attempt fails half way. A call that completes has either nothing to take back, or it is one for
several huge frames; those with something to take back are left out here.
-/

set_option autoImplicit false
set_option relaxedAutoImplicit false

namespace LLFree.Lower.Completed

open LLFree.Atomic.Program LLFree.Code.Types LLFree.Code.Entries LLFree.Code.Lower
open LLFree.Lower.Holding LLFree.Lower.Holding.Held LLFree.Lower.GetPut LLFree.Lower.Quiet
open LLFree.Lower.Groups LLFree.Lower.Rollback LLFree.Lower.FrameSet

variable {N f order : Nat} {l l' : Lower} {r : Result}

def Tidy (c : LowerCall) (l : Lower) : Prop := hugeOrder < callOrder c → NoUndo l c

instance decidableClean (l : Lower) (n : Nat) : (groups : List Nat) → Decidable (Clean l n groups)
  | [] => isTrue trivial
  | i :: rest =>
    have := decidableClean l n rest
    inferInstanceAs (Decidable (AllAre l (i * n) n ⟨childSize, false⟩ ∨
      l.children (i * n) ≠ ⟨childSize, false⟩ ∧ Clean l n rest))

instance : (c : LowerCall) → (l : Lower) → Decidable (Tidy c l)
  | .get start order none, l =>
    inferInstanceAs (Decidable (hugeOrder < order → Clean l _ (candidates start order)))
  | .get _ order (some f), l =>
    inferInstanceAs (Decidable (hugeOrder < order → Valid l.frames f order → Unwindable l _ _ _))
  | .put f order, l =>
    inferInstanceAs (Decidable (hugeOrder < order → Valid l.frames f order → Unwindable l _ _ _))

/-! ## Allocations of several huge frames -/

theorem not_torn_of_unwindable {c n : Nat} (unwindable : Unwindable l c n ⟨childSize, false⟩) :
    ¬ Torn l c n := by
  rintro ⟨j, less, pos, free, taken⟩
  rcases unwindable with all | first
  · have value := all j less
    rw [taken] at value
    cases value
  · exact first (free 0 pos)

theorem not_meets_of_clean {n : Nat} (groups : List Nat) (clean : Clean l n groups) :
    ¬ MeetsTorn l n groups := by
  induction groups with
  | nil => exact id
  | cons i rest ih =>
    rintro (torn | ⟨some, later⟩)
    · exact not_torn_of_unwindable (clean.imp_right And.left) torn
    · rcases clean with all | ⟨-, clean⟩
      · exact some all
      · exact ih clean later

theorem spared_of_tidy {start : Nat} {target : Option Nat} (frames : l.frames = N)
    (valid : ∀ f, target = some f → Valid N f order) (tidy : Tidy (.get start order target) l) :
    Spared (.get start order target) l := by
  cases target with
  | none =>
    intro big
    exact not_meets_of_clean _ (tidy big)
  | some f =>
    intro big
    exact not_torn_of_unwindable (tidy big (frames ▸ valid f rfl))

private theorem get_completed {start : Nat} {target : Option Nat} (cons : Consistent N l)
    (reach : N ≤ 2 ^ 63) (small : order ≤ 12) (inside : start < N)
    (valid : ∀ f, target = some f → Valid N f order)
    (tidy : Tidy (.get start order target) l)
    (run : Prog.run LoOp.exec (lowerGet N start order target) l = some (r, l')) :
    Consistent N l' ∧ GetOutcome N start order target l r l' := by
  by_cases big : 9 < order
  · have spared := spared_of_tidy cons.frames valid tidy
    have backed : Backed N l (0 + allocated l) := by
      rw [zero_add]
      exact cons.backed
    have took : ∀ f, 2 ^ order ∣ f → f / 4096 < divCeil N 4096 →
        Backed N l' (0 + block f order + allocated l) →
        Consistent N l' ∧ f + 2 ^ order ≤ N ∧ Took f order l l' := by
      intro f aligned tree backed'
      rw [zero_add] at backed'
      exact took_of_backed cons aligned (block_entries small aligned tree) backed'
    have same : SameFree l l := fun _ => Iff.rfl
    cases target with
    | none =>
      rcases get_group big small inside spared backed run with
        ⟨f, aligned, tree, rfl, backed'⟩ | ⟨rfl, rfl⟩
      · have here : f / 4096 < divCeil N 4096 := by
          simp only [divCeil]
          omega
        obtain ⟨cons', fits, taken⟩ := took f aligned here backed'
        exact ⟨cons', Or.inl ⟨f, rfl, ⟨fits, aligned⟩, taken, by simp, fun _ => tree⟩⟩
      · exact ⟨cons, Or.inr ⟨Or.inl rfl, same⟩⟩
    | some f =>
      have good := valid f rfl
      rcases get_group_at big small good spared backed run with ⟨rfl, backed'⟩ | ⟨rfl, rfl⟩
      · have here : f / 4096 < divCeil N 4096 := by
          have fits := good.1
          have pos : 0 < 2 ^ order := Nat.two_pow_pos order
          simp only [divCeil]
          omega
        obtain ⟨cons', -, taken⟩ := took f good.2 here backed'
        exact ⟨cons', Or.inl ⟨f, rfl, good, taken, by simp, by simp⟩⟩
      · exact ⟨cons, Or.inr ⟨Or.inl rfl, same⟩⟩
  · have args : GetArgs N start target := by
      refine ⟨fun _ => inside, fun f same => ?_⟩
      have fits := (valid f same).1
      have pos : 0 < 2 ^ order := Nat.two_pow_pos order
      omega
    exact get_sound cons args (by omega) run

/-! ## Frees -/

theorem exists_add_wholes {m : Held} {c n : Nat} (tokens : ∀ i < n, m.huge (c + i) = {0}) :
    ∃ F, m = wholes c n + F := by
  refine ⟨⟨m.credit, m.bit, fun i => if c ≤ i ∧ i < c + n then 0 else m.huge i⟩, ?_⟩
  refine Held.ext_at (fun i => by simp [wholes]) (fun g => by simp [wholes]) fun i => ?_
  simp only [Held.add_huge, wholes]
  split_ifs with inside
  · rw [← tokens (i - c) (by omega), Nat.add_sub_cancel' inside.1, add_zero]
  · rw [zero_add]

private theorem put_group (cons : Consistent N l) (big : 9 < order) (small : order ≤ 12)
    (valid : Valid N f order) (all : AllAre l (f / 512) (2 ^ (order - 9)) ⟨0, true⟩)
    (run : Prog.run LoOp.exec (lowerPut N f order) l = some (r, l')) :
    r.error = .ok ∧ Consistent N l' ∧ Freed f order l l' := by
  obtain ⟨F, same⟩ : ∃ F, allocated l = wholes (f / 512) (2 ^ (order - 9)) + F := by
    apply exists_add_wholes
    intro i less
    simp [allocated, all i less]
  rw [show wholes (f / 512) (2 ^ (order - 9)) =
    block f order by rw [block, if_neg (by omega)]] at same
  have backed : Backed N l (0 + block f order + F) := by
    rw [zero_add, ← same]
    exact cons.backed
  obtain ⟨ok, backed'⟩ := put_held small valid backed run
  rw [zero_add] at backed'
  exact ⟨ok, freed_of_block cons valid same backed'⟩

private theorem put_completed (cons : Consistent N l) (small : order ≤ 12) (valid : Valid N f order)
    (tidy : Tidy (.put f order) l)
    (run : Prog.run LoOp.exec (lowerPut N f order) l = some (r, l')) :
    r.error = .ok ∧ Consistent N l' ∧ Freed f order l l' ∨ r.error ≠ .ok ∧ l' = l := by
  obtain rfl := cons.frames
  by_cases big : 9 < order
  · rcases tidy big valid with all | first
    · exact Or.inl (put_group cons big small valid all run)
    · have done := put_first big small valid rfl first
      rw [done] at run
      cases run
      exact Or.inr ⟨by simp, rfl⟩
  · by_cases row : order ≤ 6 ∨ order = 9
    · by_cases good : Puttable l.frames f order l
      · obtain ⟨-, kind, taken⟩ := good
        obtain ⟨t, done, cons', freed⟩ := put_allocated cons valid kind taken
        rw [done] at run
        cases run
        exact Or.inl ⟨rfl, cons', freed⟩
      · obtain ⟨e, error, done⟩ := put_refused cons (Or.inl valid) row good
        rw [done] at run
        cases run
        exact Or.inr ⟨error, rfl⟩
    · have tiny : order < 9 := by omega
      by_cases taken : ∀ g, Within f order g → ¬ IsFree l g
      · obtain ⟨t, done, cons', freed⟩ := put_allocated cons valid (Or.inl tiny) taken
        rw [done] at run
        cases run
        exact Or.inl ⟨rfl, cons', freed⟩
      · rcases put_some_free cons valid tiny taken with ⟨-, aborted⟩ | ⟨-, done⟩
        · rw [aborted] at run
          cases run
        · rw [done] at run
          cases run
          exact Or.inr ⟨by simp, rfl⟩

/-- An allocation that completes, with nothing to take back, takes one block of frames or none. -/
theorem completed_get {start : Nat} {target : Option Nat} (cons : Consistent N l)
    (reach : N ≤ 2 ^ 63) (small : order ≤ 12) (inside : start < N)
    (valid : ∀ f, target = some f → Valid N f order) (tidy : Tidy (.get start order target) l)
    (run : Prog.run LoOp.exec (lowerGet N start order target) l = some (r, l')) :
    Consistent N l' ∧ CallSpec N r (freeSet l) (freeSet l') (.get start order target) := by
  obtain ⟨cons', outcome⟩ := get_completed cons reach small inside valid tidy run
  exact ⟨cons', callSpec_get outcome⟩

/-- A free that completes, with nothing to take back, frees its block or changes nothing. -/
theorem completed_put (cons : Consistent N l) (small : order ≤ 12) (valid : Valid N f order)
    (tidy : Tidy (.put f order) l)
    (run : Prog.run LoOp.exec (lowerPut N f order) l = some (r, l')) :
    Consistent N l' ∧ CallSpec N r (freeSet l) (freeSet l') (.put f order) := by
  rcases put_completed cons small valid tidy run with ⟨ok, cons', freed⟩ | ⟨error, rfl⟩
  · exact ⟨cons', callSpec_put ok valid freed⟩
  · exact ⟨cons, Or.inr ⟨error, rfl⟩⟩

end LLFree.Lower.Completed

/- module: LLFree/Upper/Isolation
   digest: While a tree is entirely free an allocation stays off the trees of other slots. -/

import LLFree.Upper.Pristine
import LLFree.Upper.Restored
import LLFree.Upper.Searches

set_option autoImplicit false
set_option relaxedAutoImplicit false

namespace LLFree.Upper.Isolation

open LLFree.Atomic.Program LLFree.Code.Types LLFree.Code.Entries LLFree.Code.Lower
open LLFree.Code.Local LLFree.Code.Shared LLFree.Code.Llfree LLFree.Lower.Quiet
open LLFree.Lower.FrameSet LLFree.Lower.FreeCount LLFree.Upper.Ledger LLFree.Upper.Slots
open LLFree.Upper.Steps
open LLFree.Upper.Calls LLFree.Upper.Sequential LLFree.Upper.Balance LLFree.Upper.Pristine
open LLFree.Upper.LocalPath LLFree.Upper.Restored LLFree.Upper.Searches

variable {K : Config} {standard : Standard K} {fits : Fits K} {s s' : Llfree Lower}
  {order cls i e : Nat}

/-! ## Memory is plentiful -/

structure Plenty (s : Llfree Lower) (e : Nat) : Prop where
  idle : (s.upper.trees e).reserved = false
  free : ∀ g, g / treeSize = e → IsFree s.lower g

theorem Plenty.alike (plenty : Plenty s e) (alike : Alike s s') : Plenty s' e := by
  refine ⟨(alike.reserved e).trans plenty.idle, fun g here => ?_⟩
  rw [alike.lower]
  exact plenty.free g here

theorem Plenty.last (plenty : Plenty s e) (cons : Consistent K.frames s.lower) :
    e * treeSize + treeSize ≤ K.frames := by
  by_contra beyond
  refine cons.tail (e * treeSize + (treeSize - 1)) (by simp only [treeSize] at *; omega) ?_
  apply plenty.free
  simp only [treeSize]
  omega

theorem Plenty.inside (plenty : Plenty s e) (cons : Consistent K.frames s.lower) :
    e < K.treesLen := by
  have last := plenty.last cons
  simp only [Config.treesLen, divCeil, treeSize] at *
  omega

/-! ## The classings -/

def Classed (K : Config) (n : Nat) : Prop :=
  K.classing = llfreeClassingSimple n ∨ K.classing = llfreeClassingMovable n

theorem Classed.locals {n : Nat} (classed : Classed K n) (cls : Nat) :
    K.locals cls = if cls ≤ K.defaultClass then some n else none := by
  rcases classed with same | same
  · rw [Config.locals, classLocals, Config.defaultClass, same]
    rcases cls with _ | _ | k
    · rfl
    · rfl
    · simp [llfreeClassingSimple, List.lookup_cons]
  · rw [Config.locals, classLocals, Config.defaultClass, same]
    rcases cls with _ | _ | _ | k
    · rfl
    · rfl
    · rfl
    · simp [llfreeClassingMovable, List.lookup_cons]

theorem Classed.highest {n : Nat} (classed : Classed K n) (has : K.HasSlot cls i) :
    cls ≤ K.defaultClass ∧ K.locals cls = some n := by
  obtain ⟨len, same, -⟩ := has
  have configured := classed.locals cls
  split_ifs at configured with below
  · exact ⟨below, configured⟩
  · rw [configured] at same
    cases same

theorem Classed.index {n : Nat} (classed : Classed K n) (has : K.HasSlot cls i) : i < n :=
  hasSlot_less has (classed.highest has).2

section Search

variable {n : Nat} (some : 1 ≤ n) (classed : Classed K n)
  (sound : Sound (pristinePromise standard) (words fits) s 0) (plenty : Plenty s e)
  (has : K.HasSlot cls i)
include some classed sound plenty has

theorem plenty_serves (row : RowOrHuge order) : Serves K order cls s e := by
  have cons : Consistent K.frames s.lower := sound.good
  have entry := tree_of_free trivial sound (plenty.inside cons) plenty.idle plenty.free
  have small : 2 ^ order ≤ treeSize := Nat.pow_le_pow_right (by decide) (rowOrHuge_small order row)
  refine ⟨plenty.idle, ?_, ByClass.never_invalid standard.byClass _ _ _, ?_, ?_, e * 4096, ?_, ?_,
    ?_⟩
  · rw [entry]
    exact small
  · rw [(classed.highest has).2]
    exact Nat.ne_of_gt some
  · rw [entry, classed.locals, if_pos (le_refl _)]
    exact Nat.ne_of_gt some
  · have last := plenty.last cons
    simp only [treeSize] at last small
    exact ⟨by omega, (pow_dvd_pow 2 (rowOrHuge_small order row)).mul_left e⟩
  · omega
  · refine ⟨(pow_dvd_pow 2 (rowOrHuge_small order row)).mul_left e, fun g within => ?_⟩
    apply plenty.free
    obtain ⟨above, below⟩ := within
    simp only [treeSize] at small ⊢
    omega

omit some in
theorem plenty_tried (row : RowOrHuge order) :
    rateReserveGlobalTree K cls (2 ^ order) (s.upper.trees e).cls (s.upper.trees e).free =
      ⟨.match, 255⟩ := by
  have cons : Consistent K.frames s.lower := sound.good
  have entry := tree_of_free trivial sound (plenty.inside cons) plenty.idle plenty.free
  have small : 2 ^ order ≤ treeSize := Nat.pow_le_pow_right (by decide) (rowOrHuge_small order row)
  have kind := standard.byClass cls K.defaultClass treeSize
  rw [if_neg (by have := (classed.highest has).1; omega)] at kind
  rw [entry, rateReserveGlobalTree, if_neg (Nat.not_lt_of_le small)]
  dsimp only
  split_ifs at kind
  · rw [if_neg (by rw [kind]; decide), if_pos ⟨kind, rfl⟩]
  · rw [if_pos kind]

omit sound in
private theorem settles (row : RowOrHuge order) :
    Settles K (reserveOrStealCb K order cls i)
      (fun t => Sound (pristinePromise standard) (words fits) t 0 ∧ Alike s t) (· = e)
      fun idx r _ => r.error = .ok ∧ r.frame / 4096 = idx ∧
        (s.upper.trees idx).reserved = false := by
  intro idx inside t before
  obtain ⟨sound', alike⟩ := before
  have wanted : Wanted (pristinePromise standard) (words fits) cls order none none :=
    ⟨row, (fun _ none => nomatch none), (fun _ none => nomatch none), False.elim⟩
  obtain ⟨r, t', y, run, got, sound''⟩ := run_safe
    (safe_reserveOrStealCb (i := i) fits wanted inside) (by rwa [← zero_add 0] at sound')
  refine ⟨r, t', run, ?_⟩
  rcases reserveOrSteal_outcome sound'.good row inside run with
    ⟨ok, here, idle⟩ | ⟨memory, later, vain⟩
  · refine Or.inr ⟨by simp [ok], ok, here, ?_⟩
    rw [← alike.reserved]
    exact idle
  · obtain rfl := got.none (by simp [memory])
    refine Or.inl ⟨memory, ⟨by rwa [zero_add] at sound'', alike.trans later⟩, ?_⟩
    rintro rfl
    exact vain (plenty_serves some classed sound' (plenty.alike alike) has row)

theorem search_isolated (row : RowOrHuge order) {start : Nat} (inside : start < K.treesLen) :
    ∃ r s', Prog.run (UpOp.exec K) (searchAndReserve K cls i order start) s = Option.some (r, s') ∧
      r.error = .ok ∧ r.frame / 4096 < K.treesLen ∧
        (s.upper.trees (r.frame / 4096)).reserved = false := by
  have cons : Consistent K.frames s.lower := sound.good
  have tree := plenty.inside cons
  have pos : 0 < K.treesLen := by omega
  have settles : Settles K (reserveOrStealCb K order cls i)
      (fun t => Sound (pristinePromise standard) (words fits) t 0 ∧ Alike s t) _ _ :=
    settles some classed plenty has row
  have global : ∀ start < K.treesLen, ∀ t,
      Sound (pristinePromise standard) (words fits) t 0 ∧ Alike s t →
      ∃ r s', Prog.run (UpOp.exec K) (treesSearchBest K start 0 K.treesLen
          (rateReserveGlobalTree K cls (2 ^ order)) (reserveOrStealCb K order cls i)) t =
        Option.some (r, s') ∧ r.error = .ok ∧ r.frame / 4096 < K.treesLen ∧
          (s.upper.trees (r.frame / 4096)).reserved = false := by
    intro start inside t before
    obtain ⟨r, s', run, ⟨-, idx, less, ok, rfl, idle⟩ | ⟨-, -, refused⟩⟩ :=
      run_treesSearchBest settles pos start 0 K.treesLen (rateReserveGlobalTree K cls (2 ^ order))
        before
    · exact ⟨r, s', run, ok, less, idle⟩
    · -- the free tree is not passed over, kept or refused
      exfalso
      obtain ⟨k, less, here⟩ := searchIdx_onto inside tree
      obtain ⟨t', ⟨sound', alike⟩, reason⟩ := refused k (Nat.zero_le k) less
      rw [here] at reason
      have tried := plenty_tried classed sound' (plenty.alike alike) has row
      rcases reason with reserved | failed | deferred
      · rcases reserved with reserved | invalid
        · rw [(plenty.alike alike).idle] at reserved
          cases reserved
        · rw [tried] at invalid
          cases invalid
      · exact failed rfl
      · rw [Deferred, tried] at deferred
        exact deferred.1.2.2 ⟨rfl, rfl⟩
  have below : ∀ align, alignDown start align < K.treesLen := by
    intro align
    exact (Nat.div_mul_le_self start align).trans_lt inside
  have start' : Sound (pristinePromise standard) (words fits) s 0 ∧ Alike s s := ⟨sound, .refl s⟩
  rw [searchAndReserve, Prog.assert_bind inside]
  dsimp only
  split_ifs
  · obtain ⟨r, t, run, ⟨success, idx, less, ok, rfl, idle⟩ | ⟨memory, before, -⟩⟩ :=
      run_treesSearchBest settles pos (alignDown start _) 1 _
        (rateReserveNearTree K cls (2 ^ order)) start'
    · rw [Prog.run_bind_some run, if_pos success]
      exact ⟨r, t, rfl, ok, less, idle⟩
    · rw [Prog.run_bind_some run, if_neg (not_not.mpr memory)]
      exact global _ (below _) t before
  · exact global _ (below _) s start'

/-- An allocation through the slot stays in its own tree or goes to one that is not reserved. -/
theorem getBySlot_isolated (row : RowOrHuge order) (few : n < K.treesLen) :
    ∃ r s', Prog.run (UpOp.exec K) (getBySlot K n i ⟨order, cls, Option.some i⟩) s =
      Option.some (r, s') ∧ r.error = .ok ∧
      ((s.upper.slots cls i).present = true ∧ r.frame / 4096 = heldTree s.upper cls i ∨
        r.frame / 4096 < K.treesLen ∧ (s.upper.trees (r.frame / 4096)).reserved = false) := by
  have wanted : Wanted (pristinePromise standard) (words fits) cls order (Option.some i) none :=
    ⟨row, (fun j same => by cases same; exact has), (fun _ none => nomatch none), False.elim⟩
  have safe : (upperAccounting (pristinePromise standard) (words fits)).Ok
      (getLocal cls i order none true) 0 (GotLocal (pristinePromise standard) cls order none) :=
    safe_getLocal fits wanted
  have books : Sound (pristinePromise standard) (words fits) s (0 + 0) := by rwa [add_zero]
  obtain ⟨⟨r, out⟩, t, y, own, ⟨got, out_lt⟩, sound'⟩ := run_safe safe books
  rw [getBySlot, Prog.run_bind_some own]
  dsimp only at got out_lt ⊢
  rcases (getLocal_settled sound.good row has (sound.slots cls i has) own :) with
    ⟨ok, present, here⟩ | ⟨memory, alike⟩
  · rw [if_pos (by simp [show r.error = .ok from ok])]
    exact ⟨r, t, rfl, ok, Or.inl ⟨present, here⟩⟩
  · -- the own slot missed, and the search starts from a state in which the tree is still free
    obtain rfl := got.none (by simp [show r.error = .memory from memory])
    rw [if_neg (not_not.mpr memory)]
    have start : out.getD (K.treesLen / n * i) < K.treesLen := by
      cases out with
      | none => exact start_lt (by omega) (classed.index has)
      | some t => exact out_lt t rfl
    obtain ⟨r', t', found, ok, below, idle⟩ := search_isolated some classed
      (by rwa [add_zero] at sound') (plenty.alike alike) has row start
    refine ⟨r', t', found, ok, Or.inr ⟨below, ?_⟩⟩
    rw [← alike.reserved]
    exact idle

end Search

/-! ## Runs -/

/-- While some tree is entirely free and not reserved, an allocation through a slot succeeds, in the
tree of this slot or in one that no slot holds. -/
theorem slot_isolated {n : Nat} (some : 1 ≤ n) (few : n < K.treesLen) (classed : Classed K n)
    (fits : Fits K) (init : Initialised K .free s) {out : Set Nat}
    (run : History K FrameCall ∅ s out s') (plenty : Plenty s' e) (row : RowOrHuge order)
    (has : K.HasSlot cls i) :
    ∃ r s'', (Call.get none ⟨order, cls, Option.some i⟩).run K s' =
      Option.some (Option.some r, s'') ∧ r.error = .ok ∧
      ((s'.upper.slots cls i).present = true ∧ r.frame / treeSize = heldTree s'.upper cls i ∨
        ∀ c j, K.HasSlot c j → (s'.upper.slots c j).present = true →
          heldTree s'.upper c j ≠ r.frame / treeSize) := by
  have standard : Standard K := ⟨n, some, classed⟩
  have sound := pristine_reached standard fits init run
  have cons : Consistent K.frames s'.lower := sound.good
  have inside := plenty.inside cons
  have count := (classed.highest has).2
  have less := classed.index has
  have valid : validateRequest K ⟨order, cls, Option.some i⟩ none = true := by
    have small : 2 ^ order ≤ 2 ^ 12 := Nat.pow_le_pow_right (by decide) (rowOrHuge_small order row)
    have last := plenty.last cons
    have enough : 2 ^ order ≤ K.frames := by
      simp only [treeSize] at last
      omega
    apply valid_of_checked
    refine ⟨rowOrHuge_small order row, by simp [count], ?_, enough, ?_⟩
    · rintro _ ⟨⟩
      exact has
    · rintro _ ⟨⟩
  obtain ⟨r, t, found, ok, place⟩ := getBySlot_isolated some classed sound plenty has row few
  refine ⟨r, t, ?_, ok, place.imp_right ?_⟩
  · have search : Prog.run (UpOp.exec K) (getSearch K ⟨order, cls, Option.some i⟩) s' =
        Option.some (r, t) := by
      simp only [getSearch, count, Option.getD_some]
      rw [if_pos ⟨Nat.ne_of_gt some, few⟩]
      exact found
    rw [Call.run, Call.prog, llfreeGet, if_neg (by simp [valid])]
    rw [Prog.run_bind, Prog.run_bind_some search, if_pos (by simp [ok])]
    rfl
  · rintro ⟨below, idle⟩ c j has' present here
    have member : (c, j) ∈ holders K s'.upper (r.frame / 4096) :=
      mem_holders.mpr ⟨has', present, here⟩
    rw [idle_holders sound below idle] at member
    exact absurd member (Finset.notMem_empty _)

def oneHuge : Llfree Lower :=
  (Call.get none ⟨9, 1, some 0⟩).after twoWhole (initZeroed twoWhole .free)

private theorem oneHuge_reached :
    History twoWhole FrameCall ∅ (initZeroed twoWhole .free) (∅ ∪ blockSet 0 9) oneHuge :=
  .call (.get none ⟨9, 1, some 0⟩) (.start ∅ _) (Call.run_after (by decide +kernel))
    (.get ∅ _ none ⟨9, 1, some 0⟩ (llfreeOk 0 1) (Or.inr rfl))

-- the slot has taken the first tree and left the second one alone
private theorem oneHuge_plenty : Plenty oneHuge 1 := by
  have sound := pristine_reached ⟨1, le_refl 1, Or.inl rfl⟩ (by decide)
    (initZeroed_initialised (by decide)) oneHuge_reached
  have cons : Consistent twoWhole.frames oneHuge.lower := sound.good
  have full : treeFree (freeSet oneHuge.lower) 1 = 4096 := by
    rw [← groupFree_eq cons (by decide : 1 < divCeil 8192 4096)]
    decide +kernel
  exact ⟨by decide +kernel, fun g here => treeFree_full full here⟩

/-- An allocation through the other slot leaves the tree of the huge frame alone. -/
theorem slot_isolated_beside : ∃ r s, (Call.get none ⟨0, 0, some 0⟩).run twoWhole oneHuge =
    some (some r, s) ∧ r.error = .ok ∧ (oneHuge.upper.slots 1 0).present = true ∧
      heldTree oneHuge.upper 1 0 ≠ r.frame / treeSize := by
  obtain ⟨r, s, run, ok, place⟩ := slot_isolated (le_refl 1) (by decide) (Or.inl rfl) (by decide)
    (initZeroed_initialised (by decide)) oneHuge_reached oneHuge_plenty
    (Or.inl (by decide) : RowOrHuge 0) (by decide : twoWhole.HasSlot 0 0)
  have holds : (oneHuge.upper.slots 1 0).present = true := by decide +kernel
  have empty : (oneHuge.upper.slots 0 0).present = false := by decide +kernel
  refine ⟨r, s, run, ok, holds, place.resolve_left ?_ 1 0 (by decide) holds⟩
  rw [empty]
  simp

end LLFree.Upper.Isolation

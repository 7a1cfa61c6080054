/- module: LLFree/Layout/Resumption
   digest: A recovery cut off after any access, and the recovery from what it leaves. -/

import LLFree.Layout.Loops
import LLFree.Lower.Holding

set_option autoImplicit false
set_option relaxedAutoImplicit false

namespace LLFree.Layout.Resumption

open LLFree.Atomic.Program LLFree.Atomic.Loops LLFree.Code.Types LLFree.Code.Entries
open LLFree.Code.Lower LLFree.Code.Layout LLFree.Code.Accesses LLFree.Layout.Buffers
open LLFree.Layout.Loops LLFree.Lower.Holding LLFree.Words.Lanes

variable {α : Type} {frames : Nat} {l s s' : Lower}

def Alike (l s : Lower) : Prop := lowerRecover s = lowerRecover l

theorem alike_of {l s : Lower} (frames : s.frames = l.frames)
    (huge : ∀ i, i < l.childCount → (s.children i).huge = (l.children i).huge)
    (others : ∀ i, ¬i < l.childCount → s.children i = l.children i)
    (rows : ∀ r, ¬(r / fieldN < l.childCount ∧ (l.children (r / fieldN)).huge = true) →
      s.rows r = l.rows r) : Alike l s := by
  have count : s.childCount = l.childCount := by rw [Lower.childCount, frames]; rfl
  simp only [Alike, lowerRecover, Lower.mk.injEq, count]
  refine ⟨frames, funext fun i => ?_, funext fun r => ?_⟩
  · by_cases inside : i < l.childCount
    · simp only [if_pos inside, huge i inside]
      split_ifs with kind
      · rfl
      · have same : fieldCountOnes s i = fieldCountOnes l i := by
          unfold fieldCountOnes
          refine congrArg List.sum (List.map_congr_left fun r few => ?_)
          have place : (i * fieldN + r) / fieldN = i := by
            have less := List.mem_range.mp few
            simp only [fieldN] at less ⊢
            omega
          rw [rows _ (by rw [place]; exact fun both => kind both.2)]
        rw [same]
    · simp only [if_neg inside, others i inside]
  · by_cases kind : r / fieldN < l.childCount ∧ (l.children (r / fieldN)).huge = true
    · rw [if_pos kind, if_pos ⟨kind.1, (huge _ kind.1).trans kind.2⟩]
    · rw [if_neg kind, if_neg ?_, rows r kind]
      intro both
      exact kind ⟨both.1, (huge _ both.1).symm.trans both.2⟩

/-! ## The loop -/

/-- The program ends with `a` and the words of `s'`, stays within the buffer, and each access finds
words that are recovered like those of `l`. -/
abbrev Recovers (frames : Nat) (l : Lower) (p : BufferProg α) (s : Lower) (a : α) (s' : Lower) :
    Prop :=
  Completes BufferOp.exec (fun o s => o.InPlace frames ∧ Alike l s) p s a s'

def recoverEntry (l : Lower) (i : Nat) : Child :=
  if (l.children i).huge then childNew 0 true else childNew (childSize - fieldCountOnes l i) false

/-- The words after the first `k` turns of the loop of `lower_recover`. -/
def recovered (l : Lower) (k : Nat) : Lower :=
  { l with
    children := fun i => if i < k then recoverEntry l i else l.children i
    rows := fun r => if r / fieldN < k ∧ (l.children (r / fieldN)).huge then 0#64 else l.rows r }

theorem recoverEntry_huge (l : Lower) (i : Nat) :
    (recoverEntry l i).huge = (l.children i).huge := by
  unfold recoverEntry
  cases kind : (l.children i).huge <;> rfl

-- The words in the middle of turn `k`, with `m` rows cleared.
private def midTurn (l : Lower) (k m : Nat) : Lower :=
  filled ((recovered l k).setChild k (recoverEntry l k)) k (fun _ => 0#64) m

private theorem alike_midTurn {k m : Nat} (inside : k < l.childCount)
    (kind : (l.children k).huge = true ∨ m = 0) : Alike l (midTurn l k m) := by
  refine alike_of rfl (fun i _ => ?_) (fun i past => ?_) fun r other => ?_
  · simp only [midTurn, filled, Lower.setChild, recovered, Function.update_apply]
    split_ifs with here
    · rw [here, recoverEntry_huge]
    · exact recoverEntry_huge l i
    · rfl
  · simp only [midTurn, filled, Lower.setChild, recovered, Function.update_apply]
    rw [if_neg (by omega), if_neg (by omega)]
  · simp only [midTurn, filled, Lower.setChild, recovered]
    rw [if_neg, if_neg fun both => other ⟨by omega, both.2⟩]
    rintro ⟨here, few⟩
    rcases kind with huge | none
    · exact other ⟨by omega, by rw [here, huge]⟩
    · omega

private theorem alike_recovered {k : Nat} (inside : k ≤ l.childCount) :
    Alike l (recovered l k) := by
  refine alike_of rfl (fun i _ => ?_) (fun i past => ?_) fun r other => ?_
  · simp only [recovered]
    split_ifs
    · exact recoverEntry_huge l i
    · rfl
  · simp only [recovered]
    rw [if_neg (by omega)]
  · simp only [recovered]
    rw [if_neg fun both => other ⟨by omega, both.2⟩]

private theorem midTurn_last (l : Lower) (k : Nat) {m : Nat}
    (last : if (l.children k).huge then m = fieldN else m = 0) :
    midTurn l k m = recovered l (k + 1) := by
  simp only [midTurn, filled, recovered, Lower.setChild, Lower.mk.injEq, true_and]
  constructor
  · funext i
    rw [Function.update_apply]
    by_cases here : i = k
    · rw [if_pos here, if_pos (by omega), here]
    · have same : i < k ↔ i < k + 1 := by omega
      simp only [if_neg here, same]
  · funext r
    have few : r % fieldN < fieldN := Nat.mod_lt _ (by decide)
    by_cases here : r / fieldN = k
    · rw [here]
      split_ifs at last with huge
      · subst last
        simp [few, huge]
      · subst last
        simp [huge]
    · have same : r / fieldN < k ↔ r / fieldN < k + 1 := by omega
      simp [here, same]

section Access

variable {i field row : Nat}

private theorem recovers_ptr (inside : i < childrenCount frames * treeChildren) :
    Recovers frames l (childPtr frames i) s (i / treeChildren, i % treeChildren) s := by
  rw [← entries_eq] at inside
  exact completes_bind (completes_assert inside s) (completes_ret _ _)

private theorem recovers_loadChild (inside : i < childrenCount frames * treeChildren)
    (alike : Alike l s) :
    Recovers frames l (loadChild (i / treeChildren, i % treeChildren)) s (s.children i) s := by
  have place := child_inPlace (Nat.div_lt_of_lt_mul (by rwa [Nat.mul_comm]))
    (Nat.mod_lt i (by decide : 0 < treeChildren))
  have load : Recovers frames l (loadChild (i / treeChildren, i % treeChildren)) s _ s :=
    completes_step rfl ⟨place, alike⟩ (completes_ret _ _)
  rwa [Nat.div_add_mod'] at load

private theorem recovers_storeChild (inside : i < childrenCount frames * treeChildren)
    (alike : Alike l s) (child : Child) :
    Recovers frames l (storeChild (i / treeChildren, i % treeChildren) child) s ()
      (s.setChild i child) := by
  have place := child_inPlace (Nat.div_lt_of_lt_mul (by rwa [Nat.mul_comm]))
    (Nat.mod_lt i (by decide : 0 < treeChildren))
  have store : Recovers frames l (storeChild (i / treeChildren, i % treeChildren) child) s () _ :=
    completes_step rfl ⟨place, alike⟩ (completes_ret _ _)
  rwa [Nat.div_add_mod'] at store

private theorem recovers_fieldInit (inside : field < childCount frames)
    (alike : ∀ m, m < fieldN → Alike l (filled s field (fun _ => 0#64) m)) :
    Recovers frames l (fieldInitLoop field) s () (filled s field (fun _ => 0#64) fieldN) := by
  have loop : Recovers frames l (fieldInitLoop field) (filled s field (fun _ => 0#64) 0) ()
      (filled s field (fun _ => 0#64) (0 + fieldN)) := by
    refine completes_each 0 fieldN fun m _ few => ?_
    rw [Nat.zero_add] at few
    rw [← filled_succ s field _ few]
    exact completes_step rfl ⟨row_inPlace inside few, alike m few⟩ (completes_ret _ _)
  rwa [filled_zero] at loop

private theorem recovers_countOnes (inside : field < childCount frames) (alike : Alike l s) :
    Recovers frames l (fieldCountOnesLoop field) s (fieldCountOnes s field) s := by
  let sum := fun m => ((List.range m).map fun r => ones (s.rows (field * fieldN + r))).sum
  have loop : Recovers frames l ((List.range' 0 fieldN).foldlM (fun counter i => do
      let row ← loadRow field i
      return counter + ones row) (sum 0)) s (sum (0 + fieldN)) s := by
    refine completes_fold sum 0 fieldN fun m _ few => ?_
    have next : sum (m + 1) = sum m + ones (s.rows (field * fieldN + m)) := by
      simp [sum, List.range_succ]
    rw [Nat.zero_add] at few
    rw [next]
    exact completes_bind (completes_step rfl ⟨row_inPlace inside few, alike⟩ (completes_ret _ _))
      (completes_ret _ _)
  rw [Nat.zero_add] at loop
  exact completes_bind loop (completes_bind
    (completes_assert (fieldCountOnes_le s field) s) (completes_ret _ _))

end Access

private theorem countOnes_recovered (l : Lower) (k : Nat) :
    fieldCountOnes (recovered l k) k = fieldCountOnes l k := by
  unfold fieldCountOnes
  refine congrArg List.sum (List.map_congr_left fun r few => ?_)
  have place : ¬(k * fieldN + r) / fieldN < k := by
    simp only [fieldN]
    omega
  simp only [recovered]
  rw [if_neg fun both => place both.1]

private theorem recovers_child (accepted : l.frames ≤ maxPages) {k : Nat}
    (inside : k < l.childCount) :
    Recovers l.frames l (recoverChild l.frames k) (recovered l k) () (recovered l (k + 1)) := by
  have field : k < childCount l.frames := by rwa [childCount_model accepted]
  have child := field.trans_le (childCount_le accepted)
  have here : (recovered l k).children k = l.children k := if_neg (Nat.lt_irrefl k)
  have start := alike_recovered (l := l) inside.le
  refine completes_bind (recovers_ptr child) (completes_bind (recovers_loadChild child start) ?_)
  rw [here]
  have stored := recovers_storeChild (l := l) child start (recoverEntry l k)
  cases kind : (l.children k).huge with
  | true =>
    have entry : recoverEntry l k = childNew 0 true := if_pos kind
    rw [entry] at stored
    rw [if_pos rfl, ← midTurn_last l k (m := fieldN) (by rw [if_pos kind]), midTurn, entry]
    refine completes_bind (recovers_ptr child) (completes_bind stored ?_)
    refine recovers_fieldInit field fun m few => ?_
    rw [← entry]
    exact alike_midTurn inside (Or.inl kind)
  | false =>
    have entry : recoverEntry l k =
        childNew (childSize - fieldCountOnes (recovered l k) k) false := by
      rw [recoverEntry, if_neg (by simp [kind]), countOnes_recovered]
    rw [if_neg (by simp), ← midTurn_last l k (m := 0) (by simp [kind]), midTurn, filled_zero, entry]
    rw [entry] at stored
    exact completes_bind (recovers_countOnes field start)
      (completes_bind (recovers_ptr child) stored)

/-- `lower_recover` recovers the words, stays within the buffer, and each of its accesses finds
words that are recovered alike. -/
theorem recovers_loop (accepted : l.frames ≤ maxPages) :
    Recovers l.frames l (lowerRecoverLoop l.frames) l () (lowerRecover l) := by
  have first : recovered l 0 = l := by simp [recovered]
  have last : recovered l (0 + childCount l.frames) = lowerRecover l := by
    rw [Nat.zero_add, childCount_model accepted]
    rfl
  have loop : Recovers l.frames l (lowerRecoverLoop l.frames) (recovered l 0) ()
      (recovered l (0 + childCount l.frames)) :=
    completes_each 0 _ fun k _ few => recovers_child accepted (by
      rwa [Nat.zero_add, childCount_model accepted] at few)
  rwa [first, last] at loop

theorem runs_lowerRecover (accepted : l.frames ≤ maxPages) :
    Runs l.frames (lowerRecoverLoop l.frames) l () (lowerRecover l) := by
  obtain ⟨run, along⟩ := recovers_loop accepted
  exact ⟨run, Prog.along_mono along fun o s both => both.1⟩

/-! ## Recoveries that are cut off -/

def cutRecovery (n : Nat) (l : Lower) : Lower :=
  (Prog.runFor BufferOp.exec n (lowerRecoverLoop l.frames) l).2

private theorem alike_cut (accepted : l.frames ≤ maxPages) (n : Nat) : Alike l (cutRecovery n l) :=
  runFor_along (J := Alike l) (fun _ _ both => both.2) (recovers_loop accepted) rfl
    (alike_recovered (l := l) (k := l.childCount) (Nat.le_refl _)) n

private theorem cutRecovery_frames (accepted : l.frames ≤ maxPages) (n : Nat) :
    (cutRecovery n l).frames = l.frames := by
  have alike : lowerRecover (cutRecovery n l) = lowerRecover l := alike_cut accepted n
  have frames : (lowerRecover (cutRecovery n l)).frames = (lowerRecover l).frames := by rw [alike]
  exact frames

def cutRecoveries (cuts : List Nat) (l : Lower) : Lower := cuts.foldl (fun l n => cutRecovery n l) l

theorem cutRecoveries_alike (accepted : l.frames ≤ maxPages) (cuts : List Nat) :
    (cutRecoveries cuts l).frames = l.frames ∧
      lowerRecover (cutRecoveries cuts l) = lowerRecover l := by
  induction cuts generalizing l with
  | nil => exact ⟨rfl, rfl⟩
  | cons n cuts ih =>
    have same := cutRecovery_frames accepted n
    obtain ⟨frames, alike⟩ := ih (l := cutRecovery n l) (by rwa [same])
    exact ⟨frames.trans same, alike.trans (alike_cut accepted n)⟩

end LLFree.Layout.Resumption

/- module: LLFree/Upper/Scarcity
   digest: An allocation of one frame fails only when every free frame is counted in a tree that a
   slot holds. -/

import LLFree.Upper.Fallbacks
import LLFree.Upper.Restored
import LLFree.Upper.Searches

set_option autoImplicit false
set_option relaxedAutoImplicit false

namespace LLFree.Upper.Scarcity

open LLFree.Atomic.Program LLFree.Code.Types LLFree.Code.Entries LLFree.Code.Lower
open LLFree.Code.Trees LLFree.Code.Local LLFree.Code.Shared LLFree.Code.Llfree
open LLFree.Lower.GetPut LLFree.Lower.Quiet LLFree.Lower.FreeCount LLFree.Lower.Statistics
open LLFree.Lower.Search LLFree.Upper.Ledger LLFree.Upper.Slots LLFree.Upper.Steps
open LLFree.Upper.Calls
open LLFree.Upper.Sequential LLFree.Upper.Balance LLFree.Upper.Attempts LLFree.Upper.Fallbacks
open LLFree.Upper.LocalPath LLFree.Upper.Restored LLFree.Upper.Searches

variable {K : Config} {fits : Fits K} {s s' : Llfree Lower} {l : Lower} {u : Upper}
  {t cls i : Nat} {slot : Option Nat}

/-! ## Classings that serve every class -/

/-- The classes are numbered and have slots, and no answer of the policy is invalid. -/
structure Ordinary (K : Config) : Prop where
  ids : (K.classing.classes.map Prod.fst).Perm (List.range K.numClasses)
  slots : ∀ p ∈ K.classing.classes, p.2 ≠ 0
  valid : ∀ c d n, (K.policy c d n).type ≠ .invalid

/-- Moreover the default class is one of them, and the highest priority comes with a match alone. -/
structure Serving (K : Config) : Prop extends Ordinary K where
  default : K.defaultClass < K.numClasses
  graded : ∀ c d n, (K.policy c d n).priority = 255 → (K.policy c d n).type = .match

theorem Serving.numbered (serving : Serving K) : Numbered K := ⟨serving.ids, serving.default⟩

theorem Serving.count (serving : Serving K) (small : K.numClasses ≤ maxClasses)
    (known : cls < K.numClasses) : (K.locals cls).getD 0 ≠ 0 := by
  have member : cls ∈ K.classing.classes.map Prod.fst :=
    serving.ids.mem_iff.mpr (List.mem_range.mpr known)
  have locals : K.locals cls = K.classing.classes.reverse.lookup cls := by
    rw [Config.locals, classLocals, if_neg (by omega)]
  have found : K.locals cls ≠ none := by
    rw [locals, ne_eq, List.lookup_eq_none_iff]
    intro absent
    obtain ⟨p, in_, rfl⟩ := List.mem_map.mp member
    have other := absent p (List.mem_reverse.mpr in_)
    simp at other
  obtain ⟨count, same⟩ := Option.ne_none_iff_exists'.mp found
  rw [same]
  rintro rfl
  rw [locals] at same
  obtain ⟨pre, post, split, -⟩ := List.lookup_eq_some_iff.mp same
  exact serving.slots (cls, 0) (List.mem_reverse.mp (split ▸ by simp)) rfl

theorem Standard.serving (standard : Standard K) : Serving K := by
  refine ⟨⟨standard.numbered.ids, ?_, ByClass.never_invalid standard.byClass⟩,
    standard.numbered.default, fun c d m high => ?_⟩
  · obtain ⟨n, some, same | same⟩ := standard
    · rw [same]
      intro p member
      simp only [llfreeClassingSimple, List.mem_cons, List.not_mem_nil, or_false] at member
      rcases member with rfl | rfl <;> exact Nat.ne_of_gt some
    · rw [same]
      intro p member
      simp only [llfreeClassingMovable, List.mem_cons, List.not_mem_nil, or_false] at member
      rcases member with rfl | rfl | rfl <;> exact Nat.ne_of_gt some
  · obtain ⟨n, -, same | same⟩ := standard
    · rw [Config.policy, same] at high ⊢
      simp only [llfreeClassingSimple, llfreeSimplePolicy] at high ⊢
      split_ifs at high ⊢ <;> first | rfl | cases high
    · rw [Config.policy, same] at high ⊢
      simp only [llfreeClassingMovable, llfreeMovablePolicy] at high ⊢
      split_ifs at high ⊢ <;> first | rfl | cases high

/-! ## Where the free frames are -/

/-- No frame is counted where the call looks: not in a tree that is not reserved, not in a slot, and
at most one in the tree of the slot that the call goes through. -/
structure Exhausted (K : Config) (cls : Nat) (slot : Option Nat) (s : Llfree Lower) : Prop where
  trees : ∀ t < K.treesLen, (s.upper.trees t).reserved = false → (s.upper.trees t).free = 0
  slots : ∀ c i, K.HasSlot c i → (s.upper.slots c i).present = true → (s.upper.slots c i).free = 0
  own : ∀ i, slot = some i → (K.locals cls).getD 0 < K.treesLen →
    (s.upper.slots cls i).present = true → (s.upper.trees (heldTree s.upper cls i)).free ≤ 1

section Frames

variable (cons : Consistent K.frames l)
include cons

theorem block_of_counter (inside : t < K.treesLen) (some : 0 < groupFree l (t * 8)) :
    ∃ f, Valid K.frames f 0 ∧ f / 4096 = t ∧ FreeBlock l f 0 := by
  rw [groupFree_eq cons inside] at some
  have free : ∃ f, IsFree l f ∧ f / 4096 = t := by
    by_contra none
    push Not at none
    have zero := treeFree_eq_zero.mpr none
    exact absurd zero (Nat.ne_of_gt some)
  obtain ⟨f, free, here⟩ := free
  have below : f < K.frames := by
    by_contra beyond
    exact cons.tail f (Nat.le_of_not_lt beyond) free
  refine ⟨f, ⟨below, one_dvd f⟩, here, one_dvd f, fun g within => ?_⟩
  obtain rfl : g = f := Nat.le_antisymm (Nat.lt_succ_iff.mp within.2) within.1
  exact free

end Frames

section Search

variable {numbered : Numbered K} (sound : Sound (numberedPromise numbered) (words fits) ⟨l, u⟩ 0)
include sound

theorem block_of_tree (inside : t < K.treesLen) (some : 0 < (u.trees t).free) :
    ∃ f, Valid K.frames f 0 ∧ f / 4096 = t ∧ FreeBlock l f 0 := by
  have balance := (accounted_of_sound sound trivial).balance t inside
  dsimp only [treeChildren] at balance
  exact block_of_counter sound.good inside (by omega)

theorem block_of_slot (has : K.HasSlot cls i) (present : (u.slots cls i).present = true)
    (some : 0 < (u.slots cls i).free + (u.trees (heldTree u cls i)).free) :
    BlockInTree K cls i 0 ⟨l, u⟩ := by
  have accounted := accounted_of_sound sound trivial
  have inside : heldTree u cls i < K.treesLen := (accounted.rows cls i has present).1
  have balance := accounted.balance _ inside
  have member : (cls, i) ∈ holders K u (heldTree u cls i) := mem_holders.mpr ⟨has, present, rfl⟩
  have part := Finset.add_sum_erase _ (fun p : Nat × Nat => (u.slots p.1 p.2).free) member
  dsimp only [treeChildren] at balance part
  have pos : 0 < groupFree l (heldTree u cls i * 8) := by omega
  exact block_of_counter sound.good inside pos

/-! ## Attempts -/

def Counts (u : Upper) (t : Nat) : Prop := (u.trees t).reserved = false ∧ 1 ≤ (u.trees t).free

variable (serving : Serving K) (small : K.numClasses ≤ maxClasses)
include serving small

theorem counts_serves (known : cls < K.numClasses) (inside : t < K.treesLen) (counts : Counts u t) :
    Serves K 0 cls ⟨l, u⟩ t :=
  ⟨counts.1, counts.2, serving.valid _ _ _, serving.count small known,
    serving.count small ((accounted_of_sound sound trivial).classes t inside),
    block_of_tree sound inside counts.2⟩

private theorem reserve_settles (known : cls < K.numClasses) :
    Settles K (reserveOrStealCb K 0 cls i) (· = ⟨l, u⟩) (Counts u) fun _ r _ => r.error = .ok := by
  rintro idx inside _ rfl
  cases step : treeReserveOrSteal (u.trees idx) (2 ^ 0) K.policy cls with
  | none =>
    refine ⟨llfreeErr .memory, ⟨l, u⟩, ?_, Or.inl ⟨rfl, rfl, ?_⟩⟩
    · simp only [reserveOrStealCb, treesReserveOrSteal, Prog.step_bind, Prog.ret_bind, Prog.pure_eq]
      rw [run_table (by simp only [TableOp.exec, if_pos inside, step]; rfl)]
      rfl
    · rintro ⟨idle, enough⟩
      rcases reserveOrSteal_none step with reserved | few | invalid
      · rw [idle] at reserved
        cases reserved
      · exact absurd enough (Nat.not_le_of_lt few)
      · exact serving.valid _ _ _ invalid
  | some x =>
    obtain ⟨tree', reserved, target⟩ := x
    obtain ⟨idle, enough, -⟩ := reserveOrSteal_some step
    have wanted : Wanted (numberedPromise numbered) (words fits) cls 0 none none := by
      refine ⟨Or.inl (Nat.zero_le 6), ?_, ?_, fun _ => known⟩
      · rintro _ ⟨⟩
      · rintro _ ⟨⟩
    have books : Sound (numberedPromise numbered) (words fits) ⟨l, u⟩ (0 + 0) := by rwa [add_zero]
    obtain ⟨r, t', y, run, -, -⟩ :=
      run_safe (safe_reserveOrStealCb (i := i) fits wanted inside) books
    refine ⟨r, t', run, Or.inr ?_⟩
    rcases reserveOrSteal_outcome sound.good (Or.inl (Nat.zero_le 6)) inside run with
      ⟨ok, -⟩ | ⟨-, -, vain⟩
    · exact ⟨by simp [ok], ok⟩
    · exact absurd (counts_serves sound serving small known inside ⟨idle, enough⟩) vain

omit small in
private theorem steal_settles :
    Settles K (stealCb 0 cls) (· = ⟨l, u⟩) (Counts u) fun _ r _ => r.error = .ok := by
  rintro idx inside _ rfl
  simp only [stealCb, treesSteal, lowerGetStep, Prog.step_bind, Prog.ret_bind, Prog.pure_eq]
  by_cases enough : 2 ^ 0 ≤ (u.trees idx).free
  · obtain ⟨tree', c, step⟩ := treeSteal_some enough (serving.valid cls _ _)
    rw [run_table (by simp only [TableOp.exec, if_pos inside, step]; rfl)]
    dsimp only
    rcases lower_tree sound.good (Or.inl (Nat.zero_le 6)) inside with ⟨f, l', get, -⟩ | ⟨-, absent⟩
    · rw [run_lower (c := .get _ 0 none) get, if_pos (llfreeOk_error f 0)]
      exact ⟨_, _, rfl, Or.inr ⟨by simp, rfl⟩⟩
    · obtain ⟨f, valid, here, free⟩ := block_of_tree sound inside enough
      exact absurd free (absent f valid here)
  · have step : treeSteal (u.trees idx) (2 ^ 0) cls K.policy = none :=
      if_pos (Nat.lt_of_not_le enough)
    rw [run_table (by simp only [TableOp.exec, if_pos inside, step]; rfl)]
    exact ⟨_, _, rfl, Or.inl ⟨rfl, rfl, fun counts => enough counts.2⟩⟩

/-! ## The search over the trees -/

omit serving small in
theorem run_getLocal_any (has : K.HasSlot cls i) :
    ∃ r out s', Prog.run (UpOp.exec K) (getLocal cls i 0 none true) ⟨l, u⟩ = some ((r, out), s') ∧
      (r.error = .ok ∨ r.error = .memory ∧ s' = ⟨l, u⟩ ∧ (∀ t, out = some t → t < K.treesLen) ∧
        ((u.slots cls i).present = true → (u.trees (heldTree u cls i)).free ≤ 1)) := by
  have ok := sound.slots cls i has
  cases present : (u.slots cls i).present with
  | false =>
    have refuses : ¬ Holds (u.slots cls i) (none.map treeFromFrame) (2 ^ 0) := by
      intro holds
      have := holds.present
      rw [present] at this
      cases this
    refine ⟨llfreeErr .memory, none, ⟨l, u⟩, ?_, Or.inr ⟨rfl, rfl, nofun, nofun⟩⟩
    rw [getLocal, run_getLocalWith_miss has refuses, if_neg (by simp [makeResult, present])]
    simp [localMiss, makeResult, present]
  | true =>
    have accounted := accounted_of_sound sound trivial
    obtain ⟨reserved, room⟩ := accounted.slot has present
    by_cases usable : Usable cls i 0 u
    · have block : BlockInTree K cls i 0 ⟨l, u⟩ := by
        apply block_of_slot sound has present
        rcases usable with enough | ⟨-, above, -⟩ <;> omega
      obtain ⟨r, out, s', run, good, -⟩ :=
        (serves_iff sound.good has ok present (Or.inl (Nat.zero_le 6)) block).mpr usable
      exact ⟨r, out, s', run, Or.inl good⟩
    · have few : (u.slots cls i).free < 2 ^ 0 := by
        by_contra enough
        exact usable (Or.inl (Nat.le_of_not_lt enough))
      have short : ¬ Covers u cls i (2 ^ 0) := by
        rintro ⟨-, above⟩
        exact usable (Or.inr ⟨reserved, by simp only [heldTree] at *; omega, room⟩)
      refine ⟨llfreeErr .memory, some (heldTree u cls i), ⟨l, u⟩, ?_,
        Or.inr ⟨rfl, rfl, ?_, fun _ => ?_⟩⟩
      · rw [run_getLocal_miss has present (fun holds => absurd holds.enough (by omega))
          (run_sync_refused present (ok.tree present) few short), if_neg (by simp)]
        simp [localMiss, makeResult, present, heldTree]
      · rintro _ ⟨⟩
        exact ok.tree present
      · by_contra more
        exact usable (Or.inr ⟨reserved, by omega, room⟩)

structure Rates (rate : Nat → Nat → Policy) : Prop where
  valid : ∀ c free, (rate c free).type ≠ .invalid ↔ 1 ≤ free
  graded : ∀ c free, (rate c free).priority = 255 → 1 ≤ free → (rate c free).type = .match

omit sound small in
theorem rates_reserve : Rates (rateReserveGlobalTree K cls (2 ^ 0)) := by
  refine ⟨fun c free => ?_, fun c free high enough => ?_⟩
  · by_cases few : free < 2 ^ 0
    · rw [rateReserveGlobalTree, if_pos few]
      exact iff_of_false (not_not.mpr rfl) (Nat.not_le_of_lt few)
    · rw [rateReserveGlobalTree, if_neg few]
      refine iff_of_true ?_ (Nat.le_of_not_lt few)
      dsimp only
      split_ifs
      · simp
      · simp
      · exact serving.valid cls c free
  · rw [rateReserveGlobalTree, if_neg (show ¬ free < 2 ^ 0 from Nat.not_lt_of_le enough)] at high ⊢
    dsimp only at high ⊢
    split_ifs at high ⊢
    · rfl
    · rfl
    · exact serving.graded cls c free high

omit sound small in
theorem rates_global : Rates (rateGlobalTree K cls (2 ^ 0)) := by
  refine ⟨fun c free => ?_, fun c free high enough => ?_⟩
  · by_cases few : free < 2 ^ 0
    · rw [rateGlobalTree, if_pos few]
      exact iff_of_false (not_not.mpr rfl) (Nat.not_le_of_lt few)
    · rw [rateGlobalTree, if_neg few]
      exact iff_of_true (serving.valid cls c free) (Nat.le_of_not_lt few)
  · rw [rateGlobalTree, if_neg (show ¬ free < 2 ^ 0 from Nat.not_lt_of_le enough)] at high ⊢
    exact serving.graded cls c free high

omit sound serving small in
/-- A search over all trees that fails has left the state alone and found nothing to count on. -/
theorem search_exhausts {cb : Nat → UpProg Result} {rate : Nat → Nat → Policy}
    (settles : Settles K cb (· = ⟨l, u⟩) (Counts u) fun _ r _ => r.error = .ok) (rates : Rates rate)
    {start : Nat} (inside : start < K.treesLen) :
    ∃ r s', Prog.run (UpOp.exec K) (treesSearchBest K start 0 K.treesLen rate cb) ⟨l, u⟩ =
      some (r, s') ∧ (r.error = .ok ∨ r.error = .memory ∧ s' = ⟨l, u⟩ ∧
        ∀ t < K.treesLen, (u.trees t).reserved = false → (u.trees t).free = 0) := by
  obtain ⟨r, s', run, ⟨-, _, -, ok⟩ | ⟨memory, same, refused⟩⟩ :=
    run_treesSearchBest settles (by omega) start 0 K.treesLen rate rfl
  · exact ⟨r, s', run, Or.inl ok⟩
  refine ⟨r, s', run, Or.inr ⟨memory, same, fun t tree idle => ?_⟩⟩
  by_contra some
  have counts : Counts u t := ⟨idle, by omega⟩
  obtain ⟨k, less, here⟩ := searchIdx_onto inside tree
  obtain ⟨_, rfl, reason⟩ := refused k (Nat.zero_le k) less
  rw [here] at reason
  rcases reason with (reserved | invalid) | failed | ⟨deferred, high | vain⟩
  · rw [idle] at reserved
    cases reserved
  · exact (rates.valid _ _).mpr counts.2 invalid
  · exact failed counts
  · exact deferred.2.2 ⟨rates.graded _ _ high counts.2, high⟩
  · -- a tree that is kept counts a frame, and no attempt on it fails
    obtain ⟨j, -, ⟨_, rfl, kept⟩, failed⟩ := vain
    exact failed ⟨kept.1, (rates.valid _ _).mp kept.2.1⟩

theorem run_searchAndReserve_any (known : cls < K.numClasses) {start : Nat}
    (inside : start < K.treesLen) :
    ∃ r s', Prog.run (UpOp.exec K) (searchAndReserve K cls i 0 start) ⟨l, u⟩ = some (r, s') ∧
      (r.error = .ok ∨ r.error = .memory ∧ s' = ⟨l, u⟩ ∧
        ∀ t < K.treesLen, (u.trees t).reserved = false → (u.trees t).free = 0) := by
  have settles := reserve_settles (i := i) sound serving small known
  have below : ∀ align, alignDown start align < K.treesLen := fun align =>
    (Nat.div_mul_le_self start align).trans_lt inside
  rw [searchAndReserve, Prog.assert_bind inside, if_pos (by decide)]
  obtain ⟨r, s', run, ⟨success, _, -, ok⟩ | ⟨memory, rfl, -⟩⟩ :=
    run_treesSearchBest settles (by omega)
    (alignDown start (nextPow2 (2 * max (K.treesLen / 16) (cacheSize / 4 / 4)))) 1
    (max (K.treesLen / 16) (cacheSize / 4 / 4)) (rateReserveNearTree K cls (2 ^ 0)) rfl
  · rw [Prog.run_bind_some run, if_pos success]
    exact ⟨r, s', rfl, Or.inl ok⟩
  · rw [Prog.run_bind_some run, if_neg (not_not.mpr memory)]
    exact search_exhausts settles (rates_reserve serving) (below _)

structure Missed (K : Config) (cls : Nat) (slot : Option Nat) (u : Upper) : Prop where
  trees : ∀ t < K.treesLen, (u.trees t).reserved = false → (u.trees t).free = 0
  own : ∀ i, slot = some i → (K.locals cls).getD 0 < K.treesLen → (u.slots cls i).present = true →
    (u.trees (heldTree u cls i)).free ≤ 1

theorem run_getBySlot_any {count : Nat} (locals : K.locals cls = some count)
    (few : count < K.treesLen) (known : cls < K.numClasses) (has : K.HasSlot cls i) :
    ∃ r s', Prog.run (UpOp.exec K) (getBySlot K count i ⟨0, cls, some i⟩) ⟨l, u⟩ = some (r, s') ∧
      (r.error = .ok ∨ r.error = .memory ∧ s' = ⟨l, u⟩ ∧ Missed K cls (some i) u) := by
  rw [getBySlot]
  obtain ⟨r, out, s', own, ok | ⟨memory, rfl, tree, empty⟩⟩ := run_getLocal_any sound has
  · rw [Prog.run_bind_some own]
    dsimp only
    rw [if_pos (by simp [ok])]
    exact ⟨r, s', rfl, Or.inl ok⟩
  · rw [Prog.run_bind_some own]
    dsimp only
    rw [if_neg (not_not.mpr memory)]
    have start : out.getD (K.treesLen / count * i) < K.treesLen := by
      cases out with
      | none => exact start_lt (by omega) (hasSlot_less has locals)
      | some t => exact tree t rfl
    obtain ⟨r', t, found, result⟩ :=
      run_searchAndReserve_any (i := i) sound serving small known start
    refine ⟨r', t, found, result.imp_right ?_⟩
    rintro ⟨memory, same, trees⟩
    refine ⟨memory, same, trees, ?_⟩
    rintro j ⟨⟩ - present
    exact empty present

theorem run_getSearch_any (pos : 0 < K.treesLen) (known : cls < K.numClasses)
    (legal : ∀ i, slot = some i → K.HasSlot cls i) :
    ∃ r s', Prog.run (UpOp.exec K) (getSearch K ⟨0, cls, slot⟩) ⟨l, u⟩ = some (r, s') ∧
      (r.error = .ok ∨ r.error = .memory ∧ s' = ⟨l, u⟩ ∧ Missed K cls slot u) := by
  have count := serving.count small known
  have global : ∀ start < K.treesLen, (∀ i, slot = some i → K.treesLen ≤ (K.locals cls).getD 0) →
      ∃ r s', Prog.run (UpOp.exec K) (treesSearchBest K start 0 K.treesLen
          (rateGlobalTree K cls (2 ^ 0)) (stealCb 0 cls)) ⟨l, u⟩ = some (r, s') ∧
        (r.error = .ok ∨ r.error = .memory ∧ s' = ⟨l, u⟩ ∧ Missed K cls slot u) := by
    intro start inside many
    obtain ⟨r, s', run, result⟩ := search_exhausts (steal_settles sound serving)
      (rates_global serving) inside
    refine ⟨r, s', run, result.imp_right ?_⟩
    rintro ⟨memory, same, trees⟩
    exact ⟨memory, same, trees, fun i taken few => absurd few (Nat.not_lt_of_le (many i taken))⟩
  cases slot with
  | none => exact global 0 pos nofun
  | some i =>
    have has := legal i rfl
    obtain ⟨len, locals⟩ := Option.ne_none_iff_exists'.mp
      (show K.locals cls ≠ none by rintro none; simp [none] at count)
    have less := hasSlot_less has locals
    simp only [getSearch, locals, Option.getD_some]
    by_cases few : len < K.treesLen
    · rw [if_pos ⟨by omega, few⟩]
      exact run_getBySlot_any sound serving small locals few known has
    · rw [if_neg (fun both => few both.2)]
      apply global
      · rw [if_pos (by omega)]
        exact start_lt pos less
      · intro _ _
        rw [locals]
        exact Nat.le_of_not_lt few

/-- An allocation of one frame succeeds, or it has found every free frame in a tree that a slot
holds. -/
theorem run_get_settled (pos : 0 < K.treesLen) (known : cls < K.numClasses)
    (legal : ∀ i, slot = some i → K.HasSlot cls i) (stays : (K.policy cls cls 1).type ≠ .demote)
    (valid : validateRequest K ⟨0, cls, slot⟩ none = true) {r : Result}
    (run : Prog.run (UpOp.exec K) (llfreeGet K none ⟨0, cls, slot⟩) ⟨l, u⟩ = some (r, s')) :
    r.error = .ok ∨ r.error = .memory ∧ Exhausted K cls slot ⟨l, u⟩ := by
  rw [llfreeGet, if_neg (by simp [valid])] at run
  obtain ⟨r', t, search, success | ⟨failed, rfl, missed⟩⟩ :=
    run_getSearch_any sound serving small pos known legal
  · rw [Prog.run_bind_some search, if_pos (by simp [success])] at run
    cases run
    exact Or.inl success
  · rw [Prog.run_bind_some search, if_neg (not_not.mpr failed)] at run
    apply (run_stealOrDemote (fun c j has holds => ?_) run).imp_right
    · rintro ⟨memory, none⟩
      refine ⟨memory, missed.trees, fun c j has present => ?_, missed.own⟩
      by_contra some
      refine none c j has (serving.valid _ _ _) (fun demote => ?_) ⟨present, ?_, ?_⟩
      · rintro rfl
        rw [Nat.mod_eq_of_lt (known.trans_le small)] at demote
        exact stays demote
      · rintro _ ⟨⟩
      · exact Nat.pos_of_ne_zero some
    · have block := block_of_slot sound has holds.present (by have := holds.enough; omega)
      obtain ⟨f, l', get, -⟩ := lower_serves sound.good
        ((sound.slots c j has).frame holds.present) (Or.inl (Nat.zero_le 6)) block
      exact ⟨f, l', get⟩

/-- An allocation of one frame that fails has found every free frame in a tree that a slot holds. -/
theorem run_get_any (pos : 0 < K.treesLen) (known : cls < K.numClasses)
    (legal : ∀ i, slot = some i → K.HasSlot cls i) (stays : (K.policy cls cls 1).type ≠ .demote)
    {r : Result}
    (run : Prog.run (UpOp.exec K) (llfreeGet K none ⟨0, cls, slot⟩) ⟨l, u⟩ = some (r, s'))
    (memory : r.error = .memory) : Exhausted K cls slot ⟨l, u⟩ := by
  by_cases valid : validateRequest K ⟨0, cls, slot⟩ none = true
  · have outcome := run_get_settled sound serving small pos known legal stays valid run
    exact (outcome.resolve_left (by simp [memory])).2
  · rw [llfreeGet, if_pos (by simpa using valid)] at run
    cases run
    cases memory

end Search

/-! ## Runs -/

theorem exhausted_stats (accounted : Accounted K s) (cons : Consistent K.frames s.lower)
    (exhausted : Exhausted K cls slot s) : (lowerStats s.lower).freeFrames =
      ∑ t ∈ Finset.range K.treesLen,
        if (s.upper.trees t).reserved then (s.upper.trees t).free else 0 := by
  rw [stats_groups cons]
  refine Finset.sum_congr rfl fun t member => ?_
  have inside := Finset.mem_range.mp member
  have balance := accounted.balance t inside
  have slots : ∑ p ∈ holders K s.upper t, (s.upper.slots p.1 p.2).free = 0 := by
    refine Finset.sum_eq_zero fun p member => ?_
    obtain ⟨has, present, -⟩ := mem_holders.mp member
    exact exhausted.slots p.1 p.2 has present
  rw [slots, add_zero] at balance
  rw [show t * 8 = t * treeChildren from rfl, ← balance]
  split_ifs with reserved
  · rfl
  · exact exhausted.trees t inside (by simpa using reserved)

/-- In every reachable state an allocation of one frame fails only when what is free is counted in
trees that slots have reserved, and in the tree of its own slot one frame at most. -/
theorem memory_exhausted {mode : InitMode} (serving : Serving K)
    (stays : (K.policy cls cls 1).type ≠ .demote) (fits : Fits K) (fresh : FreshMode mode)
    (init : Initialised K mode s) (run : History K (Anytime (AnyCall K)) () s () s')
    (configured : K.locals cls ≠ none) (legal : ∀ i, slot = some i → K.HasSlot cls i) :
    ∃ r s'', (Call.get none ⟨0, cls, slot⟩).run K s' = some (some r, s'') ∧
      (r.error = .memory → Exhausted K cls slot s' ∧ (lowerStats s'.lower).freeFrames =
        ∑ t ∈ Finset.range K.treesLen,
          if (s'.upper.trees t).reserved then (s'.upper.trees t).free else 0) := by
  have small : K.numClasses ≤ maxClasses := by
    obtain ⟨buffers, init⟩ := init
    obtain ⟨rebuilt, -⟩ := init_rebuilt init fresh.ne_none
    exact rebuilt.classes.2
  have numbered := serving.numbered
  obtain ⟨pos, sound⟩ := sound_reached numbered fits fresh init run
  have row : RowOrHuge (⟨0, cls, slot⟩ : Request).order := Or.inl (Nat.zero_le 6)
  obtain ⟨r, s'', done, -⟩ := get_forgets none (fun _ => numbered) pos sound row
  refine ⟨r, s'', done, fun memory => ?_⟩
  obtain ⟨r', t, get, same⟩ := Prog.run_bind_eq_some.mp done
  cases same
  obtain ⟨l, u⟩ := s'
  have exhausted :=
    run_get_any sound serving small pos (numbered.known configured) legal stays get memory
  exact ⟨exhausted, exhausted_stats (accounted_of_sound sound trivial) sound.good exhausted⟩

abbrev twoTrees : Config := ⟨4097, llfreeClassingSimple 1⟩

-- Slots of both classes take the two trees, and a huge frame comes back to the first.
private def cameBack : List Call :=
  List.replicate 8 (.get none ⟨9, 0, some 0⟩) ++ [.get none ⟨0, 1, some 0⟩, .put 0 ⟨9, 0, none⟩]

private theorem cameBack_legal : ∀ c ∈ cameBack, AnyCall twoTrees c := by
  intro c member
  simp only [cameBack, List.mem_append, List.mem_replicate, List.mem_cons, List.not_mem_nil,
    or_false] at member
  rcases member with ⟨-, rfl⟩ | rfl | rfl
  · exact .get _ _ (Or.inr rfl)
  · exact .get _ _ (by decide)
  · exact .put _ _ (Or.inr rfl)

/-- Where all that is free is the huge frame that came back, the call finds no frame. -/
theorem memory_exhausted_cameBack : ∃ s s' : Llfree Lower,
    History twoTrees (Anytime (AnyCall twoTrees)) () (initZeroed twoTrees .free) () s ∧
    (Call.get none ⟨0, 1, some 0⟩).run twoTrees s = some (some (llfreeErr .memory), s') ∧
    Exhausted twoTrees 1 (some 0) s ∧ (lowerStats s.lower).freeFrames = 512 := by
  have run : History twoTrees (Anytime (AnyCall twoTrees)) () (initZeroed twoTrees .free) ()
      (afterAll twoTrees cameBack (initZeroed twoTrees .free)) :=
    History.calls (.start _ _) cameBack (by decide +kernel) fun c member _ _ =>
      cameBack_legal c member
  have fails : ((Call.get none ⟨0, 1, some 0⟩).run twoTrees
      (afterAll twoTrees cameBack (initZeroed twoTrees .free))).map Prod.fst =
      some (some (llfreeErr .memory)) := by decide +kernel
  have serving : Serving twoTrees := Standard.serving ⟨1, le_refl 1, Or.inl rfl⟩
  have stays : (twoTrees.policy 1 1 1).type ≠ .demote := by decide
  have legal : ∀ i, some 0 = some i → twoTrees.HasSlot 1 i := by
    rintro i ⟨⟩
    decide
  obtain ⟨r, s', get, exhausted⟩ := memory_exhausted serving stays (by decide) (Or.inl rfl)
    (initZeroed_initialised (by decide)) run (by decide) legal
  rw [get] at fails
  obtain rfl : r = llfreeErr .memory := Option.some.inj (Option.some.inj fails)
  obtain ⟨nothing, -⟩ := exhausted rfl
  exact ⟨_, s', run, get, nothing, by decide +kernel⟩

/-! ## Frames that are not found -/

/-- An allocation of one frame through a slot of class `cls` fails with frames free. -/
def Spurious (K : Config) (cls i : Nat) : Prop :=
  ∃ s s' s'', Initialised K .free s ∧ History K (Anytime (AnyCall K)) () s () s' ∧
    K.HasSlot cls i ∧
    (Call.get none ⟨0, cls, some i⟩).run K s' = some (some (llfreeErr .memory), s'') ∧
    0 < (lowerStats s'.lower).freeFrames

private theorem spurious_after {K : Config} {cls i : Nat} (calls : List Call)
    (init : Initialised K .free (initZeroed K .free))
    (done : completes K calls (initZeroed K .free) = true) (legal : ∀ c ∈ calls, AnyCall K c)
    (has : K.HasSlot cls i)
    (fails : ((Call.get none ⟨0, cls, some i⟩).run K (afterAll K calls (initZeroed K .free))).map
      Prod.fst = some (some (llfreeErr .memory)))
    (free : 0 < (lowerStats (afterAll K calls (initZeroed K .free)).lower).freeFrames) :
    Spurious K cls i :=
  ⟨_, _, _, init, History.calls (.start _ _) calls done fun c member _ _ => legal c member, has,
    Call.run_after fails, free⟩

-- Two slots of one class, which the policy demotes onto itself.
private def onItself : Config := ⟨8193, [(0, 2)], 0, fun _ _ _ => ⟨.demote, 0⟩⟩

-- All is taken but a huge frame, which the first slot reserves.
private def firstTaken : List Call :=
  (List.range 15).map (fun i => .get (some (512 * (i + 1))) ⟨9, 0, none⟩) ++
    [.get (some 8192) ⟨0, 0, none⟩, .get none ⟨0, 0, some 0⟩]

private theorem firstTaken_legal : ∀ c ∈ firstTaken, AnyCall onItself c := by
  intro c member
  simp only [firstTaken, List.mem_append, List.mem_map, List.mem_cons, List.not_mem_nil,
    or_false] at member
  rcases member with ⟨i, -, rfl⟩ | rfl | rfl
  · exact .get _ _ (Or.inr rfl)
  · exact .get _ _ (by decide)
  · exact .get _ _ (by decide)

-- A policy that steals with the highest priority, and a default class without slots.
private def urgent : Config := ⟨4096, [(0, 1)], 0, fun _ _ _ => ⟨.steal, 255⟩⟩
private def stray : Config := ⟨8192, [(0, 1)], 5, fun _ _ _ => ⟨.steal, 0⟩⟩

/-- The call fails with frames in the tree of another slot, with frames in a slot of its own class
that is demoted onto itself, with all frames in trees that are stolen from at the highest priority,
and with all frames in trees of a class without slots. -/
theorem memory_not_exhausted :
    (Ordinary twoTrees ∧ Spurious twoTrees 1 0) ∧
    (∃ K, Serving K ∧ Fits K ∧ (K.policy 0 0 1).type = .demote ∧ Spurious K 0 1) ∧
    (∃ K, Ordinary K ∧ Fits K ∧ (∀ c d n, K.policy c d n = ⟨.steal, 255⟩) ∧ Spurious K 0 0) ∧
    ∃ K, Ordinary K ∧ Fits K ∧ K.locals K.defaultClass = none ∧ Spurious K 0 0 := by
  refine ⟨⟨(Standard.serving ⟨1, le_refl 1, Or.inl rfl⟩).toOrdinary, ?_⟩,
    ⟨onItself, ?_, ?_, ?_, ?_⟩, ⟨urgent, ?_, ?_, ?_, ?_⟩, ⟨stray, ?_, ?_, ?_, ?_⟩⟩
  · exact spurious_after cameBack (initZeroed_initialised (by decide)) (by decide +kernel)
      cameBack_legal (by decide) (by decide +kernel) (by decide +kernel)
  · exact ⟨⟨by decide, by decide, fun _ _ _ => nofun⟩, by decide, fun _ _ _ => nofun⟩
  · decide
  · rfl
  · exact spurious_after firstTaken (initZeroed_initialised (by decide)) (by decide +kernel)
      firstTaken_legal (by decide) (by decide +kernel) (by decide +kernel)
  · exact ⟨by decide, by decide, fun _ _ _ => nofun⟩
  · decide
  · intro _ _ _
    rfl
  · exact spurious_after [] (initZeroed_initialised (by decide)) rfl (by simp) (by decide)
      (by decide +kernel) (by decide +kernel)
  · exact ⟨by decide, by decide, fun _ _ _ => nofun⟩
  · decide
  · rfl
  · exact spurious_after [] (initZeroed_initialised (by decide)) rfl (by simp) (by decide)
      (by decide +kernel) (by decide +kernel)

end LLFree.Upper.Scarcity

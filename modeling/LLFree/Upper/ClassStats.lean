/- module: LLFree/Upper/ClassStats
   digest: What the statistics of the classes add up to. -/

import LLFree.Upper.Changes
import LLFree.Upper.Requests
import LLFree.Upper.Restored

set_option autoImplicit false
set_option relaxedAutoImplicit false

namespace LLFree.Upper.ClassStats

open LLFree.Atomic.Asking LLFree.Code.Types LLFree.Code.Entries LLFree.Code.Lower
open LLFree.Code.Trees LLFree.Code.Shared LLFree.Code.Llfree LLFree.Code.Setup LLFree.Lower.Quiet
open LLFree.Lower.FrameSet LLFree.Lower.FreeCount LLFree.Lower.Statistics LLFree.Upper.Slots
open LLFree.Upper.Sequential
open LLFree.Upper.Balance LLFree.Upper.Calls LLFree.Upper.Requests LLFree.Upper.Changes
open LLFree.Upper.Restored

variable {K : Config} {s s' : Llfree Lower} {tree tree' : Tree}

/-! ## Sums by class -/

theorem sum_classes {ι : Type} (xs : List ι) (cls f : ι → Nat) {n : Nat}
    (known : ∀ x ∈ xs, cls x < n) :
    ∑ c ∈ Finset.range n, ((xs.filter fun x => cls x == c).map f).sum = (xs.map f).sum := by
  induction xs with
  | nil => simp
  | cons x xs ih =>
    have split : ∀ c, (((x :: xs).filter fun y => cls y == c).map f).sum =
        (if cls x = c then f x else 0) + ((xs.filter fun y => cls y == c).map f).sum := by
      intro c
      by_cases here : cls x = c
      · simp [here]
      · simp [here]
    simp only [split, Finset.sum_add_distrib, List.map_cons, List.sum_cons]
    rw [ih fun y member => known y (List.mem_cons_of_mem x member), Finset.sum_ite_eq,
      if_pos (Finset.mem_range.mpr (known x List.mem_cons_self))]

theorem sum_rest {ι : Type} (xs : List ι) (f : ι → Nat) {m : Nat} (bound : ∀ x ∈ xs, f x ≤ m) :
    (xs.map fun x => m - f x).sum + (xs.map f).sum = xs.length * m := by
  induction xs with
  | nil => simp
  | cons x xs ih =>
    have here := bound x List.mem_cons_self
    have rest := ih fun y member => bound y (List.mem_cons_of_mem x member)
    simp only [List.map_cons, List.sum_cons, List.length_cons, Nat.succ_mul]
    omega

/-! ## Entries -/

def Sane (tree : Tree) : Prop := tree.cls < maxClasses ∧ tree.free ≤ treeSize

def AllSane (K : Config) (s : Llfree Lower) : Prop := ∀ t < K.treesLen, Sane (s.upper.trees t)

private theorem sane_put {n : Nat} (default : K.defaultClass < maxClasses) (sane : Sane tree)
    (step : treePut tree n K.policy K.defaultClass = some tree') : Sane tree' := by
  simp only [treePut] at step
  split_ifs at step with fits whole
  · cases step
    exact ⟨default, fits⟩
  · cases step
    exact ⟨sane.1, fits⟩

def classScope : Scope := ⟨fun c => c < maxClasses, RowOrHuge, True, False⟩

theorem sane_update {o : TableOp} (default : K.defaultClass < maxClasses)
    (asks : tableAsks K classScope o) (sane : Sane tree) (updates : Updates K tree tree' o) :
    Sane tree' := by
  cases o with
  | treesCas idx expected desired => exact asks.1.elim
  | treesSteal idx n c =>
    obtain ⟨stolen, step⟩ := updates
    simp only [treeSteal] at step
    split_ifs at step with few
    cases kind : (K.policy c tree.cls tree.free).type with
    | «match» =>
      rw [kind] at step
      cases step
      exact ⟨asks.2, (Nat.sub_le ..).trans sane.2⟩
    | demote =>
      rw [kind] at step
      cases step
      exact ⟨asks.2, (Nat.sub_le ..).trans sane.2⟩
    | steal =>
      rw [kind] at step
      cases step
      exact ⟨sane.1, (Nat.sub_le ..).trans sane.2⟩
    | invalid =>
      rw [kind] at step
      cases step
  | treesPut idx n => exact sane_put default sane updates
  | treesReserveOrSteal idx n c =>
    obtain ⟨reserved, target, step⟩ := updates
    rcases reserveOrSteal_some step with ⟨-, -, ⟨-, -, rfl⟩ | ⟨-, -, rfl⟩⟩
    · exact ⟨asks.2, Nat.zero_le _⟩
    · exact ⟨sane.1, (Nat.sub_le ..).trans sane.2⟩
  | treesUnreserve idx n c =>
    simp only [Updates, treeUnreserveAdd] at updates
    split_ifs at updates with reserved demote
    · obtain ⟨new, step, same⟩ := Option.map_eq_some_iff.mp updates
      cases same
      refine sane_put default ?_ step
      exact ⟨asks, sane.2⟩
    · obtain ⟨new, step, same⟩ := Option.map_eq_some_iff.mp updates
      cases same
      refine sane_put default ?_ step
      exact ⟨sane.1, sane.2⟩
    · cases updates
  | treesSyncSteal idx min =>
    simp only [Updates, treeSyncSteal] at updates
    split_ifs at updates
    cases updates
    exact ⟨sane.1, Nat.zero_le _⟩
  | _ => exact updates.elim

private theorem sane_serves (default : K.defaultClass < maxClasses) (reach : K.frames ≤ 2 ^ 63) :
    (requests K classScope).Serves (UpOp.exec K) fun t => Steady K t ∧ AllSane K t := by
  intro o t r t' asks held done
  obtain ⟨answers, steady⟩ := requests_serves reach (fun _ row => row) o t r t' asks held.1 done
  refine ⟨answers, steady, ?_⟩
  cases o with
  | lower c =>
    obtain ⟨x, -, same⟩ := Option.map_eq_some_iff.mp done
    cases same
    exact held.2
  | lowerStatsAt frame order =>
    cases done
    exact held.2
  | table o =>
    obtain ⟨x, step, same⟩ := Option.map_eq_some_iff.mp done
    cases same
    intro idx inside
    rcases table_entry step idx with same | updates
    · rw [same]
      exact held.2 idx inside
    · exact sane_update default asks (held.2 idx inside) updates

private theorem sane_exchanged {matcher : TreeMatch} {change : TreeChange}
    (cons : Consistent K.frames s.lower) (sane : AllSane K s)
    (exchanged : Exchanged K matcher change s s') : AllSane K s' := by
  obtain ⟨idx, tree, addressed, step, rfl⟩ := exchanged
  intro t inside
  by_cases here : t = idx
  · subst here
    obtain ⟨-, -, -, -, same⟩ := treeChange_cases step
    rw [setTree_trees, Function.update_self, same]
    refine ⟨?_, ?_⟩
    · dsimp only
      split_ifs
      · exact (sane t inside).1
      · exact storeClass_lt _
    · have first : frameFromTree t / 4096 = t := Nat.mul_div_cancel t (by decide)
      cases operation : change.operation with
      | none => exact (sane t inside).2
      | offline => exact Nat.zero_le _
      | online =>
        dsimp only
        rw [onlineFrames, if_pos operation, stats_tree_free cons (frameFromTree_lt inside) first,
          groupFree_eq cons inside]
        exact treeFree_le _ _
  · rw [setTree_trees, Function.update_of_ne here]
    exact sane t inside

private theorem sane_call {c : Call} {r : Option Result} (default : K.defaultClass < maxClasses)
    (reach : K.frames ≤ 2 ^ 63) (some : 0 < K.treesLen) (row : RowCall c s)
    (held : Steady K s ∧ AllSane K s) (done : c.run K s = Option.some (r, s')) :
    Steady K s' ∧ AllSane K s' := by
  have within : Within K classScope (c.prog K) → Steady K s' ∧ AllSane K s' := fun keeps =>
    (Discipline.run_keeps (sane_serves default reach) keeps held done).2
  cases c with
  | get frame request =>
    exact within (Discipline.keeps_bind (within_llfreeGet row class_of_locals) fun _ _ => trivial)
  | put frame request =>
    exact within (Discipline.keeps_bind (within_llfreePut trivial row) fun _ _ => trivial)
  | drain =>
    exact within (Discipline.keeps_bind (within_llfreeDrain fun _ low => low) fun _ _ => trivial)
  | changeTree turns matcher change =>
    refine ⟨call_steady reach row held.1 done, ?_⟩
    rcases call_change some done with rfl | exchanged
    · exact held.2
    · exact sane_exchanged held.1.lower held.2 exchanged

private theorem sane_history {mode : InitMode}
    {step : Unit → Llfree Lower → Call → Option Result → Unit → Prop} (fresh : FreshMode mode)
    (init : Initialised K mode s)
    (row : ∀ t c r, step () t c r () → RowCall c t) (run : History K step () s () s') :
    AllSane K s' := by
  obtain ⟨buffers, init⟩ := init
  obtain ⟨rebuilt, lower⟩ := init_rebuilt init fresh.ne_none
  have cons : Consistent K.frames s.lower := fresh_consistent ⟨buffers.lower, mode, fresh, lower⟩
  have default : K.defaultClass < maxClasses := init_default init fresh.ne_none
  have reach : K.frames ≤ 2 ^ 63 := rebuilt.frames.2.trans (by decide)
  have start : Steady K s ∧ AllSane K s := by
    refine ⟨⟨cons, fun c i has => ?_⟩, fun t inside => ?_⟩
    · rw [rebuilt.slots c i has]
      exact slotOk_none
    · rw [rebuilt.trees t inside]
      refine ⟨default, ?_⟩
      rw [groupFree_eq cons inside]
      exact treeFree_le _ _
  refine (run.keeps (I := fun _ t => Steady K t ∧ AllSane K t) start ?_).2
  exact fun _ c r _ t t' held allowed done =>
    sane_call default reach (treesLen_pos rebuilt) (row t c r allowed) held done

theorem sane_reached {mode : InitMode} (fresh : FreshMode mode) (init : Initialised K mode s)
    (run : History K RowCalls () s () s') : AllSane K s' :=
  sane_history fresh init (fun _ _ _ => id) run

/-! ## The statistics of the classes -/

/-- The statistics of the classes add up to the free frames and to the others. -/
structure Partitioned (K : Config) (u : Upper) : Prop where
  free : ∑ c ∈ Finset.range maxClasses, ((llfreeTreeStats K u).classes c).freeFrames =
    (llfreeTreeStats K u).freeFrames
  alloc : ∑ c ∈ Finset.range maxClasses, ((llfreeTreeStats K u).classes c).allocFrames +
    (llfreeTreeStats K u).freeFrames = K.frames

private theorem trees_free (sane : AllSane K s) :
    ∑ c ∈ Finset.range maxClasses, ((treesStats K s.upper).classes c).freeFrames =
      (treesStats K s.upper).freeFrames := by
  apply sum_classes (List.range K.treesLen) (fun i => (s.upper.trees i).cls)
  intro i member
  exact (sane i (List.mem_range.mp member)).1

private theorem trees_alloc (sane : AllSane K s) :
    ∑ c ∈ Finset.range maxClasses, ((treesStats K s.upper).classes c).allocFrames +
      (treesStats K s.upper).freeFrames = K.treesLen * treeSize := by
  have total := sum_rest (List.range K.treesLen) (fun i => (s.upper.trees i).free)
    fun i member => (sane i (List.mem_range.mp member)).2
  have classes := sum_classes (List.range K.treesLen) (fun i => (s.upper.trees i).cls)
    (fun i => treeSize - (s.upper.trees i).free) fun i member =>
      (sane i (List.mem_range.mp member)).1
  rw [List.length_range] at total
  rw [← total]
  exact congrArg (· + _) classes

private theorem slots_free (u : Upper) :
    ∑ c ∈ Finset.range maxClasses, ((llLocalStats K u).classes c).freeFrames =
      (llLocalStats K u).freeFrames := by
  apply sum_classes (presentSlots K u) Prod.fst
  intro p member
  exact hasSlot_class (mem_allSlots.mp (List.mem_filter.mp member).1)

private theorem slots_empty (u : Upper) : (llLocalStats K u).freeFrames = 0 ↔
    ∀ c i, K.HasSlot c i → (u.slots c i).present = true → (u.slots c i).free = 0 := by
  have mem : ∀ p, p ∈ presentSlots K u ↔ K.HasSlot p.1 p.2 ∧ (u.slots p.1 p.2).present = true := by
    intro p
    rw [presentSlots, List.mem_filter]
    exact and_congr_left fun _ => mem_allSlots
  rw [llLocalStats, List.sum_eq_zero_iff_forall_eq_nat]
  constructor
  · intro all c i has present
    exact all _ (List.mem_map_of_mem ((mem (c, i)).mpr ⟨has, present⟩))
  · intro all n member
    obtain ⟨p, kept, rfl⟩ := List.mem_map.mp member
    obtain ⟨has, present⟩ := (mem p).mp kept
    exact all p.1 p.2 has present

theorem alloc_total (sane : AllSane K s) (whole : treeSize ∣ K.frames) :
    ∑ c ∈ Finset.range maxClasses, ((llfreeTreeStats K s.upper).classes c).allocFrames +
      (llfreeTreeStats K s.upper).freeFrames = K.frames + (llLocalStats K s.upper).freeFrames := by
  have frames : K.treesLen * treeSize = K.frames := by
    obtain ⟨k, total⟩ := whole
    simp only [Config.treesLen, divCeil, treeSize] at total ⊢
    omega
  have slots : ∑ c ∈ Finset.range maxClasses, ((llfreeTreeStats K s.upper).classes c).allocFrames =
      ∑ c ∈ Finset.range maxClasses, ((treesStats K s.upper).classes c).allocFrames := by
    apply Finset.sum_congr rfl
    intro c _
    exact Nat.zero_add _
  have trees := trees_alloc sane
  rw [slots, ← frames, ← trees]
  change _ + ((llLocalStats K s.upper).freeFrames + (treesStats K s.upper).freeFrames) = _
  omega

/-- The statistics of the classes partition the memory exactly when no slot holds a free frame. -/
theorem classes_partition {mode : InitMode} (whole : treeSize ∣ K.frames) (fresh : FreshMode mode)
    (init : Initialised K mode s)
    (run : History K (Anytime (AnyCall K)) () s () s') :
    Partitioned K s'.upper ↔ ∀ c i, K.HasSlot c i → (s'.upper.slots c i).present = true →
      (s'.upper.slots c i).free = 0 := by
  have sane := sane_history fresh init (fun _ c _ allowed => by cases allowed <;> trivial) run
  have total := alloc_total sane whole
  rw [← slots_empty]
  constructor
  · intro parts
    have alloc := parts.alloc
    omega
  · intro none
    refine ⟨?_, by omega⟩
    have split : ∑ c ∈ Finset.range maxClasses,
        ((llfreeTreeStats K s'.upper).classes c).freeFrames =
        ∑ c ∈ Finset.range maxClasses, ((llLocalStats K s'.upper).classes c).freeFrames +
          ∑ c ∈ Finset.range maxClasses, ((treesStats K s'.upper).classes c).freeFrames :=
      Finset.sum_add_distrib
    rw [split, slots_free, trees_free sane]
    rfl

private def allTaken : List Call :=
  [.get none ⟨0, 0, some 0⟩, .drain] ++ List.replicate 8 (.get none ⟨9, 1, some 0⟩)

private theorem allTaken_legal : ∀ c ∈ allTaken, AnyCall twoWhole c := by
  intro c member
  simp only [allTaken, List.mem_append, List.mem_replicate, List.mem_cons, List.not_mem_nil,
    or_false] at member
  rcases member with (rfl | rfl) | ⟨-, rfl⟩
  · exact .get _ _ (Or.inl (by decide))
  · exact .drain
  · exact .get _ _ (Or.inr rfl)

def firstTaken : Llfree Lower := afterAll twoWhole allTaken (initZeroed twoWhole .free)

private theorem firstTaken_reached : History twoWhole (Anytime (AnyCall twoWhole)) ()
    (initZeroed twoWhole .free) () firstTaken :=
  History.calls (.start _ _) allTaken (by decide +kernel) fun c member _ _ =>
    allTaken_legal c member

/-- A slot holds a tree without free frames, beside one with 4095 of them. -/
theorem classes_partition_taken : (firstTaken.upper.slots 1 0).present = true ∧
    (llfreeTreeStats twoWhole firstTaken.upper).freeFrames = 4095 ∧
    Partitioned twoWhole firstTaken.upper := by
  have spent : ∀ p ∈ allSlots twoWhole, (firstTaken.upper.slots p.1 p.2).free = 0 := by
    decide +kernel
  refine ⟨by decide +kernel, by decide +kernel, ?_⟩
  apply (classes_partition (by decide) (Or.inl rfl)
    (initZeroed_initialised (by decide)) firstTaken_reached).mpr
  generalize firstTaken = s at spent
  intro c i has _
  exact spent (c, i) (mem_allSlots.mpr has)

/-- One frame taken through a slot leaves 8191 free frames, but the classes count 4096 as
allocated. -/
theorem classes_not_partitioned : ∃ s s', Initialised ⟨8192, llfreeClassingSimple 1⟩ .free s ∧
    (Call.get none ⟨0, 0, some 0⟩).run ⟨8192, llfreeClassingSimple 1⟩ s =
      some (some (llfreeOk 4096 0), s') ∧
    (llfreeTreeStats ⟨8192, llfreeClassingSimple 1⟩ s'.upper).freeFrames = 8191 ∧
    ∑ c ∈ Finset.range maxClasses,
      ((llfreeTreeStats ⟨8192, llfreeClassingSimple 1⟩ s'.upper).classes c).allocFrames = 4096 ∧
    ¬ Partitioned ⟨8192, llfreeClassingSimple 1⟩ s'.upper := by
  refine ⟨_, _, initZeroed_initialised (by decide), Call.run_after (by decide +kernel),
    by decide +kernel, by decide +kernel, ?_⟩
  intro parts
  exact absurd parts.alloc (by decide +kernel)

end LLFree.Upper.ClassStats

/- module: LLFree/Upper/Resets
   digest: An entirely free tree falls back to the default class exactly when it is a whole tree. -/

import LLFree.Upper.Pristine
import LLFree.Upper.Segregation
import LLFree.Upper.Targeted

/-!
`tree_put` resets the class when the counter reaches `LLFREE_TREE_SIZE`. The counter of the last
tree of an allocator whose frames are not a multiple of that size never does.
-/

set_option autoImplicit false
set_option relaxedAutoImplicit false

namespace LLFree.Upper.Resets

open LLFree.Atomic.Program LLFree.Code.Types LLFree.Code.Entries LLFree.Code.Trees
open LLFree.Code.Local LLFree.Code.Shared LLFree.Code.Llfree LLFree.Lower.GetPut
open LLFree.Lower.Quiet LLFree.Lower.FreeCount LLFree.Lower.FrameSet LLFree.Upper.Slots
open LLFree.Upper.Steps LLFree.Upper.Calls LLFree.Upper.Attempts LLFree.Upper.Sequential
open LLFree.Upper.Pristine LLFree.Upper.Targeted

variable {K : Config} {s s' : Llfree Lower} {l : Lower} {u : Upper} {i f m : Nat}

def ResetAt (K : Config) (s : Llfree Lower) (i : Nat) : Prop :=
  (s.upper.trees i).reserved = false →
    (∀ g < K.frames, treeFromFrame g = i → IsFree s.lower g) →
      (s.upper.trees i).cls = K.defaultClass

/-- The tree has as many frames as a tree can have. -/
def Whole (K : Config) (i : Nat) : Prop := (i + 1) * treeSize ≤ K.frames

/-! ## Whole trees -/

private theorem plain_of_client {held held' : List Lent} {c : Call} {r : Option Result}
    (client : ClientCall RowCall held s c r held') : PlainCall c s := by
  cases client with
  | get frame request r row => exact ⟨row, by simp⟩
  | put b request r row own same => exact ⟨row, by simp⟩
  | drain => exact ⟨trivial, by simp⟩

private theorem reset_whole (standard : Standard K) (fits : Fits K) (init : Initialised K .free s)
    (whole : Whole K i) {held : List Lent} (run : History K (ClientCall RowCall) [] s held s') :
    ResetAt K s' i := by
  obtain ⟨rebuilt, start⟩ := sound_init (pristinePromise standard) fits (Or.inl rfl) init
  have sound : Sound (pristinePromise standard) (words fits) s' 0 :=
    run.keeps (I := fun _ t => Sound (pristinePromise standard) (words fits) t 0) start
      fun _ _ _ _ _ _ kept client done => plain_sound False.elim (treesLen_pos rebuilt) not_false
        kept (plain_of_client client) done
  have inside : i < K.treesLen := by
    simp only [Whole, Config.treesLen, divCeil, treeSize] at whole ⊢
    omega
  intro idle free
  have all : ∀ g, g / treeSize = i → IsFree s'.lower g := by
    intro g here
    have below : g < K.frames := by
      simp only [Whole, treeSize] at whole here
      omega
    exact free g below here
  rw [tree_of_free (P := pristinePromise standard) trivial sound inside idle all]

/-! ## The partial last tree -/

private theorem default_pos (standard : Standard K) : 0 < K.defaultClass := by
  obtain ⟨n, -, same | same⟩ := standard
  · simp [Config.defaultClass, same, llfreeClassingSimple]
  · simp [Config.defaultClass, same, llfreeClassingMovable]

private theorem class_zero (standard : Standard K) : K.locals 0 ≠ none := by
  obtain ⟨n, -, same | same⟩ := standard
  · simp [Config.locals, same, classLocals, llfreeClassingSimple, maxClasses]
  · simp [Config.locals, same, classLocals, llfreeClassingMovable, maxClasses]

private theorem steal_demotes (standard : Standard K) (m : Nat) :
    treeSteal ⟨false, K.defaultClass, m + 1⟩ 1 0 K.policy = some (⟨false, 0, m⟩, 0) := by
  have demote : (K.policy 0 K.defaultClass (m + 1)).type = .demote := by
    rw [standard.byClass, if_neg (Nat.not_lt_zero _), if_pos (default_pos standard)]
  rw [treeSteal, if_neg (Nat.not_lt.mpr (Nat.le_add_left 1 m))]
  simp only [demote, Nat.add_sub_cancel]

private theorem put_keeps {c m d : Nat} {policy : PolicyFn} (partly : m + 1 < treeSize) :
    treePut ⟨false, c, m⟩ 1 policy d = some ⟨false, c, m + 1⟩ := by
  rw [treePut, if_pos (Nat.le_of_lt partly), if_neg fun full => Nat.ne_of_lt partly full.1]

private theorem run_steal (standard : Standard K) (fits : Fits K) (cons : Consistent K.frames l)
    (inside : f < K.frames) (free : IsFree l f)
    (entry : u.trees (treeFromFrame f) = ⟨false, K.defaultClass, m + 1⟩) :
    ∃ l', (Call.get (some f) ⟨0, 0, none⟩).run K ⟨l, u⟩ =
        some (some (llfreeOk f 0), ⟨l', u.setTree (treeFromFrame f) ⟨false, 0, m⟩⟩) ∧
      Consistent K.frames l' ∧ Took f 0 l l' := by
  have tree : treeFromFrame f < K.treesLen := by
    simp only [treeFromFrame, Config.treesLen, divCeil, treeSize]
    omega
  have reach := reach_of_fits fits
  obtain ⟨l', done⟩ := lower_target cons reach inside free f
  have args : GetArgs K.frames f (some f) := by
    refine ⟨by simp, ?_⟩
    rintro _ ⟨⟩
    omega
  obtain ⟨cons', outcome⟩ := get_sound cons args (Nat.zero_le 9) done
  have took : Took f 0 l l' := by
    rcases outcome with ⟨g, same, -, took, -⟩ | ⟨bad | ⟨bad, -⟩, -⟩
    · cases same
      exact took
    · cases (Result.mk.inj bad).2.2
    · cases (Result.mk.inj bad).2.2
  refine ⟨l', ?_, cons', took⟩
  have valid : validateRequest K ⟨0, 0, none⟩ (some f) = true :=
    valid_target inside (class_zero standard) (by simp)
  rw [Call.run, Call.prog]
  simp only [llfreeGet, valid, Bool.true_eq_false, if_false, llfreeGetAt]
  rw [Prog.assert_bind inside]
  simp only [getAtGlobal, treesSteal, Nat.pow_zero, Prog.step_bind, Prog.ret_bind]
  rw [run_table (by
    simp only [TableOp.exec, if_pos tree, entry, steal_demotes standard m]
    rfl)]
  simp only [lowerGetStep, Prog.step_bind, Prog.ret_bind]
  rw [run_lower (c := .get f 0 (some f)) done]
  rfl

private theorem run_return (standard : Standard K) (cons : Consistent K.frames l)
    (inside : f < K.frames) (taken : ¬ IsFree l f)
    (entry : u.trees (treeFromFrame f) = ⟨false, 0, m⟩) (partly : m + 1 < treeSize) :
    ∃ l', (Call.put f ⟨0, 0, none⟩).run K ⟨l, u⟩ =
        some (some (llfreeOk 0 0), ⟨l', u.setTree (treeFromFrame f) ⟨false, 0, m + 1⟩⟩) ∧
      Freed f 0 l l' := by
  have tree : treeFromFrame f < K.treesLen := by
    simp only [treeFromFrame, Config.treesLen, divCeil, treeSize]
    omega
  have block : ∀ g, Within f 0 g → ¬ IsFree l g := by
    intro g within
    have below := within.2
    obtain rfl : g = f := Nat.le_antisymm (by omega) within.1
    exact taken
  obtain ⟨l', done, -, freed⟩ := put_allocated cons ⟨inside, one_dvd f⟩ (Or.inl (by decide)) block
  refine ⟨l', ?_, freed⟩
  have valid : validateRequest K ⟨0, 0, none⟩ (some f) = true :=
    valid_target inside (class_zero standard) (by simp)
  rw [Call.run, Call.prog]
  simp only [llfreePut, valid, Bool.true_eq_false, if_false, lowerPutStep, Prog.step_bind,
    Prog.ret_bind]
  rw [run_lower (c := .put f 0) done]
  simp only [llfreeErr, ne_eq, not_true, if_false, treesPut, Nat.pow_zero, Prog.step_bind,
    Prog.ret_bind]
  rw [run_table (by
    simp only [TableOp.exec, if_pos tree, entry, put_keeps partly]
    rfl)]
  rfl

-- The last tree is partial: a client that takes its first frame for class 0 and frees it again
-- leaves it entirely free, and in class 0.
private theorem stuck_partial (standard : Standard K) (fits : Fits K) (init : Initialised K .free s)
    (inside : i < K.treesLen) (cut : ¬ Whole K i) :
    ∃ s', History K (ClientCall RowCall) [] s [] s' ∧ ¬ ResetAt K s' i := by
  obtain ⟨rebuilt, start⟩ := sound_init (pristinePromise standard) fits (Or.inl rfl) init
  have cons : Consistent K.frames s.lower := start.good
  have all : ∀ g, g < K.frames ↔ IsFree s.lower g := by
    obtain ⟨buffers, init⟩ := init
    have lower := (init_rebuilt init (by simp)).2
    intro g
    have same : freeSet s.lower = {g | g < K.frames} := by
      rw [← (Prod.mk.inj lower).2]
      exact init_free buffers.lower K.frames
    exact (Set.ext_iff.mp same g).symm
  have below : frameFromTree i < K.frames := frameFromTree_lt inside
  have here : treeFromFrame (frameFromTree i) = i := frameFromTree_tree i
  have entry : s.upper.trees i = ⟨false, K.defaultClass, treeFree (freeSet s.lower) i⟩ := by
    rw [rebuilt.trees i inside, groupFree_eq cons inside]
  have some : 1 ≤ treeFree (freeSet s.lower) i := by
    rw [← here]
    exact treeFree_pos ((all _).mp below)
  have partly : treeFree (freeSet s.lower) i < treeSize := by
    refine Nat.lt_of_le_of_ne (treeFree_le _ i) fun full => cut ?_
    have last := treeFree_full full (g := frameFromTree i + 4095) (by
      simp only [frameFromTree, treeSize]
      omega)
    have bound := (all _).mpr last
    simp only [Whole, frameFromTree, treeSize] at bound ⊢
    omega
  obtain ⟨m, count⟩ := Nat.exists_eq_add_of_le' some
  rw [count] at entry partly
  have row : RowOrHuge 0 := Or.inl (Nat.zero_le 6)
  generalize frameFromTree i = f at below here
  subst here
  obtain ⟨l₁, got, cons₁, took⟩ := run_steal standard fits cons below ((all f).mp below) entry
  have held : History K (ClientCall RowCall) [] s [⟨f, 0, 0⟩]
      ⟨l₁, s.upper.setTree (treeFromFrame f) ⟨false, 0, m⟩⟩ :=
    .call _ (.start [] s) got (.get [] s (Option.some f) ⟨0, 0, none⟩ (llfreeOk f 0) row)
  have taken := took.taken f ⟨le_refl f, Nat.lt_succ_self f⟩
  obtain ⟨l₂, put, freed⟩ := run_return (u := s.upper.setTree (treeFromFrame f) ⟨false, 0, m⟩)
    standard cons₁ below taken (Function.update_self ..) partly
  refine ⟨_, .call _ held put ?_, ?_⟩
  · have next : ClientCall RowCall [⟨f, 0, 0⟩] _ (.put f ⟨0, 0, none⟩) _ _ := .put [⟨f, 0, 0⟩]
      ⟨l₁, s.upper.setTree (treeFromFrame f) ⟨false, 0, m⟩⟩ ⟨f, 0, 0⟩ ⟨0, 0, none⟩
      (llfreeOk 0 0) row (List.mem_singleton_self _) rfl
    rwa [if_pos (by rfl), List.erase_cons_head] at next
  · intro reset
    have zero : 0 = K.defaultClass := by
      have cls := reset (by simp) ?_
      · rwa [setTree_trees, Function.update_self] at cls
      · intro g less _
        by_cases within : Within f 0 g
        · exact freed.free g within
        · exact (freed.others g within).mpr ((took.others g within).mpr ((all g).mp less))
    exact Nat.ne_of_lt (default_pos standard) zero

/-- Clients can never leave a tree entirely free in another class exactly when it is whole. -/
theorem resets_iff_whole (standard : Standard K) (fits : Fits K) (init : Initialised K .free s)
    (inside : i < K.treesLen) :
    (∀ held s', History K (ClientCall RowCall) [] s held s' → ResetAt K s' i) ↔ Whole K i := by
  constructor
  · intro resets
    by_contra cut
    obtain ⟨s', run, bad⟩ := stuck_partial standard fits init inside cut
    exact bad (resets [] s' run)
  · intro whole held s' run
    exact reset_whole standard fits init whole run

def oneSpare : Config := ⟨treeSize + 1, llfreeClassingSimple 1⟩

/-- A whole tree and the tree behind it. -/
theorem resets_iff_whole_spare :
    ((∀ held s', History oneSpare (ClientCall RowCall) [] (initZeroed oneSpare .free) held s' →
        ResetAt oneSpare s' 0) ↔ Whole oneSpare 0) ∧
      ((∀ held s', History oneSpare (ClientCall RowCall) [] (initZeroed oneSpare .free) held s' →
        ResetAt oneSpare s' 1) ↔ Whole oneSpare 1) :=
  ⟨resets_iff_whole ⟨1, le_refl 1, Or.inl rfl⟩ (by decide) (initZeroed_initialised (by decide))
      (by decide),
    resets_iff_whole ⟨1, le_refl 1, Or.inl rfl⟩ (by decide) (initZeroed_initialised (by decide))
      (by decide)⟩

/-- The frame behind the first tree is allocated for class 0 and freed again. -/
theorem class_sticks :
    History oneSpare (ClientCall RowCall) [] (initZeroed oneSpare .free) []
        (afterAll oneSpare [.get (some 4096) ⟨0, 0, none⟩, .put 4096 ⟨0, 0, none⟩]
          (initZeroed oneSpare .free)) ∧
      ¬ ResetAt oneSpare (afterAll oneSpare [.get (some 4096) ⟨0, 0, none⟩,
        .put 4096 ⟨0, 0, none⟩] (initZeroed oneSpare .free)) 1 := by
  constructor
  · have held : History oneSpare (ClientCall RowCall) [] (initZeroed oneSpare .free) [⟨4096, 0, 0⟩]
        ((Call.get (some 4096) ⟨0, 0, none⟩).after oneSpare (initZeroed oneSpare .free)) :=
      .call _ (.start [] _) (Call.run_after (r := some (llfreeOk 4096 0)) (by decide +kernel))
        (.get [] _ (some 4096) ⟨0, 0, none⟩ (llfreeOk 4096 0) (Or.inl (by decide)))
    exact .call _ held (Call.run_after (r := some (llfreeOk 0 0)) (by decide +kernel))
      (.put [⟨4096, 0, 0⟩] _ ⟨4096, 0, 0⟩ ⟨0, 0, none⟩ (llfreeOk 0 0) (Or.inl (by decide))
        (List.mem_singleton_self _) rfl)
  · intro reset
    have cls := reset (by decide +kernel) ?_
    · revert cls
      decide +kernel
    · intro g less here
      obtain rfl : g = 4096 := by
        simp only [oneSpare, treeSize, treeFromFrame] at less here
        omega
      decide +kernel

end LLFree.Upper.Resets

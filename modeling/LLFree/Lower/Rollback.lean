/- module: LLFree/Lower/Rollback
   digest: When an update of several entries or rows that cannot be finished is taken back. -/

import LLFree.Lower.FrameSet
import LLFree.Lower.Groups

/-!
Both loops over several words undo what they have done when a word is in the way. The undo of
the children is shifted by one place and leaves the first child changed; the undo of the rows
expects the value from before the exchange and fails its assertion. Either loop is thus
all-or-nothing exactly when it meets the obstacle at its first word.
-/

set_option autoImplicit false
set_option relaxedAutoImplicit false

namespace LLFree.Lower.Rollback

open LLFree.Atomic.Program LLFree.Code.Types LLFree.Code.Entries LLFree.Code.Lower
open LLFree.Lower.Holding LLFree.Lower.Quiet LLFree.Lower.GetPut LLFree.Lower.Runs
open LLFree.Lower.Rows LLFree.Lower.Groups LLFree.Lower.Fields LLFree.Lower.FrameSet

variable {l s t : Lower} {e d : Child}

/-- The call completes, and if it fails it leaves every word as it was. -/
def Restores (l : Lower) (c : LowerCall) : Prop :=
  ∃ r l', Prog.run LoOp.exec (c.prog l.frames) l = some (r, l') ∧ (r.error ≠ .ok → l' = l)

/-! ## Several children -/

def AllAre (l : Lower) (base n : Nat) (v : Child) : Prop := ∀ i < n, l.children (base + i) = v

instance (l : Lower) (base n : Nat) (v : Child) : Decidable (AllAre l base n v) :=
  inferInstanceAs (Decidable (∀ i < n, _))

def setChildren (l : Lower) (base n : Nat) (v : Child) : Lower :=
  { l with children := fun i => if base ≤ i ∧ i < base + n then v else l.children i }

/-- All entries are as expected and then become as desired, or nothing changes; no assertion
fails. -/
def AllOrNothing (l : Lower) (base h : Nat) (e d : Child) : Prop :=
  Prog.run LoOp.exec (tryUpdateHugeN base h e d) l =
    if AllAre l base h e then some (true, setChildren l base h d) else some (false, l)

def Unwindable (l : Lower) (base h : Nat) (e : Child) : Prop :=
  AllAre l base h e ∨ l.children base ≠ e

instance (l : Lower) (base h : Nat) (e : Child) : Decidable (Unwindable l base h e) :=
  inferInstanceAs (Decidable (_ ∨ _))

def Use (e d : Child) : Prop :=
  e = ⟨childSize, false⟩ ∧ d = ⟨0, true⟩ ∨ e = ⟨0, true⟩ ∧ d = ⟨childSize, false⟩

theorem Use.differ (use : Use e d) : e ≠ d := by
  intro same
  rcases use with ⟨rfl, rfl⟩ | ⟨rfl, rfl⟩ <;> cases same

theorem setChildren_zero (l : Lower) (base : Nat) (v : Child) : setChildren l base 0 v = l := by
  have none : ∀ i, ¬ (base ≤ i ∧ i < base + 0) := by omega
  simp only [setChildren, none, if_false]

theorem setChildren_succ (l : Lower) (base n : Nat) (v : Child) :
    (setChildren l base n v).setChild (base + n) v = setChildren l base (n + 1) v := by
  simp only [setChildren, Lower.setChild]
  congr 1
  funext i
  by_cases last : i = base + n
  · subst last
    rw [Function.update_self, if_pos (by omega)]
  · rw [Function.update_of_ne last]
    have same : (base ≤ i ∧ i < base + n) ↔ (base ≤ i ∧ i < base + (n + 1)) := by omega
    simp only [same]

private theorem run_all {base left : Nat} (j : Nat) (bound : base + j + left ≤ l.entryCount)
    (all : AllAre l base (j + left) e) :
    Prog.run LoOp.exec (tryUpdateHugeFrom base e d j left) (setChildren l base j d) =
      some (true, setChildren l base (j + left) d) := by
  induction left generalizing j with
  | zero => rfl
  | succ left ih =>
    have expected : (setChildren l base j d).children (base + j) = e := by
      rw [← all j (by omega)]
      exact if_neg (by omega)
    have inside : base + j < (setChildren l base j d).entryCount :=
      show base + j < l.entryCount by omega
    simp only [tryUpdateHugeFrom, childCas, Prog.step_bind, Prog.ret_bind]
    rw [run_childCas inside, if_pos expected, if_pos rfl, setChildren_succ]
    rw [show j + (left + 1) = j + 1 + left by omega] at all ⊢
    exact ih (j + 1) (by omega) all

private theorem run_first {base h : Nat} (pos : 0 < h) (bound : base < l.entryCount)
    (differ : l.children base ≠ e) :
    Prog.run LoOp.exec (tryUpdateHugeN base h e d) l = some (false, l) := by
  obtain ⟨h, rfl⟩ := Nat.exists_eq_succ_of_ne_zero pos.ne'
  simp only [tryUpdateHugeN, tryUpdateHugeFrom, childCas, Prog.step_bind, Prog.ret_bind]
  rw [run_childCas (show base + 0 < l.entryCount from bound), Nat.add_zero, if_neg differ]
  rfl

private theorem run_undo {base j : Nat} (ks : List Nat) (less : ∀ k ∈ ks, k < j)
    (run : Prog.run LoOp.exec
      (Prog.each ks fun k => do
        let undone ← childCas (base + (j - k)) d e
        Prog.assert (undone = true)) s = some ((), t)) :
    t.children base = s.children base := by
  induction ks generalizing s with
  | nil =>
    cases run
    rfl
  | cons k ks ih =>
    obtain ⟨u, s', first, rest⟩ := Prog.run_bind_eq_some.mp run
    have kept := ih (fun i member => less i (List.mem_cons_of_mem k member)) rest
    rw [kept]
    have behind : base ≠ base + (j - k) := by
      have := less k List.mem_cons_self
      omega
    simp only [childCas, Prog.step_bind, Prog.ret_bind] at first
    by_cases inside : base + (j - k) < s.entryCount
    · rw [run_childCas inside] at first
      by_cases desired : s.children (base + (j - k)) = d
      · rw [if_pos desired] at first
        cases first
        exact setChild_ne s e behind
      · rw [if_neg desired] at first
        cases first
    · rw [Prog.run_step] at first
      simp only [LoOp.exec_childCas, if_neg inside, Option.bind_none] at first
      cases first

private theorem run_behind {base left j : Nat} {b : Bool} (pos : 0 < j)
    (run : Prog.run LoOp.exec (tryUpdateHugeFrom base e d j left) s = some (b, t)) :
    t.children base = s.children base ∧ (b = true → AllAre s (base + j) left e) := by
  induction left generalizing j s with
  | zero =>
    cases run
    exact ⟨rfl, fun _ i less => absurd less (Nat.not_lt_zero i)⟩
  | succ left ih =>
    simp only [tryUpdateHugeFrom, childCas, Prog.step_bind, Prog.ret_bind] at run
    by_cases inside : base + j < s.entryCount
    · rw [run_childCas inside] at run
      by_cases expected : s.children (base + j) = e
      · rw [if_pos expected, if_pos rfl] at run
        obtain ⟨kept, rest⟩ := ih (Nat.succ_pos j) run
        rw [setChild_ne s d (by omega)] at kept
        refine ⟨kept, ?_⟩
        intro done i less
        cases i with
        | zero => exact expected
        | succ i =>
          have value := rest done i (by omega)
          rw [setChild_ne s d (by omega)] at value
          rwa [show base + j + (i + 1) = base + (j + 1) + i by omega]
      · rw [if_neg expected, if_neg Bool.false_ne_true] at run
        obtain ⟨u, t', undo, last⟩ := Prog.run_bind_eq_some.mp run
        cases last
        exact ⟨run_undo _ (fun k member => List.mem_range.mp member) undo, by simp⟩
    · rw [Prog.run_step] at run
      simp only [LoOp.exec_childCas, if_neg inside, Option.bind_none] at run
      cases run

-- A group that starts as expected but is not all so: the loop fails an assertion, or it reports a
-- failure and has changed the first child.
private theorem run_torn {base h : Nat} (differ : e ≠ d) (bound : base < l.entryCount)
    (first : l.children base = e) (torn : ¬ AllAre l base h e) :
    Prog.run LoOp.exec (tryUpdateHugeN base h e d) l = none ∨
      ∃ t, Prog.run LoOp.exec (tryUpdateHugeN base h e d) l = some (false, t) ∧ t ≠ l := by
  cases h with
  | zero => exact absurd (fun i less => absurd less (Nat.not_lt_zero i)) torn
  | succ h =>
    simp only [tryUpdateHugeN, tryUpdateHugeFrom, childCas, Prog.step_bind, Prog.ret_bind]
    rw [run_childCas (show base + 0 < l.entryCount from bound), Nat.add_zero, if_pos first,
      if_pos rfl]
    cases run : Prog.run LoOp.exec (tryUpdateHugeFrom base e d (0 + 1) h) (l.setChild base d) with
    | none => exact Or.inl rfl
    | some result =>
      obtain ⟨b, t⟩ := result
      obtain ⟨kept, rest⟩ := run_behind (Nat.succ_pos 0) run
      rw [setChild_self] at kept
      right
      have failed : b = false := by
        by_contra done
        apply torn
        intro i less
        cases i with
        | zero => exact first
        | succ i =>
          have value := rest (by simpa using done) i (by omega)
          rw [setChild_ne l d (by omega)] at value
          rwa [show base + (i + 1) = base + (0 + 1) + i by omega]
      subst failed
      refine ⟨t, rfl, ?_⟩
      rintro rfl
      exact differ (first.symm.trans kept)

/-- An update of several children is all-or-nothing exactly when nothing has to be undone. -/
theorem allOrNothing_iff {base h : Nat} (differ : e ≠ d) (pos : 0 < h)
    (bound : base + h ≤ l.entryCount) :
    AllOrNothing l base h e d ↔ Unwindable l base h e := by
  unfold AllOrNothing
  constructor
  · intro exact_
    by_contra torn
    rw [Unwindable, not_or, not_not] at torn
    rw [if_neg torn.1] at exact_
    rcases run_torn differ (by omega) torn.2 torn.1 with aborted | ⟨t, failed, changed⟩
    · rw [aborted] at exact_
      cases exact_
    · rw [failed] at exact_
      cases exact_
      exact changed rfl
  · rintro (all | first)
    · rw [if_pos all]
      have run := run_all (d := d) 0 (by omega : base + 0 + h ≤ l.entryCount)
        (by rwa [Nat.zero_add])
      rwa [setChildren_zero, Nat.zero_add] at run
    · rw [if_neg fun all => first (all 0 pos)]
      exact run_first pos (by omega) first

/-! ## Blocks of several huge frames -/

/-- A search of the groups of `n` children finds a free one before one that is free only at its
start. -/
def Clean (l : Lower) (n : Nat) : List Nat → Prop
  | [] => True
  | i :: rest => AllAre l (i * n) n ⟨childSize, false⟩ ∨
      l.children (i * n) ≠ ⟨childSize, false⟩ ∧ Clean l n rest

/-- The groups that a call for several huge frames updates need no undo. -/
def NoUndo (l : Lower) : LowerCall → Prop
  | .get start order none => Clean l (2 ^ (order - hugeOrder)) (candidates start order)
  | .get _ order (some f) => Valid l.frames f order →
      Unwindable l (childFromFrame f) (2 ^ (order - hugeOrder)) ⟨childSize, false⟩
  | .put f order => Valid l.frames f order →
      Unwindable l (childFromFrame f) (2 ^ (order - hugeOrder)) ⟨0, true⟩

def callOrder : LowerCall → Nat
  | .get _ order _ => order
  | .put _ order => order

def InRange (N : Nat) : LowerCall → Prop
  | .get start _ none => start < N
  | .get _ _ (some f) => f < 2 ^ 63
  | .put f _ => f < 2 ^ 63

private theorem group_entries {N f order : Nat} (big : 9 < order) (small : order ≤ 12)
    (valid : Valid N f order) (frames : l.frames = N) :
    f / 512 + 2 ^ (order - 9) ≤ l.entryCount := by
  obtain ⟨-, -, -, size⟩ := group_size big small
  have fits := valid.1
  simp only [Lower.entryCount, Lower.childCount, alignUp, alignDown, divCeil, treeChildren,
    childSize, frames]
  omega

private theorem restores_invalid {N order f : Nat} (start : Nat) (c : LowerCall)
    (kind : c = .get start order (some f) ∨ c = .put f order) (small : order ≤ 12)
    (reach : f < 2 ^ 63) (frames : l.frames = N) (bad : ¬ Valid N f order) : Restores l c := by
  have invalid := (invalidFrame_iff reach small).mpr bad
  subst frames
  refine ⟨llfreeErr .argument, l, ?_, fun _ => rfl⟩
  rcases kind with rfl | rfl
  · rw [LowerCall.prog, lowerGet, Prog.assert_bind (show order ≤ treeOrder from small)]
    rw [lowerGetAt, if_pos invalid]
    rfl
  · rw [LowerCall.prog, lowerPut, Prog.assert_bind (show order ≤ treeOrder from small),
      if_pos invalid]
    rfl

private theorem restores_group {c : LowerCall} {base h : Nat} (good bad : Result)
    (differ : e ≠ d) (pos : 0 < h) (bound : base + h ≤ l.entryCount) (ok : good.error = .ok)
    (failed : bad.error ≠ .ok)
    (prog : c.prog l.frames = tryUpdateHugeN base h e d >>= fun done =>
      if done = true then .ret good else .ret bad) :
    Restores l c ↔ Unwindable l base h e := by
  rw [Restores, prog]
  constructor
  · rintro ⟨r, l', run, kept⟩
    by_contra torn
    rw [Unwindable, not_or, not_not] at torn
    rcases run_torn differ (by omega) torn.2 torn.1 with aborted | ⟨t, miss, changed⟩
    · rw [Prog.run_bind, aborted] at run
      cases run
    · rw [Prog.run_bind_some miss, if_neg Bool.false_ne_true] at run
      obtain ⟨rfl, rfl⟩ := Prod.mk.inj (Option.some.inj run)
      exact changed (kept failed)
  · intro unwindable
    have exact_ := (allOrNothing_iff differ pos bound).mpr unwindable
    unfold AllOrNothing at exact_
    by_cases all : AllAre l base h e
    · rw [if_pos all] at exact_
      refine ⟨good, setChildren l base h d, ?_, fun error => absurd ok error⟩
      rw [Prog.run_bind_some exact_]
      rfl
    · rw [if_neg all] at exact_
      refine ⟨bad, l, ?_, fun _ => rfl⟩
      rw [Prog.run_bind_some exact_]
      rfl

/-- A targeted allocation of several huge frames that fails changes nothing exactly when it has
nothing to undo. -/
theorem getAt_restores {order f : Nat} (start : Nat) (big : 9 < order) (small : order ≤ 12)
    (reach : f < 2 ^ 63) :
    Restores l (.get start order (some f)) ↔ NoUndo l (.get start order (some f)) := by
  by_cases valid : Valid l.frames f order
  · have group := restores_group (l := l) (c := .get start order (some f)) (e := ⟨512, false⟩)
      (d := ⟨0, true⟩) (llfreeOk f 0) (llfreeErr .memory) (by decide)
      (group_size big small).1 (group_entries big small valid rfl) rfl (by simp) (by
        have good : ¬ invalidFrame l.frames f order = true := by simp [invalidFrame_of_valid valid]
        have huge : order ≥ hugeOrder := big.le
        rw [LowerCall.prog, lowerGet, Prog.assert_bind (show order ≤ treeOrder from small)]
        rw [lowerGetAt, if_neg good]
        dsimp only
        rw [if_pos huge]
        rfl)
    rw [group]
    exact ⟨fun unwindable _ => unwindable, fun noUndo => noUndo valid⟩
  · have done := restores_invalid start (.get start order (some f)) (Or.inl rfl) small reach rfl
      valid
    exact ⟨fun _ good => absurd good valid, fun _ => done⟩

theorem prog_put_group {N order f : Nat} (big : 9 < order) (small : order ≤ 12)
    (valid : Valid N f order) : LowerCall.prog N (.put f order) =
      tryUpdateHugeN (f / 512) (2 ^ (order - 9)) ⟨0, true⟩ ⟨512, false⟩ >>= fun done =>
        if done = true then .ret (llfreeErr .ok) else .ret (llfreeErr .argument) := by
  have unit : 2 ^ (order - 9) ∣ f / 512 := by
    have aligned := valid.2
    rw [(group_size big small).2.2.2, mul_comm] at aligned
    exact Nat.dvd_div_of_mul_dvd aligned
  have good : ¬ invalidFrame N f order = true := by simp [invalidFrame_of_valid valid]
  have huge : order ≥ hugeOrder := big.le
  have base : alignDown (childFromFrame f) (2 ^ (order - hugeOrder)) = f / 512 :=
    Nat.div_mul_cancel unit
  rw [LowerCall.prog, lowerPut, Prog.assert_bind (show order ≤ treeOrder from small), if_neg good]
  dsimp only
  rw [if_pos huge, base, if_neg (show ¬ childFromFrame f ≠ f / 512 from not_not.mpr rfl)]
  rfl

theorem put_first {N order f : Nat} (big : 9 < order) (small : order ≤ 12) (valid : Valid N f order)
    (frames : l.frames = N) (first : l.children (f / 512) ≠ ⟨0, true⟩) :
    Prog.run LoOp.exec (lowerPut N f order) l = some (llfreeErr .argument, l) := by
  have pos := (group_size big small).1
  have done := (allOrNothing_iff (d := ⟨512, false⟩) (by decide) pos
    (group_entries big small valid frames)).mpr (Or.inr first)
  rw [AllOrNothing, if_neg fun all => first (all 0 pos)] at done
  change Prog.run LoOp.exec (LowerCall.prog N (.put f order)) l = _
  rw [prog_put_group big small valid, Prog.run_bind_some done]
  rfl

/-- A free of several huge frames that fails changes nothing exactly when it has nothing to undo. -/
theorem put_restores {order f : Nat} (big : 9 < order) (small : order ≤ 12) (reach : f < 2 ^ 63) :
    Restores l (.put f order) ↔ NoUndo l (.put f order) := by
  by_cases valid : Valid l.frames f order
  · have group := restores_group (l := l) (c := .put f order) (e := ⟨0, true⟩) (d := ⟨512, false⟩)
      (llfreeErr .ok) (llfreeErr .argument) (by decide) (group_size big small).1
      (group_entries big small valid rfl) rfl (by simp) (prog_put_group big small valid)
    rw [group]
    exact ⟨fun unwindable _ => unwindable, fun noUndo => noUndo valid⟩
  · have done := restores_invalid 0 (.put f order) (Or.inr rfl) small reach rfl valid
    exact ⟨fun _ good => absurd good valid, fun _ => done⟩

private theorem run_clean {n : Nat} (pos : 0 < n) (groups : List Nat)
    (bound : ∀ i ∈ groups, i * n + n ≤ l.entryCount) (clean : Clean l n groups) :
    (∃ f t, Prog.run LoOp.exec (Prog.firstSome groups (getGroup n)) l =
        some (some (llfreeOk f 0), t)) ∨
      Prog.run LoOp.exec (Prog.firstSome groups (getGroup n)) l = some (none, l) := by
  induction groups with
  | nil => exact Or.inr rfl
  | cons i rest ih =>
    rcases clean with all | ⟨first, clean⟩
    · left
      have run := (allOrNothing_iff (e := childNew childSize false) (d := childNew 0 true)
        (by decide) pos (bound i List.mem_cons_self)).mpr (Or.inl all)
      unfold AllOrNothing at run
      rw [if_pos (show AllAre l (i * n) n (childNew childSize false) from all)] at run
      refine ⟨i * n * 512, setChildren l (i * n) n (childNew 0 true), ?_⟩
      rw [Prog.firstSome, getGroup, Prog.assoc, Prog.run_bind_some run]
      rfl
    · have inside := bound i List.mem_cons_self
      have run : Prog.run LoOp.exec
          (tryUpdateHugeN (i * n) n (childNew childSize false) (childNew 0 true)) l =
            some (false, l) := run_first pos (by omega) first
      have skip : Prog.run LoOp.exec (Prog.firstSome (i :: rest) (getGroup n)) l =
          Prog.run LoOp.exec (Prog.firstSome rest (getGroup n)) l := by
        rw [Prog.firstSome, getGroup, Prog.assoc, Prog.run_bind_some run]
        rfl
      rw [skip]
      exact ih (fun k member => bound k (List.mem_cons_of_mem i member)) clean

/-- An untargeted allocation of several huge frames changes nothing when it fails, as long as it
has nothing to undo. -/
theorem get_restores {start order : Nat} (big : 9 < order) (small : order ≤ 12)
    (inside : start < l.frames) (noUndo : NoUndo l (.get start order none)) :
    Restores l (.get start order none) := by
  have huge : order ≥ hugeOrder := big.le
  have real : childFromFrame start < divCeil l.frames childSize := by
    simp only [childFromFrame, divCeil, childSize]
    omega
  have prog : LowerCall.prog l.frames (.get start order none) =
      Prog.firstSome (candidates start order) (getGroup (2 ^ (order - 9))) >>= fun found =>
        .ret (found.getD (llfreeErr .memory)) := by
    rw [LowerCall.prog, lowerGet, Prog.assert_bind (show order ≤ treeOrder from small)]
    dsimp only
    rw [Prog.assert_bind inside, Prog.assert_bind real, if_pos huge]
    rfl
  have bound : ∀ i ∈ candidates start order, i * 2 ^ (order - 9) + 2 ^ (order - 9) ≤ l.entryCount :=
    fun i member => (candidates_inside big small inside member).2
  rw [Restores, prog]
  rcases run_clean (group_size big small).1 _ bound noUndo with ⟨f, t, run⟩ | run
  · exact ⟨llfreeOk f 0, t, by rw [Prog.run_bind_some run]; rfl, fun error => absurd rfl error⟩
  · exact ⟨llfreeErr .memory, l, by rw [Prog.run_bind_some run]; rfl, fun _ => rfl⟩

/-- Updates of several children are all-or-nothing exactly when no undo is needed, and with them
the calls for several huge frames. -/
theorem huge_update_unwinds (l : Lower) :
    (∀ base h e d, Use e d → 1 ≤ h → base % treeChildren + h ≤ treeChildren →
      base < l.entryCount → (AllOrNothing l base h e d ↔ Unwindable l base h e)) ∧
    ∀ c, hugeOrder < callOrder c → callOrder c ≤ treeOrder → InRange l.frames c →
      (NoUndo l c → Restores l c) ∧
        ((∀ start order, c ≠ .get start order none) → Restores l c → NoUndo l c) := by
  constructor
  · intro base h e d use pos tree inside
    apply allOrNothing_iff use.differ pos
    simp only [Lower.entryCount, alignUp, alignDown, treeChildren] at tree inside ⊢
    omega
  · intro c big small range
    rcases c with ⟨start, order, - | f⟩ | ⟨f, order⟩
    · exact ⟨get_restores big small range, fun targeted => absurd rfl (targeted start order)⟩
    · have both := getAt_restores (l := l) start big small range
      exact ⟨both.mpr, fun _ => both.mp⟩
    · have both := put_restores (l := l) big small range
      exact ⟨both.mpr, fun _ => both.mp⟩

/-- The search for two huge frames finds the first child free and the second one taken: it reports
a failure, the first child is taken for good and the second one is free. -/
theorem huge_update_leaks :
    ∃ l l', Prog.run LoOp.exec (lowerGet 4096 0 9 (some 512)) (lowerInit zeroed 4096 .free).2 =
        some (llfreeOk 512 0, l) ∧
      Prog.run LoOp.exec (lowerGet 4096 0 10 (some 0)) l = some (llfreeErr .memory, l') ∧
      l.children 0 = ⟨512, false⟩ ∧ l'.children 0 = ⟨0, true⟩ ∧
      l.children 1 = ⟨0, true⟩ ∧ l'.children 1 = ⟨512, false⟩ ∧
      ¬ AllOrNothing l 0 2 ⟨childSize, false⟩ ⟨0, true⟩ := by
  refine ⟨_, _, rfl, rfl, rfl, rfl, rfl, rfl, ?_⟩
  rw [allOrNothing_iff (by decide) (by decide) (by decide)]
  decide

/-- An update of two children is all-or-nothing when both are free and when the first one is taken:
it then changes nothing. -/
theorem huge_update_unwinds_both : ∃ l, Prog.run LoOp.exec (lowerGet 4096 0 9 (some 0))
      (lowerInit zeroed 4096 .free).2 = some (llfreeOk 0 0, l) ∧
    AllOrNothing (lowerInit zeroed 4096 .free).2 0 2 ⟨childSize, false⟩ ⟨0, true⟩ ∧
    Restores (lowerInit zeroed 4096 .free).2 (.get 0 10 (some 0)) ∧
    ¬ AllAre l 0 2 ⟨childSize, false⟩ ∧
    AllOrNothing l 0 2 ⟨childSize, false⟩ ⟨0, true⟩ ∧ Restores l (.get 0 10 (some 0)) := by
  refine ⟨_, rfl, ?_, ?_, by decide, ?_, ?_⟩
  · exact ((huge_update_unwinds _).1 0 2 _ _ (Or.inl ⟨rfl, rfl⟩) (by decide) (by decide)
      (by decide)).mpr (by decide)
  · exact ((huge_update_unwinds (lowerInit zeroed 4096 .free).2).2 (.get 0 10 (some 0)) (by decide)
      (by decide) (by decide : 0 < 2 ^ 63)).1 fun _ => by decide
  · exact ((huge_update_unwinds _).1 0 2 _ _ (Or.inl ⟨rfl, rfl⟩) (by decide) (by decide)
      (by decide)).mpr (by decide)
  · exact ((huge_update_unwinds _).2 (.get 0 10 (some 0)) (by decide) (by decide)
      (by decide : 0 < 2 ^ 63)).1 fun _ => by decide

/-! ## Several rows -/

/-- The bits that a toggle of `2 ^ order` frames from `index` on looks at are all as expected. -/
def BitsAre (l : Lower) (field index order : Nat) (expected : Bool) : Prop :=
  ∀ i < 2 ^ order, bitSet l (field * childSize + index + i) = expected

instance (l : Lower) (field index order : Nat) (expected : Bool) :
    Decidable (BitsAre l field index order expected) :=
  inferInstanceAs (Decidable (∀ i < 2 ^ order, _))

/-- The frames from `first` on, `n` of them, have their bits inverted; nothing else differs. -/
structure Inverted (first n : Nat) (l l' : Lower) : Prop where
  frames : l'.frames = l.frames
  children : l'.children = l.children
  bits : ∀ g, bitSet l' g = if first ≤ g ∧ g < first + n then !bitSet l g else bitSet l g

/-- A toggle succeeds exactly when its bits are as expected and then inverts exactly these bits;
otherwise it changes nothing. No assertion fails. -/
def ToggleExact (l : Lower) (field index order : Nat) (expected : Bool) : Prop :=
  if BitsAre l field index order expected then
    ∃ l', Prog.run LoOp.exec (fieldToggle field index order expected) l =
        some (llfreeErr .ok, l') ∧ Inverted (field * childSize + index) (2 ^ order) l l'
  else
    Prog.run LoOp.exec (fieldToggle field index order expected) l = some (llfreeErr .memory, l)

def fullRow (expected : Bool) : Row := if expected then BitVec.allOnes 64 else 0#64

def ToggleUnwinds (l : Lower) (field index order : Nat) (expected : Bool) : Prop :=
  order ≤ atomicOrder ∨ BitsAre l field index order expected ∨
    l.rows (field * fieldN + index / atomicSize) ≠ fullRow expected

instance (l : Lower) (field index order : Nat) (expected : Bool) :
    Decidable (ToggleUnwinds l field index order expected) :=
  inferInstanceAs (Decidable (_ ∨ _ ∨ _))

theorem getLsbD_fullRow {i : Nat} (inside : i < 64) (expected : Bool) :
    (fullRow expected).getLsbD i = expected := by
  cases expected with
  | true => rw [fullRow, if_pos rfl, BitVec.getLsbD_allOnes, decide_eq_true inside]
  | false => simp [fullRow]

theorem not_fullRow (expected : Bool) : ~~~(fullRow expected) ≠ fullRow expected := by
  cases expected with
  | true => decide
  | false => decide

theorem eq_fullRow {v : Row} {expected : Bool} :
    v = fullRow expected ↔ ∀ i < 64, v.getLsbD i = expected := by
  constructor
  · rintro rfl i inside
    exact getLsbD_fullRow inside expected
  · intro bits
    apply BitVec.eq_of_getLsbD_eq
    intro i inside
    rw [bits i inside, getLsbD_fullRow inside]

/-! ### A toggle within one row -/

private theorem pattern_iff {v : Row} {p order : Nat} {expected : Bool} (small : order ≤ 6)
    (fits : p + 2 ^ order ≤ 64) :
    v &&& rowMask p order = pattern (rowMask p order) expected ↔
      ∀ i < 2 ^ order, v.getLsbD (p + i) = expected := by
  cases expected with
  | true => exact and_rowMask_eq_mask small fits
  | false => exact and_rowMask_eq_zero small fits

private theorem flipped_bit {v : Row} {p order i : Nat} {expected : Bool} (small : order ≤ 6)
    (bits : ∀ i < 2 ^ order, v.getLsbD (p + i) = expected) (inside : i < 64) :
    (flipped v (rowMask p order) expected).getLsbD i =
      if p ≤ i ∧ i < p + 2 ^ order then !v.getLsbD i else v.getLsbD i := by
  have mask := getLsbD_rowMask (p := p) small inside
  by_cases within : p ≤ i ∧ i < p + 2 ^ order
  · have bit := bits (i - p) (by omega)
    rw [show p + (i - p) = i by omega] at bit
    rw [if_pos within]
    cases expected with
    | true => simp [flipped, mask, within, bit]
    | false => simp [flipped, mask, within, bit]
  · rw [if_neg within]
    cases expected with
    | true =>
      rw [flipped, if_pos rfl, BitVec.getLsbD_and, BitVec.getLsbD_not, mask, decide_eq_false within]
      simp [inside]
    | false => simp [flipped, mask, within]

theorem bitsAre_row {field index order : Nat} {expected : Bool} (small : order ≤ 6)
    (aligned : 2 ^ order ∣ index) : BitsAre l field index order expected ↔
      ∀ i < 2 ^ order, (l.rows (field * 8 + index / 64)).getLsbD (index % 64 + i) = expected := by
  have le : 2 ^ order ≤ 2 ^ 6 := Nat.pow_le_pow_right (by omega) small
  have fits := (row_of_index aligned).2 (by omega)
  have place : ∀ i < 2 ^ order, (field * 512 + index + i) / 64 = field * 8 + index / 64 ∧
      (field * 512 + index + i) % 64 = index % 64 + i := by
    intro i less
    omega
  unfold BitsAre bitSet
  constructor
  · intro all i less
    rw [← all i less, (place i less).1, (place i less).2]
  · intro all i less
    rw [(place i less).1, (place i less).2, all i less]

theorem inverted_row {field index order : Nat} {expected : Bool} (small : order ≤ 6)
    (aligned : 2 ^ order ∣ index) (all : BitsAre l field index order expected) :
    Inverted (field * childSize + index) (2 ^ order) l (l.setRow (field * 8 + index / 64)
      (flipped (l.rows (field * 8 + index / 64)) (rowMask (index % 64) order) expected)) := by
  have le : 2 ^ order ≤ 2 ^ 6 := Nat.pow_le_pow_right (by omega) small
  have fits := (row_of_index aligned).2 (by omega)
  refine ⟨rfl, rfl, ?_⟩
  intro g
  simp only [setRow_bitSet, childSize]
  by_cases here : g / 64 = field * 8 + index / 64
  · rw [if_pos here, flipped_bit small ((bitsAre_row small aligned).mp all)
      (Nat.mod_lt g (by omega))]
    have within : (index % 64 ≤ g % 64 ∧ g % 64 < index % 64 + 2 ^ order) ↔
        (field * 512 + index ≤ g ∧ g < field * 512 + index + 2 ^ order) := by omega
    simp only [within, bitSet, here]
  · rw [if_neg here, if_neg]
    omega

private theorem toggle_row {field index order : Nat} {expected : Bool}
    (real : field < l.childCount) (inside : index < 512) (aligned : 2 ^ order ∣ index)
    (small : order ≤ 6) : ToggleExact l field index order expected := by
  have le : 2 ^ order ≤ 2 ^ 6 := Nat.pow_le_pow_right (by omega) small
  have fits := (row_of_index aligned).2 (by omega)
  have bound : field * 8 + index / 64 < l.rowCount := by
    simp only [Lower.rowCount, fieldN]
    omega
  have prog : Prog.run LoOp.exec (fieldToggle field index order expected) l =
      if l.rows (field * 8 + index / 64) &&& rowMask (index % 64) order =
          pattern (rowMask (index % 64) order) expected then
        some (llfreeErr .ok, l.setRow (field * 8 + index / 64)
          (flipped (l.rows (field * 8 + index / 64)) (rowMask (index % 64) order) expected))
      else some (llfreeErr .memory, l) := by
    simp only [fieldToggle, childSize, atomicSize, fieldN]
    rw [Prog.assert_bind inside, if_neg (by omega)]
    simp only [rowToggleAt, Prog.step_bind, Prog.ret_bind]
    rw [run_rowToggle bound]
    rfl
  have bits : BitsAre l field index order expected ↔ _ := bitsAre_row small aligned
  unfold ToggleExact
  rw [prog]
  by_cases all : BitsAre l field index order expected
  · rw [if_pos all, if_pos ((pattern_iff small fits).mpr (bits.mp all))]
    exact ⟨_, rfl, inverted_row small aligned all⟩
  · rw [if_neg all, if_neg]
    intro same
    exact all (bits.mpr ((pattern_iff small fits).mp same))

/-! ### A toggle of whole rows -/

def setRows (l : Lower) (first n : Nat) (v : Row) : Lower :=
  { l with rows := fun r => if first ≤ r ∧ r < first + n then v else l.rows r }

theorem setRows_zero (l : Lower) (first : Nat) (v : Row) : setRows l first 0 v = l := by
  have none : ∀ r, ¬ (first ≤ r ∧ r < first + 0) := by omega
  simp only [setRows, none, if_false]

theorem setRows_succ (l : Lower) (first n : Nat) (v : Row) :
    (setRows l first n v).setRow (first + n) v = setRows l first (n + 1) v := by
  simp only [setRows, Lower.setRow]
  congr 1
  funext r
  by_cases last : r = first + n
  · subst last
    rw [Function.update_self, if_pos (by omega)]
  · rw [Function.update_of_ne last]
    have same : (first ≤ r ∧ r < first + n) ↔ (first ≤ r ∧ r < first + (n + 1)) := by omega
    simp only [same]

private theorem run_rows_all {left : Nat} {mask : Row} (base i : Nat)
    (bound : base + i + left ≤ l.rowCount) (all : ∀ r < i + left, l.rows (base + r) = mask) :
    Prog.run LoOp.exec (toggleEntries base mask i left) (setRows l base i (~~~mask)) =
      some (llfreeErr .ok, setRows l base (i + left) (~~~mask)) := by
  induction left generalizing i with
  | zero => rfl
  | succ left ih =>
    have expected : (setRows l base i (~~~mask)).rows (base + i) = mask := by
      rw [← all i (by omega)]
      exact if_neg (by omega)
    have inside : base + i < (setRows l base i (~~~mask)).rowCount :=
      show base + i < l.rowCount by omega
    simp only [toggleEntries, rowCas, Prog.step_bind, Prog.ret_bind]
    rw [run_rowCas inside, if_pos expected, if_pos rfl, setRows_succ]
    rw [show i + (left + 1) = i + 1 + left by omega] at all ⊢
    exact ih (i + 1) (by omega) all

private theorem run_rows_first {base n : Nat} {mask : Row} (pos : 0 < n)
    (bound : base < l.rowCount) (differ : l.rows base ≠ mask) :
    Prog.run LoOp.exec (toggleEntries base mask 0 n) l = some (llfreeErr .memory, l) := by
  obtain ⟨n, rfl⟩ := Nat.exists_eq_succ_of_ne_zero pos.ne'
  simp only [toggleEntries, rowCas, Prog.step_bind, Prog.ret_bind]
  rw [run_rowCas (show base + 0 < l.rowCount from bound), Nat.add_zero, if_neg differ]
  rfl

private theorem run_rows_torn {base left i : Nat} {mask : Row} (pos : 0 < i)
    (swapped : ~~~mask ≠ mask) (bound : base + i + left ≤ s.rowCount)
    (before : s.rows (base + i - 1) = ~~~mask)
    (torn : ¬ ∀ r < left, s.rows (base + i + r) = mask) :
    Prog.run LoOp.exec (toggleEntries base mask i left) s = none := by
  induction left generalizing i s with
  | zero => exact absurd (fun r less => absurd less (Nat.not_lt_zero r)) torn
  | succ left ih =>
    simp only [toggleEntries, rowCas, Prog.step_bind, Prog.ret_bind]
    rw [run_rowCas (by omega)]
    by_cases expected : s.rows (base + i) = mask
    · rw [if_pos expected, if_pos rfl]
      refine ih (Nat.succ_pos i) (show base + (i + 1) + left ≤ s.rowCount by omega) ?_ ?_
      · rw [show base + (i + 1) - 1 = base + i by omega, setRow_self]
      · intro rest
        apply torn
        intro r less
        cases r with
        | zero => exact expected
        | succ r =>
          have value := rest r (by omega)
          rw [setRow_ne s _ (by omega)] at value
          rwa [show base + i + (r + 1) = base + (i + 1) + r by omega]
    · rw [if_neg expected, if_neg (by simp)]
      obtain ⟨j, rfl⟩ := Nat.exists_eq_succ_of_ne_zero pos.ne'
      rw [List.range_succ_eq_map]
      simp only [Prog.each, Prog.step_bind]
      have last : base + (j.succ - 0 - 1) = base + j.succ - 1 := by omega
      rw [last, run_rowCas (by omega), before, if_neg swapped]
      rfl

theorem bitsAre_rows {field index order : Nat} {expected : Bool} (big : 6 < order)
    (aligned : 2 ^ order ∣ index) :
    BitsAre l field index order expected ↔
      ∀ r < 2 ^ order / 64, l.rows (field * 8 + index / 64 + r) = fullRow expected := by
  have many : 64 < 2 ^ order := Nat.pow_lt_pow_right (by omega : 1 < 2) big
  have rows := rows_of_order many
  have start := (row_of_index aligned).1 many
  unfold BitsAre bitSet
  constructor
  · intro all r less
    apply eq_fullRow.mpr
    intro i inside
    have bit := all (r * 64 + i) (by omega)
    rwa [show (field * 512 + index + (r * 64 + i)) / 64 = field * 8 + index / 64 + r by omega,
      show (field * 512 + index + (r * 64 + i)) % 64 = i by omega] at bit
  · intro all i less
    have row := all (i / 64) (by omega)
    have bit := eq_fullRow.mp row (i % 64) (Nat.mod_lt i (by omega))
    rwa [show (field * 512 + index + i) / 64 = field * 8 + index / 64 + i / 64 by omega,
      show (field * 512 + index + i) % 64 = i % 64 by omega]

private theorem run_toggle_rows {field index order : Nat} {expected : Bool} (inside : index < 512)
    (many : 64 < 2 ^ order) :
    Prog.run LoOp.exec (fieldToggle field index order expected) l =
      Prog.run LoOp.exec
        (toggleEntries (field * 8 + index / 64) (fullRow expected) 0 (2 ^ order / 64)) l := by
  simp only [fieldToggle, childSize, atomicSize, fieldN]
  rw [Prog.assert_bind inside, if_pos many]
  rfl

theorem rows_inside {field index order : Nat} (real : field < l.childCount)
    (inside : index < 512) (aligned : 2 ^ order ∣ index) (small : order ≤ 9) :
    index + 2 ^ order ≤ 512 ∧ field * 8 + index / 64 + 2 ^ order / 64 ≤ l.rowCount := by
  have fits := (block_in_child aligned small).2
  rw [Nat.mod_eq_of_lt inside] at fits
  refine ⟨fits, ?_⟩
  simp only [Lower.rowCount, fieldN]
  omega

theorem inverted_rows {field index order : Nat} {expected : Bool} (big : 6 < order)
    (aligned : 2 ^ order ∣ index) (all : BitsAre l field index order expected) :
    Inverted (field * childSize + index) (2 ^ order) l
      (setRows l (field * 8 + index / 64) (2 ^ order / 64) (~~~(fullRow expected))) := by
  have many : 64 < 2 ^ order := Nat.pow_lt_pow_right (by omega : 1 < 2) big
  have rows := rows_of_order many
  have start := (row_of_index aligned).1 many
  have all_rows := (bitsAre_rows big aligned).mp all
  refine ⟨rfl, rfl, ?_⟩
  intro g
  unfold bitSet setRows
  simp only [childSize]
  have within : (field * 8 + index / 64 ≤ g / 64 ∧
      g / 64 < field * 8 + index / 64 + 2 ^ order / 64) ↔
        (field * 512 + index ≤ g ∧ g < field * 512 + index + 2 ^ order) := by omega
  simp only [within]
  split_ifs with here
  · have row := all_rows (g / 64 - (field * 8 + index / 64)) (by omega)
    rw [show field * 8 + index / 64 + (g / 64 - (field * 8 + index / 64)) = g / 64 by omega]
      at row
    simp [row, Nat.mod_lt]
  · rfl

private theorem toggle_rows {field index order : Nat} {expected : Bool}
    (real : field < l.childCount) (inside : index < 512) (aligned : 2 ^ order ∣ index)
    (big : 6 < order) (small : order ≤ 9)
    (unwinds : BitsAre l field index order expected ∨
      l.rows (field * 8 + index / 64) ≠ fullRow expected) :
    ToggleExact l field index order expected := by
  have many : 64 < 2 ^ order := Nat.pow_lt_pow_right (by omega : 1 < 2) big
  have rows := rows_of_order many
  obtain ⟨fits, bound⟩ := rows_inside real inside aligned small
  unfold ToggleExact
  rw [run_toggle_rows inside many]
  by_cases all : BitsAre l field index order expected
  · have all_rows := (bitsAre_rows big aligned).mp all
    have run := run_rows_all (field * 8 + index / 64) 0 bound (by rw [Nat.zero_add]; exact all_rows)
    rw [setRows_zero, Nat.zero_add] at run
    rw [if_pos all]
    exact ⟨_, run, inverted_rows big aligned all⟩
  · rw [if_neg all]
    exact run_rows_first (by omega) (by omega) (unwinds.resolve_left all)

theorem run_toggle_torn {field index order : Nat} {expected : Bool}
    (real : field < l.childCount) (inside : index < 512) (aligned : 2 ^ order ∣ index)
    (small : order ≤ 9) (torn : ¬ ToggleUnwinds l field index order expected) :
    Prog.run LoOp.exec (fieldToggle field index order expected) l = none := by
  simp only [ToggleUnwinds, not_or, not_not, atomicOrder, fieldN, atomicSize, not_le] at torn
  obtain ⟨big, some_differ, first⟩ := torn
  have many : 64 < 2 ^ order := Nat.pow_lt_pow_right (by omega : 1 < 2) big
  have bound := (rows_inside real inside aligned small).2
  obtain ⟨n, count⟩ := Nat.exists_eq_succ_of_ne_zero (show 2 ^ order / 64 ≠ 0 by omega)
  rw [bitsAre_rows big aligned] at some_differ
  rw [run_toggle_rows inside many]
  rw [count] at bound some_differ ⊢
  simp only [toggleEntries, rowCas, Prog.step_bind, Prog.ret_bind]
  rw [run_rowCas (by omega), Nat.add_zero, if_pos first, if_pos rfl]
  have room : field * 8 + index / 64 + (0 + 1) + n ≤
      (l.setRow (field * 8 + index / 64) (~~~(fullRow expected))).rowCount :=
    show field * 8 + index / 64 + (0 + 1) + n ≤ l.rowCount by omega
  refine run_rows_torn (Nat.succ_pos 0) (not_fullRow expected) room (setRow_self l _ _) ?_
  intro rest
  apply some_differ
  intro r less
  cases r with
  | zero => exact first
  | succ r =>
    have value := rest r (by omega)
    rw [setRow_ne l _ (by omega)] at value
    rwa [show field * 8 + index / 64 + (r + 1) = field * 8 + index / 64 + (0 + 1) + r by omega]

theorem toggleExact_iff {field index order : Nat} {expected : Bool} (real : field < l.childCount)
    (inside : index < 512) (aligned : 2 ^ order ∣ index) (small : order ≤ 9) :
    ToggleExact l field index order expected ↔ ToggleUnwinds l field index order expected := by
  constructor
  · intro exact_
    by_contra torn
    have aborted := run_toggle_torn real inside aligned small torn
    unfold ToggleExact at exact_
    rw [aborted] at exact_
    split_ifs at exact_
    · obtain ⟨l', run, -⟩ := exact_
      cases run
  · intro unwinds
    by_cases big : 6 < order
    · exact toggle_rows real inside aligned big small (unwinds.resolve_left (by simpa using big))
    · exact toggle_row real inside aligned (by omega)

/-! ## Blocks of at most half a child -/

def NoRowUndo (l : Lower) : LowerCall → Prop
  | .get _ _ none => True
  | .get _ order (some f) => Valid l.frames f order → (l.children (f / childSize)).huge = true ∨
      (l.children (f / childSize)).free < 2 ^ order ∨
      ToggleUnwinds l (f / childSize) (f % childSize) order false
  | .put f order => Valid l.frames f order → (l.children (f / childSize)).huge = true ∨
      ToggleUnwinds l (f / childSize) (f % childSize) order true

private theorem valid_inside {N f order : Nat} (valid : Valid N f order) (cons : Consistent N l) :
    f / 512 < l.childCount ∧ f / 512 < l.entryCount := by
  have fits := valid.1
  have pos : 0 < 2 ^ order := Nat.two_pow_pos order
  have real : f / 512 < l.childCount := by
    rw [cons.backed.childCount_eq]
    simp only [childrenOf, divCeil, childSize]
    omega
  exact ⟨real, real.trans_le (childCount_le_entryCount l)⟩

/-- A targeted allocation within a child that fails changes nothing exactly when its toggle has
nothing to take back. -/
theorem getAt_restores_rows {N order f : Nat} (start : Nat) (cons : Consistent N l)
    (small : order < 9) (reach : f < 2 ^ 63) :
    Restores l (.get start order (some f)) ↔ NoRowUndo l (.get start order (some f)) := by
  obtain rfl := cons.frames
  by_cases valid : Valid l.frames f order
  swap
  · have done :=
      restores_invalid start (.get start order (some f)) (Or.inl rfl) (by omega) reach rfl valid
    exact ⟨fun _ good => absurd good valid, fun _ => done⟩
  obtain ⟨real, bound⟩ := valid_inside valid cons
  have aligned := (block_in_child valid.2 (show order ≤ 9 by omega)).1
  have inside : f % 512 < 512 := Nat.mod_lt f (by omega)
  have good : ¬ invalidFrame l.frames f order = true := by simp [invalidFrame_of_valid valid]
  have tiny : ¬ order ≥ hugeOrder := by
    simp only [hugeOrder]
    omega
  have prog : Prog.run LoOp.exec (LowerCall.prog l.frames (.get start order (some f))) l =
      if (l.children (f / 512)).huge = false ∧ 2 ^ order ≤ (l.children (f / 512)).free then
        Prog.run LoOp.exec (fieldToggle (f / 512) (f % 512) order false >>= fun ret =>
          if ret.error = .ok then pure (llfreeOk f 0)
          else do
            let undone ← childIncAt (f / 512) order
            Prog.assert (undone = true)
            return llfreeErr .memory)
          (l.setChild (f / 512) ⟨(l.children (f / 512)).free - 2 ^ order, false⟩)
      else some (llfreeErr .memory, l) := by
    rw [LowerCall.prog, lowerGet, Prog.assert_bind (show order ≤ treeOrder by
      simp only [treeOrder]
      omega)]
    rw [lowerGetAt, if_neg good]
    dsimp only
    rw [if_neg tiny]
    simp only [childFromFrame, childSize, childDecAt, Prog.step_bind, Prog.ret_bind]
    rw [run_childDec bound]
    rfl
  rw [Restores, prog]
  by_cases room : (l.children (f / 512)).huge = false ∧ 2 ^ order ≤ (l.children (f / 512)).free
  swap
  · rw [if_neg room]
    refine ⟨fun _ _ => ?_, fun _ => ⟨_, _, rfl, fun _ => rfl⟩⟩
    by_cases huge : (l.children (f / 512)).huge = true
    · exact Or.inl huge
    · exact Or.inr (Or.inl (not_le.mp fun le => room ⟨by simpa using huge, le⟩))
  rw [if_pos room]
  have le : (l.children (f / 512)).free ≤ 512 := by
    have count := (cons.small _ bound room.1).2
    omega
  constructor
  · rintro ⟨r, l', run, -⟩ -
    right
    right
    by_contra torn
    have aborted := run_toggle_torn (l := l.setChild (f / 512)
      ⟨(l.children (f / 512)).free - 2 ^ order, false⟩) real inside aligned (by omega) torn
    rw [Prog.run_bind, aborted] at run
    cases run
  · intro noUndo
    have unwinds : ToggleUnwinds
        (l.setChild (f / 512) ⟨(l.children (f / 512)).free - 2 ^ order, false⟩) (f / 512) (f % 512)
        order false := by
      rcases noUndo valid with huge | few | unwinds
      · rw [show (l.children (f / 512)).huge = false from room.1] at huge
        cases huge
      · exact absurd room.2 (not_le.mpr few)
      · exact unwinds
    have exact_ := (toggleExact_iff (l := l.setChild (f / 512)
      ⟨(l.children (f / 512)).free - 2 ^ order, false⟩) real inside aligned (by omega)).mpr unwinds
    unfold ToggleExact at exact_
    split_ifs at exact_ with all
    · obtain ⟨l', run, -⟩ := exact_
      rw [Prog.run_bind_some run]
      exact ⟨llfreeOk f 0, l', rfl, fun error => absurd rfl error⟩
    · rw [Prog.run_bind_some exact_, if_neg (by simp)]
      simp only [childIncAt, Prog.step_bind, Prog.ret_bind]
      rw [run_giveBack bound room.1 le room.2]
      exact ⟨llfreeErr .memory, l, rfl, fun _ => rfl⟩

/-- A free within a child that meets a free frame is refused, or fails the assertion of its undo. -/
theorem put_some_free {N order f : Nat} (cons : Consistent N l) (valid : Valid N f order)
    (small : order < 9) (some_free : ¬ ∀ g, Within f order g → ¬ IsFree l g) :
    (¬ ((l.children (f / 512)).huge = true ∨ ToggleUnwinds l (f / 512) (f % 512) order true) ∧
        Prog.run LoOp.exec (lowerPut N f order) l = none) ∨
      (((l.children (f / 512)).huge = true ∨ ToggleUnwinds l (f / 512) (f % 512) order true) ∧
        Prog.run LoOp.exec (lowerPut N f order) l = some (llfreeErr .memory, l)) := by
  obtain ⟨real, bound⟩ := valid_inside valid cons
  obtain ⟨aligned, fits⟩ := block_in_child valid.2 (show order ≤ 9 by omega)
  have inside : f % 512 < 512 := Nat.mod_lt f (by omega)
  obtain ⟨g, within, free⟩ : ∃ g, Within f order g ∧ IsFree l g := by
    by_contra none
    exact some_free fun g within free => none ⟨g, within, free⟩
  unfold Within at within
  have kind : (l.children (f / 512)).huge = false := by
    rw [← show g / 512 = f / 512 by omega]
    exact free.2.1
  have some_clear : ¬ BitsAre l (f / 512) (f % 512) order true := by
    intro all
    have set := all (g - f) (by omega)
    rw [show f / 512 * 512 + f % 512 + (g - f) = g by omega, free.2.2] at set
    cases set
  have good : ¬ invalidFrame N f order = true := by simp [invalidFrame_of_valid valid]
  have tiny : ¬ order ≥ hugeOrder := by
    simp only [hugeOrder]
    omega
  have prog : Prog.run LoOp.exec (lowerPut N f order) l =
      Prog.run LoOp.exec (putField (f / 512) f order) l := by
    rw [lowerPut, Prog.assert_bind (show order ≤ treeOrder by
      simp only [treeOrder]
      omega), if_neg good]
    dsimp only
    rw [if_neg tiny]
    simp only [childFromFrame, childSize, childLoad, Prog.step_bind, Prog.ret_bind]
    rw [run_childLoad bound, kind]
    rfl
  rw [prog, putField]
  by_cases unwinds : ToggleUnwinds l (f / 512) (f % 512) order true
  · right
    have exact_ := (toggleExact_iff real inside aligned (by omega)).mpr unwinds
    unfold ToggleExact at exact_
    rw [if_neg some_clear] at exact_
    refine ⟨Or.inr unwinds, ?_⟩
    rw [Prog.run_bind_some exact_]
    rfl
  · left
    have aborted := run_toggle_torn real inside aligned (show order ≤ 9 by omega) unwinds
    refine ⟨not_or.mpr ⟨by simp [kind], unwinds⟩, ?_⟩
    rw [Prog.run_bind, childSize, aborted]
    rfl

/-- A free within a child that fails changes nothing exactly when its toggle has nothing to take
back. -/
theorem put_restores_rows {N order f : Nat} (cons : Consistent N l) (small : order < 9)
    (reach : f < 2 ^ 63) : Restores l (.put f order) ↔ NoRowUndo l (.put f order) := by
  obtain rfl := cons.frames
  by_cases valid : Valid l.frames f order
  swap
  · have done := restores_invalid 0 (.put f order) (Or.inr rfl) (by omega) reach rfl valid
    exact ⟨fun _ good => absurd good valid, fun _ => done⟩
  obtain ⟨real, bound⟩ := valid_inside valid cons
  obtain ⟨aligned, fits⟩ := block_in_child valid.2 (show order ≤ 9 by omega)
  have inside : f % 512 < 512 := Nat.mod_lt f (by omega)
  by_cases allocated : ∀ g, Within f order g → ¬ IsFree l g
  · obtain ⟨l', run, -⟩ := put_allocated cons valid (Or.inl small) allocated
    refine ⟨fun _ _ => ?_, fun _ => ⟨llfreeErr .ok, l', run, fun error => absurd rfl error⟩⟩
    by_cases huge : (l.children (f / 512)).huge = true
    · exact Or.inl huge
    · refine Or.inr (Or.inr (Or.inl fun i less => ?_))
      have taken := allocated (f + i) (by unfold Within; omega)
      have here : (f + i) / 512 = f / 512 := by omega
      have set : bitSet l (f + i) = true := by
        by_contra clear
        exact taken ⟨by rwa [here], by rw [here]; simpa using huge, by simpa using clear⟩
      rwa [show f / 512 * 512 + f % 512 + i = f + i by omega]
  · rcases put_some_free cons valid small allocated with ⟨torn, aborted⟩ | ⟨kept, run⟩
    · refine ⟨fun ⟨r, l', run, _⟩ => ?_, fun noUndo => absurd (noUndo valid) torn⟩
      rw [LowerCall.prog, aborted] at run
      cases run
    · exact ⟨fun _ _ => kept, fun _ => ⟨_, _, run, fun _ => rfl⟩⟩

/-- Toggles are all-or-nothing exactly when they have no row to take back, and with them the
targeted allocations and the frees of blocks of two and of four rows. -/
theorem toggle_unwinds (l : Lower) :
    (∀ field index order expected, field < l.childCount → order ≤ childOrder →
      index < childSize → 2 ^ order ∣ index →
        (ToggleExact l field index order expected ↔ ToggleUnwinds l field index order expected)) ∧
    ∀ N, Consistent N l → ∀ f order, order = 7 ∨ order = 8 → f < 2 ^ 63 →
      (∀ start, Restores l (.get start order (some f)) ↔ NoRowUndo l (.get start order (some f))) ∧
        (Restores l (.put f order) ↔ NoRowUndo l (.put f order)) := by
  constructor
  · intro field index order expected real small inside aligned
    exact toggleExact_iff real inside aligned small
  · intro N cons f order either reach
    have small : order < 9 := by omega
    exact ⟨fun start => getAt_restores_rows start cons small reach,
      put_restores_rows cons small reach⟩

/-- A targeted allocation of 128 frames finds the first row free and the second one not: it fails
the assertion of its undo. -/
theorem toggle_aborts :
    ∃ l, Prog.run LoOp.exec (lowerGet 512 0 0 (some 64)) (lowerInit zeroed 512 .free).2 =
        some (llfreeOk 64 0, l) ∧
      bitSet l 0 = false ∧ bitSet l 64 = true ∧
      Prog.run LoOp.exec (lowerGet 512 0 7 (some 0)) l = none ∧
      ¬ ToggleExact l 0 0 7 false := by
  refine ⟨_, rfl, rfl, rfl, rfl, ?_⟩
  rw [toggleExact_iff (by decide) (by decide) (by decide) (by decide)]
  decide

/-- A toggle of two rows is all-or-nothing when all bits are free and when the first row is not: it
then changes nothing. -/
theorem toggle_unwinds_both : ∃ l, Prog.run LoOp.exec (lowerGet 512 0 0 (some 0))
      (lowerInit zeroed 512 .free).2 = some (llfreeOk 0 0, l) ∧
    ToggleExact (lowerInit zeroed 512 .free).2 0 0 7 false ∧
    Restores (lowerInit zeroed 512 .free).2 (.get 0 7 (some 0)) ∧
    bitSet l 0 = true ∧ ToggleExact l 0 0 7 false ∧ Restores l (.get 0 7 (some 0)) := by
  have cons : Consistent 512 (lowerInit zeroed 512 .free).2 := clear_consistent zeroed 512 true
  obtain ⟨r, l, run, good, -⟩ := call_refines cons (.get 0 0 (some 0))
    ⟨by decide, Or.inl (by decide), by rintro _ ⟨⟩; decide⟩
  cases run
  refine ⟨_, rfl, ?_, ?_, rfl, ?_, ?_⟩
  · exact ((toggle_unwinds _).1 0 0 7 false (by decide) (by decide) (by decide) (by decide)).mpr
      (by decide)
  · exact (((toggle_unwinds _).2 512 cons 0 7 (Or.inl rfl) (by decide)).1 0).mpr
      fun _ => Or.inr (Or.inr (by decide))
  · exact ((toggle_unwinds _).1 0 0 7 false (by decide) (by decide) (by decide) (by decide)).mpr
      (by decide)
  · exact (((toggle_unwinds _).2 512 good 0 7 (Or.inl rfl) (by decide)).1 0).mpr
      fun _ => Or.inr (Or.inr (by decide))

end LLFree.Lower.Rollback

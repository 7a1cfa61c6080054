/- module: LLFree/Lower/Crash
   digest: A call cut off after any access, and the recovery from the words that are left. -/

import LLFree.Lower.FrameSet

set_option autoImplicit false
set_option relaxedAutoImplicit false

namespace LLFree.Lower.Crash

open LLFree.Atomic.Program LLFree.Atomic.Escrow LLFree.Code.Types LLFree.Code.Entries
open LLFree.Code.Lower LLFree.Lower.Holding LLFree.Lower.Holding.Held LLFree.Lower.Steps
open LLFree.Lower.GetPut LLFree.Lower.Quiet LLFree.Lower.FrameSet

def Owned (N : Nat) : LowerCall → Lower → Prop
  | .get start order target, _ => start < N ∧ order ≤ hugeOrder ∧ target = none
  | .put frame order, l =>
    order ≤ hugeOrder ∧ Valid N frame order ∧ ∀ g, Within frame order g → ¬ IsFree l g

variable {N : Nat} {l l' : Lower}

theorem owned_complete (c : LowerCall) (l : Lower) (cons : Consistent N l) (ok : Owned N c l) :
    ∃ r l', Prog.run LoOp.exec (c.prog N) l = some (r, l') ∧ Consistent N l' := by
  cases c with
  | get start order target =>
    obtain ⟨inside, small, rfl⟩ := ok
    have args : GetArgs N start none := ⟨fun _ => inside, by simp⟩
    obtain ⟨r, l', run⟩ := get_total cons args small (Or.inr (Or.inr rfl))
    exact ⟨r, l', run, (get_sound cons args small run).1⟩
  | put frame order =>
    obtain ⟨small, valid, taken⟩ := ok
    simp only [hugeOrder] at small
    by_cases good : Puttable N frame order l
    · obtain ⟨l', run, cons', -⟩ := put_allocated cons good.1 good.2.1 good.2.2
      exact ⟨_, l', run, cons'⟩
    · have huge : order = 9 := by
        by_contra less
        exact good ⟨valid, Or.inl (by omega), taken⟩
      obtain ⟨e, -, run⟩ := put_refused cons (Or.inl valid) (Or.inr huge) good
      exact ⟨_, l, run, cons⟩

/-! ## What is held at the moment of a crash -/

/-- A call in progress holds nothing but part of one candidate block of a get, or, of what it
was given, everything but part of the block of a put. -/
def MayHold (before : Held) : LowerCall → Held → Prop
  | .get start order _, x => ∃ f, 2 ^ order ∣ f ∧ f / treeSize = start / treeSize ∧
      ∀ g, Covers x g → Within f order g
  | .put frame order, x => (∀ g, Covers x g → Covers before g) ∧
      ∀ g, Covers before g → ¬ Within frame order g → Covers x g

private theorem owned_safe (cons : Consistent N l) (c : LowerCall) (ok : Owned N c l) :
    ∃ before F, allocated l = before + F ∧
      (before = 0 ∨ ∃ frame order, c = .put frame order) ∧
      (lowerAccounting N False).Safe (MayHold before c) (c.prog N) (0 + before)
        (fun _ _ => True) := by
  cases c with
  | get start order target =>
    obtain ⟨inside, small, rfl⟩ := ok
    refine ⟨0, allocated l, (zero_add _).symm, Or.inl rfl, ?_⟩
    rw [add_zero]
    refine Accounting.safe_post (safe_lowerGet inside small fun f y aligned tree covers => ?_)
      fun _ _ _ => trivial
    rw [zero_add]
    exact ⟨f, aligned, tree, covers⟩
  | put frame order =>
    obtain ⟨small, valid, taken⟩ := ok
    simp only [hugeOrder] at small
    by_cases good : Puttable N frame order l
    · obtain ⟨before, after, F, frees, same⟩ := exists_frees cons good.1 good.2.1 good.2.2
      refine ⟨before, F, same, Or.inr ⟨frame, order, rfl⟩,
        Accounting.safe_post (safe_lowerPut valid frees fun y low high => ?_) fun _ _ _ => trivial⟩
      rw [zero_add]
      exact ⟨low, high⟩
    · have whole : order = 9 := by
        by_contra less
        exact good ⟨valid, Or.inl (by omega), taken⟩
      have size : 2 ^ order = 512 := by rw [whole]; rfl
      have bits : ∀ g, frame ≤ g → g < frame + 512 → (allocated l).bit g ≠ 0 := by
        intro g low high clear
        have real : g / 512 < childrenOf N := by
          have fits := valid.1
          simp only [childrenOf, divCeil, childSize]
          omega
        have within : Within frame order g := ⟨low, by omega⟩
        have held := not_not.mp ((isFree_iff cons.backed real).not.mp (taken g within))
        have unit : 512 ∣ frame := size ▸ valid.2
        have here : g / 512 = frame / 512 := by omega
        have huge : (l.children (frame / 512)).huge = true := by
          by_contra other
          rcases held with bit | kind
          · exact bit clear
          · refine kind ?_
            simp only [allocated, here]
            simp [other]
        exact good ⟨valid, Or.inr ⟨whole, huge⟩, taken⟩
      obtain ⟨F, same⟩ := exists_add_run bits
      refine ⟨_, F, same, Or.inr ⟨frame, order, rfl⟩,
        Accounting.safe_post (safe_lowerPut_refused whole valid ?_) fun _ _ _ => trivial⟩
      rw [zero_add]
      exact ⟨fun g held => held, fun g held _ => held⟩

def cutOff (N n : Nat) (c : LowerCall) (l : Lower) : Lower :=
  (Prog.runFor LoOp.exec n (c.prog N) l).2

private theorem cutOff_backed (cons : Consistent N l) (c : LowerCall) (ok : Owned N c l) (n : Nat) :
    ∃ before F x, allocated l = before + F ∧ (before = 0 ∨ ∃ frame order, c = .put frame order) ∧
      MayHold before c x ∧ Backed N (cutOff N n c l) (x + F) := by
  obtain ⟨before, F, same, kind, safe⟩ := owned_safe cons c ok
  have backed : Backed N l (0 + before + F) := by
    rw [zero_add, ← same]
    exact cons.backed
  obtain ⟨x, held, rest⟩ :=
    Accounting.runFor_sound n (fun stuck => stuck) (runs N False) safe backed
  exact ⟨before, F, x, same, kind, held, rest⟩

/-! ## Recovery -/

theorem with_frames (same : l.frames = N) : ({ l with frames := N } : Lower) = l := by
  subst same
  rfl

theorem recover_children {m : Held} (backed : Backed N l m) {c : Nat}
    (inside : c < l.entryCount) :
    (lowerRecover l).children c = if (l.children c).huge then ⟨0, true⟩
      else ⟨512 - fieldCountOnes l c, false⟩ := by
  simp only [lowerRecover, childNew, childSize]
  by_cases real : c < l.childCount
  · rw [if_pos real]
  · rw [if_neg real]
    have huge : (l.children c).huge = true := by
      by_contra small
      exact real (backed.small c inside (by simpa using small)).real
    have zero := (backed.huge c inside huge).zero
    rw [if_pos huge]
    cases entry : l.children c with
    | mk free kind =>
      rw [entry] at huge zero
      simp_all

theorem recover_huge {m : Held} (backed : Backed N l m) {c : Nat}
    (inside : c < l.entryCount) :
    ((lowerRecover l).children c).huge = (l.children c).huge := by
  rw [recover_children backed inside]
  cases (l.children c).huge <;> rfl

theorem recover_rows (l : Lower) {r : Nat} (small : (l.children (r / 8)).huge = false) :
    (lowerRecover l).rows r = l.rows r := by
  simp [lowerRecover, fieldN, small]

theorem recover_isFree {m : Held} (backed : Backed N l m) (g : Nat) :
    IsFree (lowerRecover l) g ↔ IsFree l g := by
  have count : (lowerRecover l).childCount = l.childCount := rfl
  simp only [IsFree, count]
  by_cases real : g / 512 < l.childCount
  · have inside := real.trans_le (childCount_le_entryCount l)
    rw [recover_huge backed inside]
    cases small : (l.children (g / 512)).huge with
    | true => simp
    | false =>
      have child : g / 64 / 8 = g / 512 := by omega
      rw [bitSet, recover_rows l (by rw [child]; exact small), bitSet]
  · simp [real]

theorem recover_consistent {m : Held} (backed : Backed N l m)
    (tail : ∀ g, N ≤ g → ¬ IsFree l g) : Consistent N (lowerRecover l) := by
  have entries : (lowerRecover l).entryCount = l.entryCount := rfl
  have count : (lowerRecover l).childCount = l.childCount := rfl
  refine ⟨backed.frames, fun c inside kind => ?_, fun c inside kind => ?_, fun g past free => ?_⟩
  · rw [entries] at inside
    rw [recover_huge backed inside] at kind
    rw [recover_children backed inside, if_pos kind, count]
    refine ⟨rfl, fun real r less => ?_⟩
    have child : (c * 8 + r) / 8 = c := by omega
    simp [lowerRecover, fieldN, child, real, kind]
  · rw [entries] at inside
    rw [recover_huge backed inside] at kind
    have same : fieldCountOnes (lowerRecover l) c = fieldCountOnes l c := by
      have rows : ∀ r < 8, (lowerRecover l).rows (c * 8 + r) = l.rows (c * 8 + r) := fun r less =>
        recover_rows l (by rw [show (c * 8 + r) / 8 = c by omega]; exact kind)
      simp only [fieldCountOnes, fieldN]
      congr 1
      exact List.map_congr_left fun r member => by rw [rows r (List.mem_range.mp member)]
    have le := fieldCountOnes_le l c
    rw [recover_children backed inside, count, same]
    refine ⟨(backed.small c inside kind).real, ?_⟩
    simp only [kind]
    simp
    omega
  · exact tail g past ((recover_isFree backed g).mp free)

theorem recover_consistent_self (cons : Consistent N l) (mode : InitMode) (same : mode = .recover) :
    (lowerInit l N mode).2 = l := by
  subst same
  simp only [lowerInit, with_frames cons.frames]
  have children : (lowerRecover l).children = l.children := by
    funext c
    by_cases inside : c < l.entryCount
    · rw [recover_children cons.backed inside]
      cases entry : l.children c with
      | mk free kind =>
        cases kind with
        | true =>
          have zero := (cons.huge c inside (by rw [entry])).1
          rw [entry] at zero
          simp_all
        | false =>
          have total := (cons.small c inside (by rw [entry])).2
          rw [entry] at total
          change free + _ = _ at total
          have value : 512 - fieldCountOnes l c = free := by omega
          simp [value]
    · have past : ¬ c < l.childCount := fun real =>
        inside (real.trans_le (childCount_le_entryCount l))
      simp [lowerRecover, past]
  have rows : (lowerRecover l).rows = l.rows := by
    funext r
    by_cases huge : r / 8 < l.childCount ∧ (l.children (r / 8)).huge = true
    · have inside := huge.1.trans_le (childCount_le_entryCount l)
      have zero := (cons.huge (r / 8) inside huge.2).2 huge.1 (r % 8) (by omega)
      have row : r / 8 * 8 + r % 8 = r := by omega
      rw [row] at zero
      simp [lowerRecover, fieldN, huge, zero]
    · simp only [lowerRecover, fieldN]
      rw [if_neg huge]
  cases l
  simp_all [lowerRecover]

def CrashSpec (S S' : Set Nat) : LowerCall → Prop
  | .get start order _ => S' ⊆ S ∧ ∃ f, 2 ^ order ∣ f ∧ f / treeSize = start / treeSize ∧
      S \ S' ⊆ blockSet f order
  | .put frame order => S ⊆ S' ∧ S' \ S ⊆ blockSet frame order

/-- Recovery after a cut-off call restores the entries, and moves no frame but those of the
block in question. -/
theorem recover_cutOff (cons : Consistent N l) (c : LowerCall) (ok : Owned N c l) (n : Nat) :
    Consistent N (lowerInit (cutOff N n c l) N .recover).2 ∧
      CrashSpec (freeSet l) (freeSet (lowerInit (cutOff N n c l) N .recover).2) c := by
  obtain ⟨before, F, x, same, kind, held, backed⟩ := cutOff_backed cons c ok n
  have old : Backed N l (before + F) := same ▸ cons.backed
  have was : ∀ g, g / 512 < childrenOf N → (IsFree l g ↔ ¬ Covers before g ∧ ¬ Covers F g) :=
    fun g real => by rw [isFree_iff old real, covers_add, not_or]
  have is : ∀ g, g / 512 < childrenOf N →
      (IsFree (cutOff N n c l) g ↔ ¬ Covers x g ∧ ¬ Covers F g) :=
    fun g real => by rw [isFree_iff backed real, covers_add, not_or]
  have gone : ∀ y : Lower, y.childCount = childrenOf N → ∀ g, IsFree y g → g / 512 < childrenOf N :=
    fun y count g free => count ▸ free.1
  simp only [lowerInit, with_frames backed.frames]
  have tail : ∀ g, N ≤ g → ¬ IsFree (cutOff N n c l) g := by
    intro g past free
    have real := gone _ backed.childCount_eq g free
    have covers := cons.tail_covers past real
    have clear := (is g real).mp free
    rw [same, covers_add] at covers
    rcases covers with mine | others
    · rcases kind with rfl | ⟨frame, order, rfl⟩
      · exact not_covers_zero g mine
      · have fits := ok.2.1.1
        refine clear.1 (held.2 g mine fun within => ?_)
        have high := within.2
        omega
    · exact clear.2 others
  refine ⟨recover_consistent backed tail, ?_⟩
  have after : freeSet (lowerRecover (cutOff N n c l)) = freeSet (cutOff N n c l) :=
    Set.ext fun g => recover_isFree backed g
  rw [after]
  cases c with
  | get start order target =>
    obtain rfl : before = 0 := by
      rcases kind with zero | ⟨frame, order, bad⟩
      · exact zero
      · cases bad
    obtain ⟨f, aligned, tree, covers⟩ := held
    refine ⟨fun g free => ?_, f, aligned, tree, fun g both => ?_⟩
    · have real := gone _ backed.childCount_eq g free
      exact (was g real).mpr ⟨not_covers_zero g, ((is g real).mp free).2⟩
    · have real := gone _ cons.backed.childCount_eq g both.1
      have clear := (was g real).mp both.1
      have mine := (is g real).not.mp both.2
      refine covers g ?_
      by_contra none
      exact mine ⟨none, clear.2⟩
  | put frame order =>
    refine ⟨fun g free => ?_, fun g both => ?_⟩
    · have real := gone _ cons.backed.childCount_eq g free
      have clear := (was g real).mp free
      exact (is g real).mpr ⟨fun mine => clear.1 (held.1 g mine), clear.2⟩
    · have real := gone _ backed.childCount_eq g both.1
      have clear := (is g real).mp both.1
      have mine := (was g real).not.mp both.2
      by_contra outside
      refine mine ⟨fun held_before => ?_, clear.2⟩
      exact clear.1 (held.2 g held_before outside)

end LLFree.Lower.Crash

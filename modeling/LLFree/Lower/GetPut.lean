/- module: LLFree/Lower/GetPut
   digest: Allocating and freeing blocks up to a huge frame while others do the same. -/

import LLFree.Lower.Fields

set_option autoImplicit false
set_option relaxedAutoImplicit false

namespace LLFree.Lower.GetPut

open LLFree.Atomic.Program LLFree.Atomic.Escrow LLFree.Code.Types LLFree.Code.Entries
open LLFree.Code.Lower LLFree.Lower.Holding LLFree.Lower.Holding.Held LLFree.Lower.Steps
open LLFree.Lower.Fields

/-! ## Blocks -/

def wholes (c n : Nat) : Held := ⟨0, 0, fun i => if c ≤ i ∧ i < c + n then {0} else 0⟩

def block (f order : Nat) : Held :=
  if order < 9 then run f (2 ^ order) else wholes (f / 512) (2 ^ (order - 9))

def Covers (m : Held) (g : Nat) : Prop := m.bit g ≠ 0 ∨ m.huge (g / 512) ≠ 0

/-- Frame `g` lies in the block of `2 ^ order` frames at `f`. -/
def Within (f order g : Nat) : Prop := f ≤ g ∧ g < f + 2 ^ order

instance (f order g : Nat) : Decidable (Within f order g) := by
  unfold Within
  infer_instance

theorem wholes_one (c : Nat) : wholes c 1 = whole c 0 := by
  refine Held.ext_at (fun i => rfl) (fun g => rfl) (fun i => ?_)
  have iff : (c ≤ i ∧ i < c + 1) ↔ i = c := by omega
  exact if_congr iff rfl rfl

theorem block_small {f order : Nat} (small : order < 9) : block f order = run f (2 ^ order) :=
  if_pos small

theorem block_huge (f : Nat) : block f 9 = whole (f / 512) 0 := by
  rw [block, if_neg (by omega)]
  exact wholes_one _

theorem covers_add {a b : Held} {g : Nat} : Covers (a + b) g ↔ Covers a g ∨ Covers b g := by
  have split : ∀ x y : Multiset Nat, x + y ≠ 0 ↔ x ≠ 0 ∨ y ≠ 0 := by
    intro x y
    rw [← Multiset.card_pos, ← Multiset.card_pos, ← Multiset.card_pos, Multiset.card_add]
    omega
  have sum : a.bit g + b.bit g ≠ 0 ↔ a.bit g ≠ 0 ∨ b.bit g ≠ 0 := by omega
  simp only [Covers, Held.add_bit, Held.add_huge, split, sum]
  tauto

theorem not_covers_zero (g : Nat) : ¬ Covers 0 g := by simp [Covers]

theorem not_covers_taken (c n g : Nat) : ¬ Covers (taken c n) g := by simp [Covers]

theorem covers_run {f n g : Nat} : Covers (run f n) g ↔ f ≤ g ∧ g < f + n := by
  simp [Covers]

theorem covers_whole {c k g : Nat} : Covers (whole c k) g ↔ g / 512 = c := by
  simp [Covers]

theorem covers_block {f order g : Nat} (aligned : 2 ^ order ∣ f) :
    Covers (block f order) g ↔ Within f order g := by
  by_cases small : order < 9
  · rw [block_small small, covers_run, Within]
  · obtain ⟨k, rfl⟩ : ∃ k, order = 9 + k := ⟨order - 9, by omega⟩
    have size : 2 ^ (9 + k) = 512 * 2 ^ k := by rw [Nat.pow_add]
    have unit : 512 ∣ f := (Nat.dvd_mul_right 512 (2 ^ k)).trans (size ▸ aligned)
    rw [block, if_neg small, Nat.add_sub_cancel_left, Within, size]
    simp only [Covers, wholes, Pi.zero_apply, ne_eq, not_true, false_or]
    split_ifs with inside
    · simp
      omega
    · simp
      omega

variable {N : Nat} {A : Prop} {C : Held → Prop} {m : Held}

theorem covers_once {l : Lower} {a b : Held} {g : Nat} (backed : Backed N l (a + b))
    (inside : g / 512 < entriesOf N) (first : Covers a g) : ¬ Covers b g := by
  intro second
  rw [← backed.entryCount_eq] at inside
  cases kind : (l.children (g / 512)).huge with
  | false =>
    have held := backed.small _ inside kind
    have bit := held.bits g rfl
    have le := Bool.toNat_le (bitSet l g)
    have size := congrArg Multiset.card held.none
    simp only [Held.add_huge, Multiset.card_add, Multiset.card_zero] at size
    simp only [Covers, ← Multiset.card_pos, Held.add_bit] at first second bit
    omega
  | true =>
    have held := backed.huge _ inside kind
    have bit := held.bits g rfl
    obtain ⟨k, -, token, -⟩ := held.rows
    have size := congrArg Multiset.card token
    simp only [Held.add_huge, Multiset.card_add, Multiset.card_singleton] at size
    simp only [Covers, ← Multiset.card_pos, Held.add_bit] at first second bit
    omega

private theorem covers_partSet {c f a b order g : Nat} (le : a + b ≤ 2 ^ order)
    (covers : Covers (run (f + a) b + taken c (2 ^ order - b)) g) : Within f order g := by
  rw [covers_add, covers_run] at covers
  rcases covers with bits | taken
  · exact ⟨by omega, by omega⟩
  · exact absurd taken (not_covers_taken _ _ _)

/-! ## `lower_get` -/

/-- Every block of the tree of `start` may be held on the way, in part or as a whole. -/
def GetCond (C : Held → Prop) (m : Held) (start order : Nat) : Prop :=
  ∀ f y, 2 ^ order ∣ f → f / 4096 = start / 4096 → (∀ g, Covers y g → Within f order g) → C (m + y)

private theorem safe_getChild {start order i : Nat} (bound : i < entriesOf N) (small : order < 9)
    (tree : i / 8 = start / 4096) (cond : GetCond C m start order) :
    (lowerAccounting N A).Safe C (getChild start order i) m
      (fun r x => match r with
        | some r => ∃ f, 2 ^ order ∣ f ∧ f / 4096 = start / 4096 ∧ r = llfreeOk f 0 ∧
            x = m + block f order
        | none => x = m) := by
  have unit : 2 ^ order ∣ i * 512 :=
    Dvd.dvd.mul_left (Nat.pow_dvd_pow 2 (show order ≤ 9 by omega)) i
  have idle : C m := by
    have held :=
      cond (i * 512) 0 unit (by omega) (fun g covers => absurd covers (not_covers_zero g))
    rwa [add_zero] at held
  refine safe_childDec bound idle ?_ ⟨idle, rfl⟩
  have mid : ∀ x, SearchMid m i order x → C x := by
    rintro x ⟨f, a, b, aligned, fits, le, rfl⟩
    rw [partSet, add_assoc]
    exact cond (i * 512 + f) _ (Nat.dvd_add unit aligned) (by omega) fun g => covers_partSet le
  change (lowerAccounting N A).Safe C (fieldSetNext i start order >>= _) _ _
  refine Accounting.safe_bind (Accounting.safe_ends
    (safe_fieldSetNext bound (by omega) mid)) ?_
  rintro r x ⟨⟨f, aligned, fits, rfl, rfl⟩ | ⟨rfl, rfl⟩, held⟩
  · refine ⟨held, i * 512 + f, Nat.dvd_add unit aligned, by omega, rfl, ?_⟩
    rw [block_small small]
  · exact safe_childInc bound held ⟨idle, rfl⟩

private theorem safe_getHuge {start i : Nat} (bound : i < entriesOf N)
    (tree : i / 8 = start / 4096) (cond : GetCond C m start 9) :
    (lowerAccounting N A).Safe C (getGroup 1 i) m
      (fun r x => match r with
        | some r => ∃ f, 2 ^ 9 ∣ f ∧ f / 4096 = start / 4096 ∧ r = llfreeOk f 0 ∧
            x = m + block f 9
        | none => x = m) := by
  have idle : C m := by
    have held := cond (i * 512) 0 (Nat.dvd_mul_left _ _) (by omega)
      (fun g covers => absurd covers (not_covers_zero g))
    rwa [add_zero] at held
  have same : i * 1 + 0 = i := by omega
  have child : i * 512 / 512 = i := by omega
  have held := cond (i * 512) (whole i 0) (Nat.dvd_mul_left _ _) (by omega) fun g covers => by
    rw [covers_whole] at covers
    constructor <;> omega
  simp only [getGroup, tryUpdateHugeN, tryUpdateHugeFrom, same]
  refine safe_takeWhole bound idle ?_ ⟨idle, rfl⟩
  refine ⟨held, i * 512, Nat.dvd_mul_left _ _, by omega, ?_, ?_⟩
  · simp [frameFromChild]
  · rw [block_huge, child]

/-- An untargeted get of at most a huge frame returns a block of the tree of its start frame,
or changes nothing. -/
theorem safe_lowerGet {start order : Nat} (inside : start < N) (small : order ≤ 9)
    (cond : GetCond C m start order) :
    (lowerAccounting N A).Safe C (lowerGet N start order none) m
      (fun r x => (∃ f, 2 ^ order ∣ f ∧ f / 4096 = start / 4096 ∧ r = llfreeOk f 0 ∧
          x = m + block f order) ∨ (r = llfreeErr .memory ∧ x = m)) := by
  have idle : C m := by
    have unit : 2 ^ order ∣ start / 4096 * 4096 :=
      Dvd.dvd.mul_left (Nat.pow_dvd_pow 2 (show order ≤ 12 by omega)) _
    have held := cond (start / 4096 * 4096) 0 unit (by omega)
      (fun g covers => absurd covers (not_covers_zero g))
    rwa [add_zero] at held
  have real : start / 512 < divCeil N 512 := by
    simp only [divCeil]
    omega
  simp only [lowerGet, childFromFrame, treeOrder, childSize, treeChildren, hugeOrder]
  refine Accounting.safe_assert (by omega) ?_
  refine Accounting.safe_assert inside ?_
  refine Accounting.safe_assert real ?_
  have entries : ∀ i, i / 8 = start / 512 / 8 → i < entriesOf N := by
    intro i tree
    simp only [entriesOf, childrenOf, alignUp, alignDown, treeChildren, childSize]
    omega
  by_cases huge : order ≥ 9
  · obtain rfl : order = 9 := by omega
    rw [if_pos huge]
    refine Accounting.safe_search idle (Or.inr ⟨rfl, rfl⟩) fun i member => ?_
    have tree := mem_forOffsetted (by omega) member
    simp only [alignDown, Nat.sub_self, Nat.pow_zero, Nat.div_one, Nat.mul_one] at tree
    refine Accounting.safe_post (safe_getHuge (entries i tree) (by omega) cond) ?_
    rintro (_ | r) x post
    · exact post
    · exact Or.inl post
  · rw [if_neg huge]
    refine Accounting.safe_search idle (Or.inr ⟨rfl, rfl⟩) fun i member => ?_
    have tree := mem_forOffsetted (by omega) member
    refine Accounting.safe_post (safe_getChild (entries i tree) (by omega) (by omega) cond) ?_
    rintro (_ | r) x post
    · exact post
    · exact Or.inl post

/-! ## Targets -/

/-- The block passes the range check. -/
def Valid (N frame order : Nat) : Prop := frame + 2 ^ order ≤ N ∧ 2 ^ order ∣ frame

instance (N frame order : Nat) : Decidable (Valid N frame order) := by
  unfold Valid
  infer_instance

theorem invalidFrame_of_valid {frame order : Nat} (valid : Valid N frame order) :
    invalidFrame N frame order = false := by
  have le : (frame + 2 ^ order) % 2 ^ 64 ≤ N := (Nat.mod_le _ _).trans valid.1
  have rest := Nat.mod_eq_zero_of_dvd valid.2
  simp only [invalidFrame, rest, bne_self_eq_false, Bool.or_false, decide_eq_false_iff_not]
  omega

theorem invalidFrame_iff {frame order : Nat} (fits : frame < 2 ^ 63) (small : order ≤ 12) :
    invalidFrame N frame order = true ↔ ¬ Valid N frame order := by
  have le : 2 ^ order ≤ 2 ^ 12 := Nat.pow_le_pow_right (by omega) small
  have same : (frame + 2 ^ order) % 2 ^ 64 = frame + 2 ^ order := Nat.mod_eq_of_lt (by omega)
  simp only [invalidFrame, same, Valid, Bool.or_eq_true, decide_eq_true_eq, bne_iff_ne, ne_eq,
    Nat.dvd_iff_mod_eq_zero]
  omega

theorem valid_child {frame order : Nat} (valid : Valid N frame order) :
    frame / 512 < childrenOf N := by
  have pos : 0 < 2 ^ order := Nat.two_pow_pos order
  have fits := valid.1
  simp only [childrenOf, divCeil, childSize]
  omega

theorem valid_entry {frame order : Nat} (valid : Valid N frame order) :
    frame / 512 < entriesOf N :=
  (valid_child valid).trans_le (childrenOf_le_entriesOf N)

theorem block_in_child {frame order : Nat} (aligned : 2 ^ order ∣ frame) (small : order ≤ 9) :
    2 ^ order ∣ frame % 512 ∧ frame % 512 + 2 ^ order ≤ 512 := by
  have unit : 2 ^ order ∣ 512 := Nat.pow_dvd_pow 2 (show order ≤ 9 from small)
  have rest : 2 ^ order ∣ frame % 512 := (Nat.dvd_mod_iff unit).mpr aligned
  refine ⟨rest, ?_⟩
  obtain ⟨a, ha⟩ := rest
  obtain ⟨b, hb⟩ := unit
  have less : frame % 512 < 512 := Nat.mod_lt _ (by omega)
  rw [ha, hb] at less
  have le_ab : a + 1 ≤ b := Nat.lt_of_mul_lt_mul_left less
  calc frame % 512 + 2 ^ order = 2 ^ order * (a + 1) := by rw [ha, Nat.mul_succ]
    _ ≤ 2 ^ order * b := Nat.mul_le_mul_left _ le_ab
    _ = 512 := hb.symm

theorem block_in_tree {f order g : Nat} (aligned : 2 ^ order ∣ f) (small : order ≤ 12)
    (within : Within f order g) : g / 4096 = f / 4096 := by
  obtain ⟨low, high⟩ := within
  have unit : 2 ^ order ∣ 4096 := Nat.pow_dvd_pow 2 (show order ≤ 12 from small)
  have rest : 2 ^ order ∣ f % 4096 := (Nat.dvd_mod_iff unit).mpr aligned
  obtain ⟨a, ha⟩ := rest
  obtain ⟨b, hb⟩ := unit
  have less : f % 4096 < 4096 := Nat.mod_lt _ (by omega)
  rw [ha, hb] at less
  have le_ab : a + 1 ≤ b := Nat.lt_of_mul_lt_mul_left less
  have fits : f % 4096 + 2 ^ order ≤ 4096 := by
    calc f % 4096 + 2 ^ order = 2 ^ order * (a + 1) := by rw [ha, Nat.mul_succ]
      _ ≤ 2 ^ order * b := Nat.mul_le_mul_left _ le_ab
      _ = 4096 := hb.symm
  omega

theorem safe_lowerGetAt {frame start order : Nat} (reach : frame < 2 ^ 63) (small : order ≤ 9)
    (row : order ≤ 6 ∨ order = 9 ∨ A)
    (cond : ∀ y, (∀ g, Covers y g → Within frame order g) → C (m + y)) :
    (lowerAccounting N A).Safe C (lowerGet N start order (some frame)) m
      (fun r x => (Valid N frame order ∧ r = llfreeOk frame 0 ∧ x = m + block frame order) ∨
        (r = llfreeErr .memory ∧ x = m) ∨
        (r = llfreeErr .argument ∧ invalidFrame N frame order = true ∧ x = m)) := by
  have idle : C m := by
    have held := cond 0 (fun g covers => absurd covers (not_covers_zero g))
    rwa [add_zero] at held
  simp only [lowerGet, treeOrder, lowerGetAt, hugeOrder, childFromFrame, childSize]
  refine Accounting.safe_assert (by omega) ?_
  by_cases bad : invalidFrame N frame order = true
  · rw [if_pos bad]
    exact ⟨idle, Or.inr (Or.inr ⟨rfl, bad, rfl⟩)⟩
  rw [if_neg bad]
  have valid : Valid N frame order := by
    rwa [invalidFrame_iff reach (by omega), not_not] at bad
  have bound := valid_entry valid
  by_cases huge : order ≥ 9
  · obtain rfl : order = 9 := by omega
    rw [if_pos huge]
    have unit : 512 ∣ frame := valid.2
    have same : frame / 512 + 0 = frame / 512 := by omega
    have held := cond (whole (frame / 512) 0) fun g covers => by
      rw [covers_whole] at covers
      constructor <;> omega
    simp only [tryUpdateHugeN, tryUpdateHugeFrom, Nat.sub_self, Nat.pow_zero, same]
    refine safe_takeWhole bound idle ?_ ⟨idle, Or.inr (Or.inl ⟨rfl, rfl⟩)⟩
    exact ⟨held, Or.inl ⟨valid, rfl, by rw [block_huge]⟩⟩
  · rw [if_neg huge]
    obtain ⟨aligned, fits⟩ := block_in_child valid.2 small
    have frame_eq : frame / 512 * 512 + frame % 512 = frame := by omega
    refine safe_childDec bound idle ?_ ⟨idle, Or.inr (Or.inl ⟨rfl, rfl⟩)⟩
    have mid : ∀ a b, a + b ≤ 2 ^ order →
        C (partSet m (frame / 512) (frame / 512 * 512 + frame % 512) a b (2 ^ order)) := by
      intro a b le
      rw [frame_eq, partSet, add_assoc]
      exact cond _ fun g => covers_partSet le
    change (lowerAccounting N A).Safe C
      (fieldToggle (frame / 512) (frame % 512) order false >>= _) _ _
    refine Accounting.safe_bind (Accounting.safe_ends
      (safe_toggle_on bound (row.imp_right fun more => more.resolve_left (by omega)) aligned
        fits mid)) ?_
    rintro r x ⟨⟨rfl, rfl⟩ | ⟨rfl, rfl⟩, held⟩
    · refine ⟨held, Or.inl ⟨valid, rfl, ?_⟩⟩
      rw [block_small (by omega), frame_eq]
    · exact safe_childInc bound held ⟨idle, Or.inr (Or.inl ⟨rfl, rfl⟩)⟩

/-! ## `lower_put` -/

def around (f order : Nat) : Held :=
  run (f / 512 * 512) (f % 512) + run (f + 2 ^ order) (512 - (f % 512 + 2 ^ order))

theorem run_around {f order : Nat} (aligned : 2 ^ order ∣ f) (small : order ≤ 9) :
    run (f / 512 * 512) 512 = around f order + run f (2 ^ order) := by
  have fits := (block_in_child aligned small).2
  have size : 512 = f % 512 + (2 ^ order + (512 - (f % 512 + 2 ^ order))) := by omega
  have frame_eq : f / 512 * 512 + f % 512 = f := by omega
  calc run (f / 512 * 512) 512 =
      run (f / 512 * 512) (f % 512 + (2 ^ order + (512 - (f % 512 + 2 ^ order)))) := by rw [← size]
    _ = around f order + run f (2 ^ order) := by
        rw [run_add, frame_eq, run_add, around, add_assoc, add_comm (run f (2 ^ order))]

theorem covers_around {f order g : Nat} (aligned : 2 ^ order ∣ f) (small : order ≤ 9) :
    Covers (around f order) g ↔ g / 512 = f / 512 ∧ ¬ Within f order g := by
  have fits := (block_in_child aligned small).2
  rw [around, covers_add, covers_run, covers_run, Within]
  omega

/-- What a caller may hold of a block it frees, and what it holds afterwards: the bits of the
block, a huge frame, or a huge frame that contains the block. -/
inductive Frees (f order : Nat) : Held → Held → Prop
  | bits (small : order < 9) : Frees f order (run f (2 ^ order)) 0
  | huge (same : order = 9) : Frees f order (whole (f / 512) 0) 0
  | split (small : order < 9) : Frees f order (whole (f / 512) 0) (around f order)

def PutCond (C : Held → Prop) (m before : Held) (f order : Nat) : Prop :=
  ∀ y, (∀ g, Covers y g → Covers before g) →
    (∀ g, Covers before g → ¬ Within f order g → Covers y g) → C (m + y)

private theorem safe_putField {f order : Nat} {rest : Held} (valid : Valid N f order)
    (small : order < 9) (cond : ∀ y, (∀ g, Covers y g → Within f order g) → C (m + rest + y)) :
    (lowerAccounting N A).Safe C (putField (f / 512) f order) (m + rest + run f (2 ^ order))
      (fun r x => r = llfreeErr .ok ∧ x = m + rest) := by
  have bound := valid_entry valid
  obtain ⟨aligned, fits⟩ := block_in_child valid.2 (show order ≤ 9 by omega)
  have frame_eq : f / 512 * 512 + f % 512 = f := by omega
  have idle : C (m + rest) := by
    have held := cond 0 (fun g covers => absurd covers (not_covers_zero g))
    rwa [add_zero] at held
  have mid : ∀ a b, a + b ≤ 2 ^ order →
      C (partSet (m + rest) (f / 512) (f / 512 * 512 + f % 512) a b (2 ^ order)) := by
    intro a b le
    rw [frame_eq, partSet, add_assoc]
    exact cond _ fun g => covers_partSet le
  have toggle : (lowerAccounting N A).Safe C (fieldToggle (f / 512) (f % 512) order true)
      (m + rest + run (f / 512 * 512 + f % 512) (2 ^ order)) _ :=
    Accounting.safe_ends (safe_toggle_off bound aligned fits mid)
  rw [frame_eq] at toggle
  refine Accounting.safe_bind toggle ?_
  rintro r x ⟨⟨rfl, rfl⟩, held⟩
  exact safe_childInc bound held ⟨idle, rfl, rfl⟩

theorem safe_lowerPut {f order : Nat} {before after : Held} (valid : Valid N f order)
    (frees : Frees f order before after) (cond : PutCond C m before f order) :
    (lowerAccounting N A).Safe C (lowerPut N f order) (m + before)
      (fun r x => r = llfreeErr .ok ∧ x = m + after) := by
  have bound := valid_entry valid
  have real := valid_child valid
  have start := cond before (fun g covers => covers) (fun g covers _ => covers)
  have good : ¬ invalidFrame N f order = true := by simp [invalidFrame_of_valid valid]
  have le : order ≤ 9 := by cases frees <;> omega
  simp only [lowerPut, treeOrder, hugeOrder, childFromFrame, childSize]
  refine Accounting.safe_assert (by omega) ?_
  rw [if_neg good]
  cases frees with
  | bits small =>
    rw [if_neg (by omega)]
    refine safe_loadSmall bound rfl (Nat.two_pow_pos order) start fun v kind => ?_
    change (lowerAccounting N A).Safe C (if v.huge = true then _ else putField _ _ _) _ _
    rw [if_neg (by simp [kind])]
    have put : (lowerAccounting N A).Safe C (putField (f / 512) f order)
        (m + 0 + run f (2 ^ order)) _ := safe_putField valid small fun y inside => by
      rw [add_zero]
      refine cond y (fun g covers => ?_) (fun g covers outside => ?_)
      · exact covers_run.mpr (inside g covers)
      · exact absurd (covers_run.mp covers) outside
    rw [add_zero] at put
    rwa [add_zero]
  | huge same =>
    subst same
    have zero : f / 512 + 0 = f / 512 := by omega
    have base : alignDown (f / 512) 1 = f / 512 := by simp [alignDown]
    rw [if_pos (le_refl 9), Nat.sub_self, Nat.pow_zero]
    simp only [base, ne_eq, not_true, if_false, tryUpdateHugeN, tryUpdateHugeFrom, zero]
    refine safe_freeWhole real start ?_
    have unit : 512 ∣ f := valid.2
    have idle :=
      cond 0 (fun g covers => absurd covers (not_covers_zero g)) fun g covers outside => by
      rw [covers_whole] at covers
      exact absurd ⟨by omega, by omega⟩ outside
    rw [add_zero] at idle ⊢
    exact ⟨idle, rfl, rfl⟩
  | split small =>
    rw [if_neg (by omega)]
    refine safe_loadWhole bound start ?_
    have split : (lowerAccounting N A).Safe C (splitHuge ⟨0, true⟩ (f / 512))
        (m + whole (f / 512) 0)
        (fun r x => r = llfreeErr .ok ∧ x = m + run (f / 512 * 512) 512) := by
      refine safe_splitHuge real (fun j _ => ?_) ?_
      · refine cond _ (fun g covers => ?_) (fun g covers _ => ?_)
        · exact covers_whole.mpr (covers_whole.mp covers)
        · exact covers_whole.mpr (covers_whole.mp covers)
      · refine cond _ (fun g covers => ?_) (fun g covers _ => ?_)
        · rw [covers_run] at covers
          exact covers_whole.mpr (by omega)
        · rw [covers_whole] at covers
          exact covers_run.mpr (by omega)
    change (lowerAccounting N A).Safe C (splitHuge ⟨0, true⟩ (f / 512) >>= _) _ _
    refine Accounting.safe_bind split ?_
    rintro r x ⟨rfl, rfl⟩
    rw [run_around valid.2 (show order ≤ 9 by omega), ← add_assoc]
    refine safe_putField valid small fun y inside => ?_
    rw [add_assoc]
    refine cond _ (fun g covers => ?_) (fun g covers outside => ?_)
    · rw [covers_add, covers_around valid.2 (by omega)] at covers
      rcases covers with rest | own
      · exact covers_whole.mpr rest.1
      · have near := inside g own
        have fits := (block_in_child valid.2 (show order ≤ 9 by omega)).2
        unfold Within at near
        exact covers_whole.mpr (by omega)
    · rw [covers_whole] at covers
      exact covers_add.mpr (Or.inl ((covers_around valid.2 (by omega)).mpr ⟨covers, outside⟩))

theorem safe_lowerPut_refused {f order : Nat} (whole : order = 9) (valid : Valid N f order)
    (cond : C (m + run f 512)) :
    (lowerAccounting N A).Safe C (lowerPut N f order) (m + run f 512)
      (fun r x => r = llfreeErr .argument ∧ x = m + run f 512) := by
  subst whole
  have bound := valid_entry valid
  have good : ¬ invalidFrame N f 9 = true := by simp [invalidFrame_of_valid valid]
  have zero : f / 512 + 0 = f / 512 := by omega
  have base : alignDown (f / 512) 1 = f / 512 := by simp [alignDown]
  simp only [lowerPut, treeOrder, hugeOrder, childFromFrame, childSize]
  rw [Prog.assert_bind (by omega), if_neg good, if_pos (le_refl 9), Nat.sub_self, Nat.pow_zero]
  simp only [base, ne_eq, not_true, if_false, tryUpdateHugeN, tryUpdateHugeFrom, zero]
  exact safe_refuseWhole bound rfl (by omega) cond ⟨cond, rfl, rfl⟩

end LLFree.Lower.GetPut

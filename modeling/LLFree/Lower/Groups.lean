/- module: LLFree/Lower/Groups
   digest: Blocks of several huge frames, as long as no attempt has to be undone. -/

import LLFree.Lower.Runs

/-!
An attempt at several huge frames that fails half way takes its children back one place too
far: the child that was in the way is set free, and the first child of the group stays taken.
Here this is ruled out, attempt by attempt.
-/

set_option autoImplicit false
set_option relaxedAutoImplicit false

namespace LLFree.Lower.Groups

open LLFree.Atomic.Program LLFree.Atomic.Escrow LLFree.Code.Types LLFree.Code.Entries
open LLFree.Code.Lower LLFree.Lower.Holding LLFree.Lower.Holding.Held LLFree.Lower.Steps
open LLFree.Lower.Fields LLFree.Lower.GetPut LLFree.Lower.Quiet LLFree.Lower.Runs

/-! ## Groups of children -/

def AllFree (l : Lower) (c n : Nat) : Prop := ∀ i < n, l.children (c + i) = ⟨childSize, false⟩

/-- The group of `n` children from `c` on starts with free children, and one that is taken as a
whole comes next. -/
def Torn (l : Lower) (c n : Nat) : Prop :=
  ∃ j < n, 0 < j ∧ AllFree l c j ∧ l.children (c + j) = ⟨0, true⟩

/-- A search of the groups of `n` children comes across a torn group before a free one. -/
def MeetsTorn (l : Lower) (n : Nat) : List Nat → Prop
  | [] => False
  | i :: rest => Torn l (i * n) n ∨ ¬ AllFree l (i * n) n ∧ MeetsTorn l n rest

/-- The groups that `lower_get` tries for a block of more than a huge frame. -/
def candidates (start order : Nat) : List Nat :=
  let n := 2 ^ (order - hugeOrder)
  forOffsetted (alignDown (childFromFrame start) n / n) (treeChildren / n)

def Spared : LowerCall → Lower → Prop
  | .get start order none, l =>
    hugeOrder < order → ¬ MeetsTorn l (2 ^ (order - hugeOrder)) (candidates start order)
  | .get _ order (some f), l =>
    hugeOrder < order → ¬ Torn l (childFromFrame f) (2 ^ (order - hugeOrder))
  | .put .., _ => True

instance (l : Lower) (c n : Nat) : Decidable (AllFree l c n) :=
  inferInstanceAs (Decidable (∀ i < n, _))

instance (l : Lower) (c n : Nat) : Decidable (Torn l c n) :=
  inferInstanceAs (Decidable (∃ j < n, _))

instance decidableMeetsTorn (l : Lower) (n : Nat) : (groups : List Nat) →
    Decidable (MeetsTorn l n groups)
  | [] => isFalse id
  | i :: rest =>
    have := decidableMeetsTorn l n rest
    inferInstanceAs (Decidable (Torn l (i * n) n ∨ ¬ AllFree l (i * n) n ∧ MeetsTorn l n rest))

instance : (c : LowerCall) → (l : Lower) → Decidable (Spared c l)
  | .get _ order none, _ => inferInstanceAs (Decidable (hugeOrder < order → _))
  | .get _ order (some _), _ => inferInstanceAs (Decidable (hugeOrder < order → _))
  | .put .., _ => isTrue trivial

variable {N : Nat} {l l' l0 : Lower} {m F : Held}

theorem wholes_zero (c : Nat) : wholes c 0 = 0 := by
  refine Held.ext_at (fun i => rfl) (fun g => rfl) fun i => ?_
  have none : ¬ (c ≤ i ∧ i < c + 0) := by omega
  simp [wholes]

theorem wholes_succ (c n : Nat) : wholes c (n + 1) = whole c 0 + wholes (c + 1) n := by
  refine Held.ext_at (fun i => rfl) (fun g => rfl) fun i => ?_
  simp only [wholes, add_huge, whole_huge]
  by_cases first : i = c
  · subst first
    simp
  · by_cases later : c + 1 ≤ i ∧ i < c + 1 + n
    · have inside : c ≤ i ∧ i < c + (n + 1) := by omega
      rw [if_pos later, if_pos inside, if_neg first, zero_add]
    · have outside : ¬ (c ≤ i ∧ i < c + (n + 1)) := by omega
      rw [if_neg later, if_neg outside, if_neg first, zero_add]

theorem allFree_succ {c n : Nat} (first : l.children c = ⟨512, false⟩) {x : Child}
    (rest : AllFree (l.setChild c x) (c + 1) n) : AllFree l c (n + 1) := by
  intro i less
  cases i with
  | zero => exact first
  | succ i =>
    have value := rest i (by omega)
    rw [setChild_ne l x (by omega)] at value
    rw [show c + (i + 1) = c + 1 + i by omega]
    exact value

/-! ## Taking a group -/

-- An attempt ends with the whole group, at its first child without a change, or at a child that is
-- taken as a whole.
private theorem run_takeFrom {base left : Nat} (j : Nat) {b : Bool} (backed : Backed N l (m + F))
    (bound : base + j + left ≤ entriesOf N)
    (run : Prog.run LoOp.exec (tryUpdateHugeFrom base ⟨512, false⟩ ⟨0, true⟩ j left) l =
      some (b, l')) :
    (b = true ∧ AllFree l (base + j) left ∧ Backed N l' (m + wholes (base + j) left + F)) ∨
      b = false ∧
        (j = 0 ∧ 0 < left ∧ l.children base ≠ ⟨512, false⟩ ∧ l' = l ∨
          ∃ i < left, 0 < j + i ∧ AllFree l (base + j) i ∧
            l.children (base + j + i) = ⟨0, true⟩) := by
  induction left generalizing j l m with
  | zero =>
    obtain ⟨rfl, rfl⟩ := Prod.mk.inj (Option.some.inj run)
    refine Or.inl ⟨rfl, fun i less => absurd less (Nat.not_lt_zero i), ?_⟩
    rwa [wholes_zero, add_zero]
  | succ left ih =>
    have inside : base + j < l.entryCount := by
      rw [backed.entryCount_eq]
      omega
    simp only [tryUpdateHugeFrom, childCas, Prog.step_bind, Prog.ret_bind] at run
    rw [run_childCas inside] at run
    by_cases free : l.children (base + j) = ⟨512, false⟩
    · rw [if_pos free, if_pos rfl] at run
      have taken := backed.takeWhole inside free
      rcases ih (j + 1) taken (by omega) run with
        ⟨done, rest, backed'⟩ | ⟨failed, ⟨bad, -⟩ | ⟨i, less, -, rest, stuck⟩⟩
      · refine Or.inl ⟨done, allFree_succ free rest, ?_⟩
        rwa [wholes_succ, ← add_assoc m]
      · omega
      · refine Or.inr ⟨failed, Or.inr ⟨i + 1, by omega, by omega, allFree_succ free rest, ?_⟩⟩
        rw [setChild_ne l _ (by omega)] at stuck
        rwa [show base + j + (i + 1) = base + (j + 1) + i by omega]
    · rw [if_neg free, if_neg Bool.false_ne_true] at run
      cases j with
      | zero =>
        obtain ⟨rfl, rfl⟩ := Prod.mk.inj (Option.some.inj run)
        exact Or.inr ⟨rfl, Or.inl ⟨rfl, Nat.succ_pos left, free, rfl⟩⟩
      | succ j =>
        -- the undo starts at the child that was in the way: only a whole one lets it pass
        rw [List.range_succ_eq_map] at run
        simp only [Prog.each, Nat.sub_zero, Prog.step_bind] at run
        rw [run_childCas inside] at run
        by_cases whole : l.children (base + (j + 1)) = ⟨0, true⟩
        · rw [if_pos whole] at run
          have failed : b = false := by
            obtain ⟨x, -, last⟩ := Option.bind_eq_some_iff.mp ((Prog.run_bind ..).symm.trans run)
            obtain ⟨rfl, -⟩ := Prod.mk.inj (Option.some.inj last)
            rfl
          exact Or.inr ⟨failed, Or.inr ⟨0, by omega, by omega, fun i less => by omega, whole⟩⟩
        · rw [if_neg whole] at run
          cases run

theorem run_takeGroup {c n : Nat} {b : Bool} (backed : Backed N l (m + F)) (pos : 0 < n)
    (bound : c + n ≤ entriesOf N) (spared : ¬ Torn l c n)
    (run : Prog.run LoOp.exec (tryUpdateHugeN c n ⟨512, false⟩ ⟨0, true⟩) l = some (b, l')) :
    (b = true ∧ Backed N l' (m + wholes c n + F)) ∨ (b = false ∧ ¬ AllFree l c n ∧ l' = l) := by
  rcases run_takeFrom 0 backed bound run with
    ⟨done, -, backed'⟩ | ⟨failed, ⟨-, -, first, same⟩ | ⟨i, less, some, free, whole⟩⟩
  · exact Or.inl ⟨done, backed'⟩
  · exact Or.inr ⟨failed, fun all => first (all 0 pos), same⟩
  · exact absurd ⟨i, less, by omega, free, whole⟩ spared

private theorem run_search {n : Nat} {r : Option Result} (backed : Backed N l (m + F)) (pos : 0 < n)
    (groups : List Nat) (bound : ∀ i ∈ groups, i * n + n ≤ entriesOf N)
    (spared : ¬ MeetsTorn l n groups)
    (run : Prog.run LoOp.exec (Prog.firstSome groups (getGroup n)) l = some (r, l')) :
    (∃ i ∈ groups, r = some (llfreeOk (i * n * 512) 0) ∧ Backed N l' (m + wholes (i * n) n + F)) ∨
      (r = none ∧ l' = l) := by
  induction groups with
  | nil =>
    obtain ⟨rfl, rfl⟩ := Prod.mk.inj (Option.some.inj run)
    exact Or.inr ⟨rfl, rfl⟩
  | cons i rest ih =>
    obtain ⟨torn, later⟩ := not_or.mp spared
    obtain ⟨x, t, first, tail⟩ := Prog.run_bind_eq_some.mp run
    obtain ⟨b, u, attempt, answer⟩ := Prog.run_bind_eq_some.mp first
    rcases run_takeGroup backed pos (bound i List.mem_cons_self) torn attempt with
      ⟨rfl, backed'⟩ | ⟨rfl, missing, rfl⟩
    · obtain ⟨rfl, rfl⟩ := Prod.mk.inj (Option.some.inj answer)
      obtain ⟨rfl, rfl⟩ := Prod.mk.inj (Option.some.inj tail)
      exact Or.inl ⟨i, List.mem_cons_self, rfl, backed'⟩
    · obtain ⟨rfl, rfl⟩ := Prod.mk.inj (Option.some.inj answer)
      rcases ih (fun k mem => bound k (List.mem_cons_of_mem i mem))
          (fun bad => later ⟨missing, bad⟩) tail with ⟨k, mem, result⟩ | none
      · exact Or.inl ⟨k, List.mem_cons_of_mem i mem, result⟩
      · exact Or.inr none

theorem group_size {order : Nat} (big : 9 < order) (small : order ≤ 12) :
    0 < 2 ^ (order - 9) ∧ 2 ^ (order - 9) * (8 / 2 ^ (order - 9)) = 8 ∧
      0 < 8 / 2 ^ (order - 9) ∧ 2 ^ order = 2 ^ (order - 9) * 512 := by
  obtain rfl | rfl | rfl : order = 10 ∨ order = 11 ∨ order = 12 := by omega
  all_goals decide

theorem candidates_inside {start order i : Nat} (big : 9 < order) (small : order ≤ 12)
    (inside : start < N) (member : i ∈ candidates start order) :
    i * 2 ^ (order - 9) / 8 = start / 4096 ∧
      i * 2 ^ (order - 9) + 2 ^ (order - 9) ≤ entriesOf N := by
  obtain ⟨pos, split, parts, -⟩ := group_size big small
  simp only [hugeOrder, candidates, childFromFrame, childSize, treeChildren] at member
  obtain ⟨n, count⟩ : ∃ n, 2 ^ (order - 9) = n := ⟨_, rfl⟩
  rw [count] at pos split parts member ⊢
  generalize 8 / n = q at *
  have tree : i / q = start / 4096 := by
    rw [mem_forOffsetted parts member, alignDown, Nat.mul_div_cancel _ pos, Nat.div_div_eq_div_mul,
      split]
    omega
  have group : i * n / 8 = i / q := by
    rw [← split, mul_comm n q, Nat.mul_div_mul_right _ _ pos]
  have less : i % q + 1 ≤ q := Nat.mod_lt i parts
  have parts' := Nat.div_add_mod i q
  have le : i * n + n ≤ 8 * (start / 4096) + 8 := by
    calc i * n + n = (q * (i / q) + (i % q + 1)) * n := by
          rw [← Nat.add_assoc, parts', Nat.add_mul, Nat.one_mul]
      _ ≤ (q * (i / q) + q) * n := Nat.mul_le_mul_right n (Nat.add_le_add_left less _)
      _ = n * q * (i / q) + n * q := by ring
      _ = 8 * (start / 4096) + 8 := by rw [split, tree]
  refine ⟨group.trans tree, ?_⟩
  simp only [entriesOf, childrenOf, alignUp, alignDown, divCeil, treeChildren, childSize]
  omega

theorem get_group {start order : Nat} {r : Result} (big : 9 < order) (small : order ≤ 12)
    (inside : start < N) (spared : Spared (.get start order none) l) (backed : Backed N l (m + F))
    (run : Prog.run LoOp.exec (lowerGet N start order none) l = some (r, l')) :
    (∃ f, 2 ^ order ∣ f ∧ f / 4096 = start / 4096 ∧ r = llfreeOk f 0 ∧
        Backed N l' (m + block f order + F)) ∨
      (r = llfreeErr .memory ∧ l' = l) := by
  obtain ⟨pos, -, -, size⟩ := group_size big small
  have huge : order ≥ hugeOrder := big.le
  have real : childFromFrame start < divCeil N childSize := by
    simp only [childFromFrame, divCeil, childSize]
    omega
  rw [lowerGet, Prog.assert_bind (show order ≤ treeOrder from small)] at run
  dsimp only at run
  rw [Prog.assert_bind inside, Prog.assert_bind real, if_pos huge] at run
  obtain ⟨found, t, search, answer⟩ := Prog.run_bind_eq_some.mp run
  obtain ⟨rfl, rfl⟩ := Prod.mk.inj (Option.some.inj answer)
  rcases run_search backed pos (candidates start order)
      (fun i member => (candidates_inside big small inside member).2) (spared big) search with
    ⟨i, member, rfl, backed'⟩ | ⟨rfl, rfl⟩
  · have tree := (candidates_inside big small inside member).1
    have child : i * 2 ^ (order - 9) * 512 / 512 = i * 2 ^ (order - 9) :=
      Nat.mul_div_cancel _ (by omega)
    refine Or.inl ⟨i * 2 ^ (order - 9) * 512, ?_, ?_, rfl, ?_⟩
    · rw [size, mul_assoc]
      exact Nat.dvd_mul_left _ _
    · omega
    · rw [block, if_neg (by omega), child]
      exact backed'
  · exact Or.inr ⟨rfl, rfl⟩

theorem get_group_at {start order f : Nat} {r : Result} (big : 9 < order)
    (small : order ≤ 12) (valid : Valid N f order) (spared : Spared (.get start order (some f)) l)
    (backed : Backed N l (m + F))
    (run : Prog.run LoOp.exec (lowerGet N start order (some f)) l = some (r, l')) :
    (r = llfreeOk f 0 ∧ Backed N l' (m + block f order + F)) ∨
      (r = llfreeErr .memory ∧ l' = l) := by
  obtain ⟨pos, -, -, size⟩ := group_size big small
  have torn := spared big
  have huge : order ≥ hugeOrder := big.le
  have good : ¬ invalidFrame N f order = true := by simp [invalidFrame_of_valid valid]
  have bound : f / 512 + 2 ^ (order - 9) ≤ entriesOf N := by
    have fits := valid.1
    simp only [entriesOf, childrenOf, alignUp, alignDown, divCeil, treeChildren, childSize]
    omega
  rw [lowerGet, Prog.assert_bind (show order ≤ treeOrder from small)] at run
  rw [lowerGetAt, if_neg good] at run
  dsimp only at run
  rw [if_pos huge] at run
  obtain ⟨b, t, attempt, answer⟩ := Prog.run_bind_eq_some.mp run
  rcases run_takeGroup backed pos bound torn attempt with ⟨rfl, backed'⟩ | ⟨rfl, -, rfl⟩
  · obtain ⟨rfl, rfl⟩ := Prod.mk.inj (Option.some.inj answer)
    refine Or.inl ⟨rfl, ?_⟩
    rw [block, if_neg (by omega)]
    exact backed'
  · obtain ⟨rfl, rfl⟩ := Prod.mk.inj (Option.some.inj answer)
    exact Or.inr ⟨rfl, rfl⟩

/-! ## Gets and puts of any order -/

theorem get_held {start order : Nat} {target : Option Nat} {r : Result} (cons : Consistent N l0)
    (reach : N ≤ 2 ^ 63) (small : order ≤ 12) (valid : ∀ f, target = some f → Valid N f order)
    (spared : Spared (.get start order target) l) (backed : Backed N l (m + allocated l0))
    (run : Prog.run LoOp.exec (lowerGet N start order target) l = some (r, l')) :
    (r.error = .ok ∧ Valid N r.frame order ∧ (∀ f, target = some f → r.frame = f) ∧
        Backed N l' (m + block r.frame order + allocated l0)) ∨
      (r.error ≠ .ok ∧ Backed N l' (m + allocated l0)) := by
  have range : ∀ f, 2 ^ order ∣ f → f / 4096 < divCeil N 4096 →
      Backed N l' (m + block f order + allocated l0) → Valid N f order := by
    intro f aligned tree backed'
    refine valid_of_covered cons backed' aligned small tree fun g within => ?_
    exact covers_add.mpr (Or.inr ((covers_block aligned).mpr within))
  have inside : target = none → start < N := fun none => start_of_run small (none ▸ run)
  by_cases big : 9 < order
  · cases target with
    | none =>
      rcases get_group big small (inside rfl) spared backed run with
        ⟨f, aligned, tree, rfl, backed'⟩ | ⟨rfl, rfl⟩
      · have here : f / 4096 < divCeil N 4096 := by
          have below := inside rfl
          simp only [divCeil]
          omega
        exact Or.inl ⟨rfl, range f aligned here backed', by simp, backed'⟩
      · exact Or.inr ⟨by simp, backed⟩
    | some f =>
      rcases get_group_at big small (valid f rfl) spared backed run with ⟨rfl, backed'⟩ | ⟨rfl, rfl⟩
      · exact Or.inl ⟨rfl, valid f rfl, by simp, backed'⟩
      · exact Or.inr ⟨by simp, backed⟩
  · have args : GetArgs N start target := by
      refine ⟨inside, fun f same => ?_⟩
      have fits := (valid f same).1
      have pos : 0 < 2 ^ order := Nat.two_pow_pos order
      omega
    have safe := safe_get True args (by omega : order ≤ 9) (Or.inr (Or.inr (Or.inr trivial)))
    rw [← zero_add m, add_assoc] at backed
    obtain ⟨x, post, backed'⟩ :=
      Accounting.run_sound (runs N True) safe backed (Prog.along_true _ _) run
    change Backed N l' (x + (m + allocated l0)) at backed'
    rcases post with ⟨f, aligned, tree, rfl, rfl, hit, -⟩ | ⟨error, rfl⟩
    · rw [zero_add, ← add_assoc, add_comm (block f order)] at backed'
      exact Or.inl ⟨rfl, range f aligned tree backed', hit, backed'⟩
    · rw [zero_add] at backed'
      refine Or.inr ⟨?_, backed'⟩
      rcases error with rfl | ⟨rfl, -⟩ <;> simp

private theorem safe_freeFrom {base left : Nat} (j : Nat) (bound : base + j + left ≤ childrenOf N) :
    (lowerAccounting N True).Ok (tryUpdateHugeFrom base ⟨0, true⟩ ⟨512, false⟩ j left)
      (m + wholes (base + j) left) (fun r x => r = true ∧ x = m) := by
  induction left generalizing j with
  | zero =>
    rw [wholes_zero, add_zero]
    exact ⟨trivial, rfl, rfl⟩
  | succ left ih =>
    rw [wholes_succ, add_comm (whole _ 0), ← add_assoc]
    simp only [tryUpdateHugeFrom, childCas, Prog.step_bind, Prog.ret_bind]
    refine safe_freeWhole (by omega) trivial ?_
    rw [if_pos rfl]
    exact ih (j + 1) (by omega)

theorem put_held {f order : Nat} {r : Result} (small : order ≤ 12) (valid : Valid N f order)
    (backed : Backed N l (m + block f order + F))
    (run : Prog.run LoOp.exec (lowerPut N f order) l = some (r, l')) :
    r.error = .ok ∧ Backed N l' (m + F) := by
  have safe : (lowerAccounting N True).Ok (lowerPut N f order) (m + block f order)
      (fun r x => r = llfreeErr .ok ∧ x = m) := by
    by_cases big : 9 ≤ order
    · have pos : 0 < 2 ^ (order - 9) := Nat.two_pow_pos _
      have size : 2 ^ order = 2 ^ (order - 9) * 512 := by
        rw [show 512 = 2 ^ 9 from rfl, ← Nat.pow_add, Nat.sub_add_cancel big]
      have good : ¬ invalidFrame N f order = true := by simp [invalidFrame_of_valid valid]
      have bound : f / 512 + 0 + 2 ^ (order - 9) ≤ childrenOf N := by
        have fits := valid.1
        simp only [childrenOf, divCeil, childSize]
        omega
      have unit : 2 ^ (order - 9) ∣ f / 512 := by
        have aligned := valid.2
        rw [size, mul_comm] at aligned
        exact Nat.dvd_div_of_mul_dvd aligned
      have base : ¬ childFromFrame f ≠ alignDown (childFromFrame f) (2 ^ (order - hugeOrder)) := by
        rw [not_not]
        exact (Nat.div_mul_cancel unit).symm
      have huge : order ≥ hugeOrder := big
      rw [lowerPut, Prog.assert_bind (show order ≤ treeOrder from small), if_neg good]
      dsimp only
      rw [if_pos huge, if_neg base, ← not_not.mp base, block, if_neg (by omega)]
      refine Accounting.safe_bind (safe_freeFrom 0 bound) ?_
      rintro r x ⟨rfl, rfl⟩
      exact ⟨trivial, rfl, rfl⟩
    · rw [block_small (by omega)]
      refine Accounting.safe_post
        (safe_lowerPut valid (Frees.bits (by omega)) fun _ _ _ => trivial) ?_
      rintro r x ⟨rfl, rfl⟩
      exact ⟨rfl, add_zero m⟩
  obtain ⟨x, ⟨rfl, rfl⟩, backed'⟩ :=
    Accounting.run_sound (runs N True) safe backed (Prog.along_true _ _) run
  exact ⟨rfl, backed'⟩

end LLFree.Lower.Groups

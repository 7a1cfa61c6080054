/- module: LLFree/Lists/Ranking
   digest: The stable ranking of a list by falling keys, and its first places kept by insertion. -/

import Mathlib.Data.List.Sort
import Mathlib.Order.Defs.LinearOrder

set_option autoImplicit false
set_option relaxedAutoImplicit false

namespace LLFree.Lists.Ranking

variable {α κ : Type} [LinearOrder κ] (key : α → κ)

def Falling (l : List α) : Prop := l.Pairwise fun a b => key b ≤ key a

def ranked (l : List α) : List α := l.mergeSort fun a b => decide (key b ≤ key a)

private theorem rank_trans (a b c : α) :
    decide (key b ≤ key a) → decide (key c ≤ key b) → decide (key c ≤ key a) := by
  simp only [decide_eq_true_eq]
  intro first second
  exact second.trans first

private theorem rank_total (a b : α) :
    (decide (key b ≤ key a) || decide (key a ≤ key b)) = true := by
  rcases le_total (key b) (key a) with first | second
  · simp [first]
  · simp [second]

theorem ranked_perm (l : List α) : (ranked key l).Perm l := List.mergeSort_perm l _

theorem ranked_falling (l : List α) : Falling key (ranked key l) := by
  apply (List.pairwise_mergeSort (rank_trans key) (rank_total key) l).imp
  intro a b before
  simpa using before

theorem filter_ranked (l : List α) (k : κ) :
    (ranked key l).filter (fun a => key a = k) = l.filter (fun a => key a = k) := by
  have tied : (l.filter (fun a => key a = k)).Pairwise fun a b => decide (key b ≤ key a) := by
    apply List.pairwise_of_forall_mem_list
    intro a here b there
    have first := of_decide_eq_true (List.mem_filter.mp here).2
    have second := of_decide_eq_true (List.mem_filter.mp there).2
    simp [first, second]
  have inside := (List.sublist_mergeSort (rank_trans key) (rank_total key) tied
    List.filter_sublist).filter (fun a => key a = k)
  rw [List.filter_filter] at inside
  simp only [Bool.and_self] at inside
  exact (inside.eq_of_length ((ranked_perm key l).filter _).length_eq.symm).symm

theorem falling_unique {l l' : List α} (falls : Falling key l) (falls' : Falling key l')
    (same : ∀ k, l.filter (fun a => key a = k) = l'.filter (fun a => key a = k)) : l = l' := by
  have member : ∀ {a : α}, a ∈ l ↔ a ∈ l' := by
    intro a
    have here := congrArg (a ∈ ·) (same (key a))
    simpa using here
  induction l generalizing l' with
  | nil =>
    cases l' with
    | nil => rfl
    | cons b l' => exact absurd (member.mpr List.mem_cons_self) (by simp)
  | cons a l ih =>
    cases l' with
    | nil => exact absurd (member.mp List.mem_cons_self) (by simp)
    | cons b l' =>
      have low : key a ≤ key b := by
        rcases List.mem_cons.mp (member.mp List.mem_cons_self) with rfl | later
        · exact le_rfl
        · exact List.rel_of_pairwise_cons falls' later
      have high : key b ≤ key a := by
        rcases List.mem_cons.mp (member.mpr List.mem_cons_self) with rfl | later
        · exact le_rfl
        · exact List.rel_of_pairwise_cons falls later
      have keys := le_antisymm low high
      have heads := same (key a)
      rw [List.filter_cons_of_pos (by simp), List.filter_cons_of_pos (by simp [keys])] at heads
      obtain ⟨rfl, -⟩ := List.cons.inj heads
      have tails : ∀ k, l.filter (fun c => key c = k) = l'.filter (fun c => key c = k) := by
        intro k
        have both := same k
        by_cases here : key a = k
        · rw [List.filter_cons_of_pos (by simpa using here),
            List.filter_cons_of_pos (by simpa using here)] at both
          exact (List.cons.inj both).2
        · rwa [List.filter_cons_of_neg (by simpa using here),
            List.filter_cons_of_neg (by simpa using here)] at both
      have later : ∀ {c : α}, c ∈ l ↔ c ∈ l' := by
        intro c
        have here := congrArg (c ∈ ·) (tails (key c))
        simpa using here
      rw [ih falls.of_cons falls'.of_cons tails later]

/-! ## Insertion -/

def insertRanked (x : α) : List α → List α
  | [] => [x]
  | b :: rest => if key b < key x then x :: b :: rest else b :: insertRanked x rest

theorem mem_insertRanked {x a : α} {l : List α} : a ∈ insertRanked key x l ↔ a = x ∨ a ∈ l := by
  induction l with
  | nil => simp [insertRanked]
  | cons b rest ih =>
    rw [insertRanked]
    split
    · simp
    · rw [List.mem_cons, ih, List.mem_cons]
      tauto

theorem insertRanked_falling {l : List α} (falls : Falling key l) (x : α) :
    Falling key (insertRanked key x l) := by
  induction l with
  | nil => simp [insertRanked, Falling]
  | cons b rest ih =>
    have low : ∀ a ∈ rest, key a ≤ key b := fun a member => List.rel_of_pairwise_cons falls member
    rw [insertRanked]
    split
    · rename_i less
      apply List.Pairwise.cons _ falls
      intro a member
      rcases List.mem_cons.mp member with rfl | later
      · exact less.le
      · exact (low a later).trans less.le
    · rename_i less
      apply List.Pairwise.cons _ (ih falls.of_cons)
      intro a member
      rcases (mem_insertRanked key).mp member with rfl | old
      · exact not_lt.mp less
      · exact low a old

theorem filter_insertRanked {l : List α} (falls : Falling key l) (x : α) (k : κ) :
    (insertRanked key x l).filter (fun a => key a = k) =
      (l ++ [x]).filter (fun a => key a = k) := by
  induction l with
  | nil => rfl
  | cons b rest ih =>
    rw [insertRanked]
    split
    · rename_i less
      -- nothing behind the new element has its key
      have none : key x = k → (b :: rest).filter (fun a => key a = k) = [] := by
        intro here
        apply List.filter_eq_nil_iff.mpr
        intro a member same
        have low : key a ≤ key b := by
          rcases List.mem_cons.mp member with rfl | later
          · exact le_rfl
          · exact List.rel_of_pairwise_cons falls later
        rw [of_decide_eq_true same, ← here] at low
        exact absurd less (not_lt.mpr low)
      by_cases here : key x = k
      · rw [List.filter_append, none here, List.filter_cons_of_pos (by simpa using here), none here]
        simp [here]
      · rw [List.filter_append, List.filter_cons_of_neg (by simpa using here)]
        simp [here]
    · rw [List.cons_append, List.filter_cons, List.filter_cons, ih falls.of_cons]

theorem ranked_append (l : List α) (x : α) :
    ranked key (l ++ [x]) = insertRanked key x (ranked key l) := by
  have falls := ranked_falling key l
  apply falling_unique key (ranked_falling key _) (insertRanked_falling key falls x)
  intro k
  rw [filter_ranked, filter_insertRanked key falls, List.filter_append, List.filter_append,
    filter_ranked]

/-! ## A bounded number of places -/

/-- The first `n` elements of `l`, and `empty` in the places that are left. -/
def places (empty : α) (n : Nat) (l : List α) : List α := (l ++ List.replicate n empty).take n

def insertPlace (x : α) : List α → List α
  | [] => []
  | b :: rest => if key b < key x then x :: (b :: rest).dropLast else b :: insertPlace x rest

theorem places_nil (empty : α) (n : Nat) : places empty n [] = List.replicate n empty := by
  rw [places, List.nil_append, List.take_of_length_le (by simp)]

theorem places_cons (empty : α) (n : Nat) (a : α) (l : List α) :
    places empty (n + 1) (a :: l) = a :: places empty n l := by
  rw [places, places, List.cons_append, List.take_succ_cons, List.replicate_succ',
    ← List.append_assoc, List.take_append_of_le_length (by simp)]

theorem dropLast_places (empty : α) (n : Nat) (l : List α) :
    (places empty (n + 1) l).dropLast = places empty n l := by
  have size : (places empty (n + 1) l).length = n + 1 := by simp [places]
  rw [List.dropLast_eq_take, size, Nat.add_sub_cancel, places, places, List.take_take,
    Nat.min_eq_left (Nat.le_succ n), List.replicate_succ', ← List.append_assoc,
    List.take_append_of_le_length (by simp)]

theorem insertPlace_places {empty x : α} (taken : key empty < key x) (n : Nat) (l : List α) :
    insertPlace key x (places empty n l) = places empty n (insertRanked key x l) := by
  induction n generalizing l with
  | zero => rfl
  | succ n ih =>
    cases l with
    | nil =>
      rw [insertRanked, places_cons, ← dropLast_places empty n [], places_nil,
        List.replicate_succ]
      exact if_pos taken
    | cons b rest =>
      rw [insertRanked]
      split
      · rename_i less
        rw [places_cons empty n x, ← dropLast_places empty n (b :: rest), places_cons]
        exact if_pos less
      · rename_i less
        rw [places_cons, places_cons, ← ih]
        exact if_neg less

end LLFree.Lists.Ranking

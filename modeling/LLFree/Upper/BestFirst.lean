/- module: LLFree/Upper/BestFirst
   digest: The bounded search over the tree array tries the best trees of all it visits, in
   order. -/

import LLFree.Lists.Ranking
import LLFree.Upper.Searches
import Mathlib.Data.Fintype.Card

set_option autoImplicit false
set_option relaxedAutoImplicit false

namespace LLFree.Upper.BestFirst

open LLFree.Code.Types LLFree.Code.Trees LLFree.Code.Shared LLFree.Code.Llfree
open LLFree.Lists.Ranking LLFree.Upper.Calls LLFree.Upper.Searches

/-! ## Positions -/

/-- The trees at the positions from `offset` to `len`, in visiting order. -/
def visited (start trees offset len : Nat) : List Nat :=
  (List.range' offset (len - offset)).map (searchIdx start trees)

theorem searchIdx_injective {start trees i j : Nat} (inside : start < trees) (left : i < trees)
    (right : j < trees) (same : searchIdx start trees i = searchIdx start trees j) : i = j := by
  have pos : 0 < trees := by omega
  let index : Fin trees → Fin trees := fun k => ⟨searchIdx start trees k, Nat.mod_lt _ pos⟩
  have onto : Function.Surjective index := by
    intro t
    obtain ⟨k, less, hit⟩ := searchIdx_onto inside t.isLt
    exact ⟨⟨k, less⟩, Fin.ext hit⟩
  have injective := Finite.injective_iff_surjective.mpr onto
  exact congrArg Fin.val (@injective ⟨i, left⟩ ⟨j, right⟩ (Fin.ext same))

theorem visited_nodup {start trees offset len : Nat} (inside : start < trees)
    (range : len ≤ trees) :
    (visited start trees offset len).Nodup := by
  apply List.Nodup.map_on _ (List.nodup_range' 1)
  intro i here j there same
  rw [List.mem_range'_1] at here there
  exact searchIdx_injective inside (by omega) (by omega) same

/-! ## The search in terms of rankings -/

/-- A tree that is kept for the end of the search, with its priority. -/
structure Candidate where
  priority : UInt8
  idx : Nat

inductive Rating where
  | skip
  | now
  | later (priority : UInt8)

def rating (rate : Nat → Nat → Policy) (tree : Tree) : Rating :=
  if tree.reserved ∨ (rate tree.cls tree.free).type = .invalid then .skip
  else if (rate tree.cls tree.free).type = .match ∧
    (rate tree.cls tree.free).priority = 255 then .now
  else .later (rate tree.cls tree.free).priority

def bestFirst (seen : List Candidate) : List Candidate := ranked (fun c => c.priority.toNat) seen

def tryInOrder (cb : Nat → UpProg Result) : List Nat → UpProg Result
  | [] => return llfreeErr .memory
  | idx :: rest => do
    let res ← cb idx
    if res.error ≠ .memory then return res else tryInOrder cb rest

/-- The search: perfect trees are tried when they are visited, the best of the others in the end. -/
def bestSearch (rate : Nat → Nat → Policy) (cb : Nat → UpProg Result) :
    List Nat → List Candidate → UpProg Result
  | [], seen => tryInOrder cb (((bestFirst seen).take treesSearchBest).map Candidate.idx)
  | idx :: rest, seen => do
    let tree ← treesLoad idx
    match rating rate tree with
    | .skip => bestSearch rate cb rest seen
    | .now => do
      let res ← cb idx
      if res.error ≠ .memory then return res else bestSearch rate cb rest seen
    | .later priority => bestSearch rate cb rest (seen ++ [⟨priority, idx⟩])

/-! ## The array of candidates -/

def Candidate.best (c : Candidate) : Best := ⟨c.priority + 1, c.idx⟩

private theorem prio_toNat {priority : UInt8} (low : priority < 255) :
    (priority + 1).toNat = priority.toNat + 1 := by
  have less : priority.toNat < 255 := UInt8.lt_iff_toNat_lt.mp low
  rw [UInt8.toNat_add]
  exact Nat.mod_eq_of_lt (Nat.succ_lt_succ less)

private theorem insertBest_place (prio : UInt8) (idx : Nat) (best : List Best) :
    insertBest prio idx best = insertPlace (fun b => b.prio.toNat) ⟨prio, idx⟩ best := by
  induction best with
  | nil => rfl
  | cons b rest ih =>
    rw [insertBest, insertPlace, ih]
    simp only [gt_iff_lt, UInt8.lt_iff_toNat_lt]

def kept (seen : List Candidate) : List Best :=
  places ⟨0, 0⟩ treesSearchBest ((bestFirst seen).map Candidate.best)

private theorem bestFirst_map {seen : List Candidate} (low : ∀ c ∈ seen, c.priority < 255) :
    (bestFirst seen).map Candidate.best =
      ranked (fun b => b.prio.toNat) (seen.map Candidate.best) := by
  apply List.map_mergeSort
  intro a here b there
  simp only [Candidate.best, prio_toNat (low a here), prio_toNat (low b there)]
  simp

theorem insert_kept {seen : List Candidate} {c : Candidate} (low : ∀ c ∈ seen, c.priority < 255)
    (last : c.priority < 255) :
    insertBest (c.priority + 1) c.idx (kept seen) = kept (seen ++ [c]) := by
  have all : ∀ d ∈ seen ++ [c], d.priority < 255 := by
    intro d member
    rcases List.mem_append.mp member with old | new
    · exact low d old
    · rw [List.mem_singleton.mp new]
      exact last
  have taken : (0 : UInt8).toNat < (c.priority + 1).toNat := by
    rw [prio_toNat last]
    exact Nat.succ_pos _
  have placed (l : List Best) : insertPlace (fun b : Best => b.prio.toNat) ⟨c.priority + 1, c.idx⟩
      (places ⟨0, 0⟩ treesSearchBest l) = places ⟨0, 0⟩ treesSearchBest
        (insertRanked (fun b : Best => b.prio.toNat) ⟨c.priority + 1, c.idx⟩ l) :=
    insertPlace_places (fun b : Best => b.prio.toNat) taken treesSearchBest l
  rw [insertBest_place, kept, kept, bestFirst_map low, bestFirst_map all, List.map_append, placed]
  exact congrArg _ (ranked_append _ _ _).symm

private theorem tryBest_places (cb : Nat → UpProg Result) (n : Nat) (l : List Candidate)
    (low : ∀ c ∈ l, c.priority < 255) :
    tryBest cb (places ⟨0, 0⟩ n (l.map Candidate.best)) =
      tryInOrder cb ((l.take n).map Candidate.idx) := by
  induction n generalizing l with
  | zero => rfl
  | succ n ih =>
    cases l with
    | nil => rfl
    | cons c rest =>
      have taken : c.priority + 1 ≠ 0 := by
        intro wraps
        have same := congrArg UInt8.toNat wraps
        rw [prio_toNat (low c List.mem_cons_self)] at same
        cases same
      rw [List.map_cons, places_cons, tryBest, List.take_succ_cons, List.map_cons, tryInOrder,
        ih rest fun d member => low d (List.mem_cons_of_mem c member)]
      exact if_neg taken

theorem scanBest_ranked {K : Config} {rate : Nat → Nat → Policy} (start : Nat)
    (cb : Nat → UpProg Result)
    (rates : ∀ cls free, ¬ ((rate cls free).type = .match ∧ (rate cls free).priority = 255) →
      (rate cls free).priority < 255)
    (positions : List Nat) (seen : List Candidate) (low : ∀ c ∈ seen, c.priority < 255) :
    scanBest K start rate cb positions (kept seen) =
      bestSearch rate cb (positions.map (searchIdx start K.treesLen)) seen := by
  induction positions generalizing seen with
  | nil =>
    apply tryBest_places
    intro c member
    exact low c ((ranked_perm _ seen).mem_iff.mp member)
  | cons i positions ih =>
    rw [scanBest, List.map_cons, bestSearch]
    apply congrArg (treesLoad (searchIdx start K.treesLen i) >>= ·)
    funext tree
    rw [rating]
    by_cases reserved : tree.reserved = true
    · rw [if_pos reserved, if_pos (Or.inl reserved)]
      exact ih seen low
    · rw [if_neg reserved]
      dsimp only
      by_cases invalid : (rate tree.cls tree.free).type = .invalid
      · rw [if_pos invalid, if_pos (Or.inr invalid)]
        exact ih seen low
      · rw [if_neg invalid, if_neg (not_or.mpr ⟨reserved, invalid⟩)]
        by_cases perfect : (rate tree.cls tree.free).type = .match ∧
            (rate tree.cls tree.free).priority = 255
        · rw [if_pos perfect, if_pos perfect, ih seen low]
        · have last := rates tree.cls tree.free perfect
          rw [if_neg perfect, if_neg perfect]
          rw [insert_kept (c := ⟨_, _⟩) low last]
          apply ih
          intro c member
          rcases List.mem_append.mp member with old | new
          · exact low c old
          · rw [List.mem_singleton.mp new]
            exact last

/-- Each position visited is a different tree. The callback is called on every perfect tree when it
is visited and after the scan on the eight best candidates, until it first returns something other
than MEMORY. -/
theorem treesSearchBest_best {K : Config} {start offset len : Nat} {rate : Nat → Nat → Policy}
    (cb : Nat → UpProg Result) (inside : start < K.treesLen)
    (range : offset ≤ len ∧ len ≤ K.treesLen)
    (rates : ∀ cls free, ¬ ((rate cls free).type = .match ∧ (rate cls free).priority = 255) →
      (rate cls free).priority < 255) :
    (visited start K.treesLen offset len).Nodup ∧
      (visited start K.treesLen offset len).length = len - offset ∧
      (∀ t ∈ visited start K.treesLen offset len, t < K.treesLen) ∧
      treesSearchBest K start offset len rate cb =
        bestSearch rate cb (visited start K.treesLen offset len) [] := by
  refine ⟨visited_nodup inside range.2, by simp [visited], ?_, ?_⟩
  · intro t member
    obtain ⟨i, -, rfl⟩ := List.mem_map.mp member
    exact searchIdx_lt (by omega)
  · have empty : kept [] = List.replicate 8 ⟨0, 0⟩ := by
      rw [kept, bestFirst, ranked, List.mergeSort_nil, List.map_nil, places_nil]
    have scan :=
      scanBest_ranked (K := K) start cb rates (List.range' offset (len - offset)) [] (by simp)
    rw [empty] at scan
    exact scan

/-- From tree 1 of three the search of a steal visits tree 1, then tree 0, then tree 2. -/
theorem treesSearchBest_best_first :
    visited 1 3 0 3 = [1, 0, 2] ∧
      treesSearchBest ⟨12288, llfreeClassingSimple 1⟩ 1 0 3
          (rateGlobalTree ⟨12288, llfreeClassingSimple 1⟩ 0 1)
          (stealCb 0 0) =
        bestSearch (rateGlobalTree ⟨12288, llfreeClassingSimple 1⟩ 0 1) (stealCb 0 0)
          [1, 0, 2] [] := by
  refine ⟨by decide, (treesSearchBest_best (stealCb 0 0) (by decide) (by decide) ?_).2.2.2⟩
  intro cls free kept
  simp only [rateGlobalTree, Config.policy, llfreeClassingSimple, llfreeSimplePolicy] at kept ⊢
  split_ifs at kept ⊢ <;> simp_all

end LLFree.Upper.BestFirst

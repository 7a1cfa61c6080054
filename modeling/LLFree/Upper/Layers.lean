/- module: LLFree/Upper/Layers
   digest: The words of the lower allocator carry out its calls, whatever happens in between. -/

import LLFree.Code.Stack
import LLFree.Upper.Lending

set_option autoImplicit false
set_option relaxedAutoImplicit false

namespace LLFree.Upper.Layers

open LLFree.Atomic.Escrow LLFree.Atomic.Refinement LLFree.Code.Types LLFree.Code.Entries
open LLFree.Code.Lower LLFree.Code.Shared LLFree.Code.Stack LLFree.Lower.Holding
open LLFree.Lower.Holding.Held LLFree.Lower.Steps LLFree.Lower.GetPut LLFree.Lower.Quiet
open LLFree.Lower.FrameSet LLFree.Upper.Slots LLFree.Upper.Steps LLFree.Upper.Sequential
open LLFree.Upper.Blocks LLFree.Upper.Overwritten LLFree.Upper.Lending

/-- What is allocated and no client's: nothing in flight, no split under way, and all that lies
past the last frame. -/
structure Leftover (N : Nat) where
  held : Held
  credit : held.credit = 0
  whole : ∀ c, ∀ k ∈ held.huge c, k = 0
  outside : ∀ g, N ≤ g → g / 512 < entriesOf N → Covers held g

namespace Leftover

variable {N : Nat}

def frames (base : Leftover N) : Set Nat := {g | Covers base.held g}

def ofConsistent {l : Lower} (cons : Consistent N l) : Leftover N where
  held := allocated l
  credit := rfl
  whole c k member := by
    simp only [allocated] at member
    split_ifs at member
    · exact Multiset.mem_singleton.mp member
    · exact absurd member (Multiset.notMem_zero k)
  outside _ past inside := cons.outside_covers past inside

end Leftover

def heldOf (l : Loans) : Held := (l.map fun b => block b.1 b.2).sum

theorem heldOf_cons (b : Nat × Nat) (l : Loans) : heldOf (b ::ₘ l) = block b.1 b.2 + heldOf l := by
  rw [heldOf, Multiset.map_cons, Multiset.sum_cons]
  rfl

theorem heldOf_add (l l' : Loans) : heldOf (l + l') = heldOf l + heldOf l' := by
  rw [heldOf, Multiset.map_add, Multiset.sum_add]
  rfl

variable {K : Config} {W : Drift K} {base : Leftover K.frames}

/-- The words are explained by the blocks that are out, what is left over, and what the calls in
progress hold back. -/
structure Explained (K : Config) (base : Leftover K.frames) (s : Llfree Lower) (x : Llfree Loans)
    (m : Held) : Prop where
  upper : s.upper = x.upper
  backed : Backed K.frames s.lower (m + (heldOf x.lower + base.held))
  separate : Separate K.frames base.frames x.lower

theorem covers_heldOf {l : Loans} (aligned : ∀ b ∈ l, 2 ^ b.2 ∣ b.1) {g : Nat} :
    Covers (heldOf l) g ↔ ∃ b ∈ l, Within b.1 b.2 g := by
  induction l using Multiset.induction_on with
  | empty => simp [heldOf, not_covers_zero]
  | cons b l ih =>
    rw [heldOf_cons, covers_add, covers_block (aligned b (Multiset.mem_cons_self b l)),
      ih fun c member => aligned c (Multiset.mem_cons_of_mem member)]
    simp only [Multiset.mem_cons, exists_eq_or_imp]

section Explained

variable {s : Llfree Lower} {x : Llfree Loans} {m : Held}

theorem free_of_explained (rel : Explained K base s x m) :
    freeSet s.lower ⊆ freeOf K.frames base.frames x.lower := by
  intro g free
  have real : g / 512 < childrenOf K.frames := by
    rw [← rel.backed.childCount_eq]
    exact free.1
  have none := (isFree_iff rel.backed real).mp free
  rw [covers_add, covers_add, covers_heldOf fun b own => (rel.separate.valid b own).2] at none
  refine ⟨?_, fun left => none (Or.inr (Or.inr left)), fun b own within =>
    none (Or.inr (Or.inl ⟨b, own, within⟩))⟩
  by_contra past
  exact none (Or.inr (Or.inr (base.outside g (Nat.le_of_not_lt past)
    (real.trans_le (childrenOf_le_entriesOf _)))))

theorem free_eq_of_explained (rel : Explained K base s x 0) :
    freeSet s.lower = freeOf K.frames base.frames x.lower := by
  apply (free_of_explained rel).antisymm
  rintro g ⟨below, left, out⟩
  have real : g / 512 < childrenOf K.frames := by
    simp only [childrenOf, divCeil, childSize]
    omega
  refine (isFree_iff rel.backed real).mpr fun covers => ?_
  rw [zero_add, covers_add, covers_heldOf fun b own => (rel.separate.valid b own).2] at covers
  rcases covers with ⟨b, own, within⟩ | kept
  · exact out b own within
  · exact left kept

theorem credit_heldOf (l : Loans) (c : Nat) : (heldOf l).credit c = 0 := by
  induction l using Multiset.induction_on with
  | empty => rfl
  | cons b l ih =>
    rw [heldOf_cons, add_credit, ih, add_zero]
    unfold block
    split_ifs <;> rfl

theorem whole_heldOf (l : Loans) (c k : Nat) (member : k ∈ (heldOf l).huge c) : k = 0 := by
  induction l using Multiset.induction_on with
  | empty => exact absurd member (Multiset.notMem_zero k)
  | cons b l ih =>
    rw [heldOf_cons, add_huge, Multiset.mem_add] at member
    rcases member with mine | others
    · unfold block wholes at mine
      split_ifs at mine
      · exact absurd mine (Multiset.notMem_zero k)
      · dsimp only at mine
        split_ifs at mine
        · exact Multiset.mem_singleton.mp mine
        · exact absurd mine (Multiset.notMem_zero k)
    · exact ih others

theorem consistent_of_explained (rel : Explained K base s x 0) : Consistent K.frames s.lower := by
  have backed := rel.backed
  rw [zero_add] at backed
  refine consistent_of_backed backed (fun c => ?_) (fun c k token => ?_) fun g past real => ?_
  · rw [add_credit, credit_heldOf, base.credit]
    rfl
  · have member : k ∈ (heldOf x.lower + base.held).huge c := by
      rw [token]
      exact Multiset.mem_singleton_self k
    rw [add_huge, Multiset.mem_add] at member
    exact member.elim (whole_heldOf x.lower c k) (base.whole c k)
  · exact covers_add.mpr (Or.inr (base.outside g past (real.trans_le (childrenOf_le_entriesOf _))))

end Explained

def stackSys (W : Drift K) : Sys WordOp WordOp.Res (Llfree Lower) where
  next
    | .table (.treesSteal idx n cls), s, r, s' => ∃ c, W.leaves n cls c ∧
      WordOp.exec K (.table (.treesSteal idx n c)) s = some (r, s')
    | o, s, r, s' => WordOp.exec K o s = some (r, s')
  fails o s := WordOp.exec K o s = none

theorem stackSys_exec {o : WordOp} {r : o.Res} {s s' : Llfree Lower}
    (done : WordOp.exec K o s = some (r, s')) : (stackSys W).next o s r s' := by
  cases o with
  | table o =>
    cases o with
    | treesSteal idx n cls => exact ⟨cls, W.own n cls, done⟩
    | _ => exact done
  | _ => exact done

def layer (W : Drift K) (base : Leftover K.frames) :
    Layer UpOp UpOp.Res (Llfree Loans) WordOp WordOp.Res (Llfree Lower) Held where
  abs := lendingSys W base.frames
  sys := stackSys W
  impl := UpOp.words K
  rel := Explained K base

/-! ## Calls of the lower allocator -/

theorem safe_lowerWords {α : Type} {p : LoProg α} {m : Held} {Q : α → Held → Prop}
    (safe : (lowerAccounting K.frames False).Ok p m Q) :
    (layer W base).accounting.Ok (lowerWords p) m Q := by
  induction p generalizing m with
  | ret a => exact safe
  | abort => exact safe
  | step o k ih =>
    refine ⟨trivial, fun t F inv => ?_⟩
    obtain ⟨s, x⟩ := t
    have rel : Explained K base s x (m + F) := inv
    have inv : Backed K.frames s.lower (m + (F + (heldOf x.lower + base.held))) := by
      rw [← add_assoc]
      exact rel.backed
    obtain ⟨fine, moves⟩ := safe.2 s.lower _ inv
    refine ⟨fun stuck => fine (Option.map_eq_none_iff.mp stuck), ?_⟩
    rintro r ⟨s', x'⟩ ⟨done, same⟩
    obtain rfl : x' = x := same
    obtain ⟨y, step, here⟩ := Option.map_eq_some_iff.mp done
    obtain ⟨rfl, rfl⟩ := Prod.mk.inj here
    obtain ⟨m', inv', -, rest⟩ := moves y.1 y.2 step
    refine ⟨m', ⟨rel.upper, ?_, rel.separate⟩, rfl, ih y.1 rest⟩
    rw [add_assoc]
    exact inv'

private theorem fresh_block {s : Llfree Lower} {x : Llfree Loans} {f order : Nat} {F : Held}
    (rel : Explained K base s x (block f order + F)) (small : order ≤ hugeOrder)
    (aligned : 2 ^ order ∣ f) (near : f / 4096 < divCeil K.frames 4096) :
    Valid K.frames f order ∧ blockSet f order ⊆ freeOf K.frames base.frames x.lower := by
  have inv : Backed K.frames s.lower (block f order + (F + (heldOf x.lower + base.held))) := by
    rw [← add_assoc]
    exact rel.backed
  have inside : ∀ g, Within f order g → g / 512 < entriesOf K.frames :=
    block_entries (small.trans (by decide)) aligned near
  have alone : ∀ g, Within f order g → ¬ Covers (heldOf x.lower) g ∧ ¬ Covers base.held g := by
    intro g within
    have once := covers_once inv (inside g within) ((covers_block aligned).mpr within)
    rw [covers_add, covers_add] at once
    tauto
  have below : ∀ g, Within f order g → g < K.frames := by
    intro g within
    by_contra past
    exact (alone g within).2 (base.outside g (Nat.le_of_not_lt past) (inside g within))
  have pos : 0 < 2 ^ order := Nat.two_pow_pos order
  have last := below (f + 2 ^ order - 1) ⟨by omega, by omega⟩
  refine ⟨⟨by omega, aligned⟩,
    fun g within => ⟨below g within, (alone g within).2, fun b own both => ?_⟩⟩
  obtain ⟨rest, same⟩ := Multiset.exists_cons_of_mem own
  refine (alone g within).1 ?_
  rw [same, heldOf_cons]
  exact covers_add.mpr (Or.inl ((covers_block (rel.separate.valid b own).2).mpr both))

private theorem get_lands {start f order : Nat} {target : Option Nat} (small : order ≤ hugeOrder)
    (aligned : 2 ^ order ∣ f) (near : f / 4096 < divCeil K.frames 4096)
    (tree : target = none → f / treeSize = start / treeSize) (hit : ∀ t, target = some t → f = t) :
    (layer W base).Lands (.lower (.get start order target)) (llfreeOk f 0) (block f order) := by
  intro s x F rel
  obtain ⟨valid, free⟩ := fresh_block rel small aligned near
  refine ⟨{ x with lower := (f, order) ::ₘ x.lower },
    ⟨_, Or.inl ⟨f, rfl, rfl, valid, free, tree, hit⟩, rfl⟩, rel.upper, ?_,
    rel.separate.cons small valid free⟩
  have backed := rel.backed
  rw [heldOf_cons]
  rwa [add_comm (block f order) F, add_assoc, ← add_assoc (block f order)] at backed

private theorem miss_lands {start order : Nat} {target : Option Nat} :
    (layer W base).Lands (.lower (.get start order target)) (llfreeErr .memory) 0 := by
  intro s x F rel
  rw [zero_add] at rel
  exact ⟨x, ⟨x.lower, Or.inr ⟨rfl, rfl⟩, rfl⟩, rel⟩

private theorem get_pending {start order : Nat} {target : Option Nat} (fits : Fits K)
    (asked : Asked K.frames (· ≤ hugeOrder) (.get start order target))
    (served : Served order target) :
    (layer W base).Pending (.lower (.get start order target))
      (UpOp.words K (.lower (.get start order target))) 0 := by
  obtain ⟨inside, small, valid⟩ := asked
  apply Layer.pending_of_ok
  apply safe_lowerWords
  cases target with
  | none =>
    refine Accounting.safe_post (safe_lowerGet inside small fun _ _ _ _ _ => trivial) ?_
    rintro r y (⟨f, aligned, near, rfl, rfl⟩ | ⟨rfl, rfl⟩)
    · rw [zero_add]
      refine get_lands small aligned ?_ (fun _ => near) (by simp)
      simp only [divCeil]
      omega
    · exact miss_lands
  | some t =>
    have whole := valid t rfl
    have pos : 0 < 2 ^ order := Nat.two_pow_pos order
    have reach : t < 2 ^ 63 := by
      have below := whole.1
      unfold Fits at fits
      omega
    have row : order ≤ 6 ∨ order = 9 ∨ False :=
      (served.2 (by simp)).imp_right fun huge => Or.inl huge
    have safe : (lowerAccounting K.frames False).Ok (lowerGet K.frames start order (some t)) 0 _ :=
      safe_lowerGetAt reach small row fun _ _ => trivial
    refine Accounting.safe_post safe ?_
    rintro r y (⟨-, rfl, rfl⟩ | ⟨rfl, rfl⟩ | ⟨-, bad, -⟩)
    · rw [zero_add]
      refine get_lands small whole.2 ?_ (by simp) fun u same => Option.some.inj same
      have below := whole.1
      simp only [divCeil]
      omega
    · exact miss_lands
    · rw [invalidFrame_of_valid whole] at bad
      cases bad

private theorem put_early {frame order : Nat} {s : Llfree Lower} {x : Llfree Loans} {F : Held}
    (rel : Explained K base s x F) (own : (frame, order) ∈ x.lower) :
    (layer W base).Early (.lower (.put frame order)) s x F := by
  have small : order ≤ hugeOrder := rel.separate.small _ own
  have valid : Valid K.frames frame order := rel.separate.valid _ own
  have frees : Frees frame order (block frame order) 0 := by
    by_cases huge : order = 9
    · subst huge
      rw [block_huge]
      exact .huge rfl
    · have less : order < 9 := by
        simp only [hugeOrder] at small
        omega
      rw [block_small less]
      exact .bits less
  refine ⟨llfreeErr .ok, { x with lower := x.lower.erase (frame, order) }, block frame order,
    ⟨_, Or.inl ⟨own, rfl, rfl⟩, rfl⟩, ⟨rel.upper, ?_, rel.separate.erase _⟩, ?_⟩
  · obtain ⟨rest, same⟩ := Multiset.exists_cons_of_mem own
    have backed := rel.backed
    rw [same, heldOf_cons] at backed
    dsimp only
    rw [same, Multiset.erase_cons_head]
    rwa [add_comm (block frame order) F, add_assoc, ← add_assoc (block frame order)]
  · apply safe_lowerWords
    have safe := safe_lowerPut (A := False) (C := fun _ => True) (m := 0) valid frees
      fun _ _ _ => trivial
    rw [zero_add] at safe
    refine Accounting.safe_post safe ?_
    rintro r y ⟨rfl, rfl⟩
    exact ⟨rfl, add_zero 0⟩

/-! ## Accesses to trees and slots -/

private theorem table_next {o : TableOp} {r : o.Res} {s s' : Llfree Lower} {x : Llfree Loans}
    (same : s.upper = x.upper) (next : (stackSys W).next (.table o) s r s') :
    ∃ u, (lendingSys W base.frames).next (.table o) x r { x with upper := u } ∧
      s' = { s with upper := u } := by
  have carry : ∀ {o' : TableOp} {r' : o'.Res}, WordOp.exec K (.table o') s = some (r', s') →
      ∃ u, o'.exec K x.upper = some (r', u) ∧ s' = { s with upper := u } := by
    intro o' r' done
    obtain ⟨y, step, here⟩ := Option.map_eq_some_iff.mp done
    obtain ⟨rfl, rfl⟩ := Prod.mk.inj here
    exact ⟨y.2, same ▸ step, rfl⟩
  cases o with
  | treesSteal idx n cls =>
    obtain ⟨c, left, done⟩ := next
    obtain ⟨u, step, here⟩ := carry done
    exact ⟨u, ⟨c, left, u, step, rfl⟩, here⟩
  | _ =>
    obtain ⟨u, step, here⟩ := carry next
    exact ⟨u, ⟨u, step, rfl⟩, here⟩

private theorem table_pending (o : TableOp) :
    (layer W base).Pending (.table o) (UpOp.words K (.table o)) 0 := by
  intro s x F (rel : Explained K base s x (0 + F)) fine
  rw [zero_add] at rel
  have alive : o.exec K s.upper ≠ none := by
    intro stuck
    rw [rel.upper] at stuck
    refine fine (Or.inl ?_)
    cases o with
    | treesUnreserve idx free cls => exact Or.inl stuck
    | _ => exact stuck
  refine ⟨fun stuck => alive (Option.map_eq_none_iff.mp stuck), fun r s' next => Or.inr ?_⟩
  obtain ⟨u, next', rfl⟩ := table_next rel.upper next
  refine ⟨r, { x with upper := u }, 0, next', ?_, trivial, rfl, rfl⟩
  rw [zero_add]
  exact ⟨rfl, rel.backed, rel.separate⟩

theorem layer_sound (fits : Fits K) (base : Leftover K.frames) : (layer W base).Sound := by
  intro o s x F rel fine
  have good : ¬ (driftSys W (blocksModel K.frames base.frames)).fails o x ∧ ¬ Misused o x.lower :=
    not_or.mp fine
  cases o with
  | lower c =>
    have asked : Asked K.frames (· ≤ hugeOrder) c := not_not.mp good.1
    cases c with
    | get start order target => exact Or.inl (get_pending fits asked (not_not.mp good.2))
    | put frame order => exact Or.inr (put_early rel (not_not.mp good.2))
  | lowerStatsAt frame order => exact absurd trivial good.2
  | table o => exact Or.inl (table_pending o)

end LLFree.Upper.Layers

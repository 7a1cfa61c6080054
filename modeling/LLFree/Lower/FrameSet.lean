/- module: LLFree/Lower/FrameSet
   digest: The lower allocator refines a set of free frames. -/

import LLFree.Lower.Quiet
import Mathlib.Data.Set.Basic

set_option autoImplicit false
set_option relaxedAutoImplicit false

namespace LLFree.Lower.FrameSet

open LLFree.Atomic.Program LLFree.Code.Types LLFree.Code.Entries LLFree.Code.Lower
open LLFree.Words.Lanes LLFree.Lower.Holding LLFree.Lower.GetPut LLFree.Lower.Quiet

/-! ## The abstract allocator -/

def blockSet (f order : Nat) : Set Nat := {g | Within f order g}

/-- What a call may do to a set of free frames: move one aligned block of the allocator out of
the set, into it, or fail and leave it as it is. -/
def CallSpec (N : Nat) (r : Result) (S S' : Set Nat) : LowerCall → Prop
  | .get start order target =>
    (r.error = .ok ∧ Valid N r.frame order ∧ blockSet r.frame order ⊆ S ∧
        S' = S \ blockSet r.frame order ∧ (target = none → r.frame / treeSize = start / treeSize) ∧
        ∀ t, target = some t → r.frame = t) ∨
      (r.error ≠ .ok ∧ S' = S)
  | .put frame order =>
    (r.error = .ok ∧ Valid N frame order ∧ blockSet frame order ∩ S = ∅ ∧
        S' = S ∪ blockSet frame order) ∨
      (r.error ≠ .ok ∧ S' = S)

/-! ## The code -/

/-- The requests considered here: blocks within a row or of a huge frame, frame numbers that
do not wrap. -/
def CallAllowed (N : Nat) : LowerCall → Prop
  | .get start order target =>
    start < N ∧ (order ≤ atomicOrder ∨ order = hugeOrder) ∧ ∀ t, target = some t → t < 2 ^ 63
  | .put frame order => (order ≤ atomicOrder ∨ order = hugeOrder) ∧ frame < 2 ^ 63

/-- Finite sequential runs of complete calls, each allowed in the state it starts from. -/
inductive LowerRun (N : Nat) (allowed : LowerCall → Lower → Prop) : Lower → Lower → Prop
  | refl (l : Lower) : LowerRun N allowed l l
  | call {l l' l'' : Lower} {r : Result} (c : LowerCall) (before : LowerRun N allowed l l')
      (ok : allowed c l') (run : Prog.run LoOp.exec (c.prog N) l' = some (r, l'')) :
      LowerRun N allowed l l''

def freeSet (l : Lower) : Set Nat := {g | IsFree l g}

/-- Every entry matches its bitfield: huge over a zero bitfield, or counting the zero bits of
a bitfield whose bits past the last frame are set. Padding entries are `(0, huge)`. -/
structure EntriesMatch (N : Nat) (l : Lower) : Prop where
  children : ∀ c < l.childCount,
    ((l.children c).huge = true ∧ (l.children c).free = 0 ∧
        ∀ r < fieldN, l.rows (c * fieldN + r) = 0#64) ∨
      ((l.children c).huge = false ∧ (l.children c).free = childSize - fieldCountOnes l c ∧
        ∀ g, g / childSize = c → N ≤ g → bitSet l g = true)
  padding : ∀ c, l.childCount ≤ c → c < l.entryCount → l.children c = ⟨0, true⟩

variable {N : Nat} {l l' : Lower}

theorem entriesMatch_of_consistent (cons : Consistent N l) : EntriesMatch N l := by
  refine ⟨fun c real => ?_, fun c pad inside => cons.padding inside pad⟩
  have inside := real.trans_le (childCount_le_entryCount l)
  cases kind : (l.children c).huge with
  | true =>
    obtain ⟨zero, rows⟩ := cons.huge c inside kind
    exact Or.inl ⟨rfl, zero, rows real⟩
  | false =>
    have count := (cons.small c inside kind).2
    refine Or.inr ⟨rfl, by simp only [childSize]; omega, fun g here past => ?_⟩
    by_contra clear
    subst here
    exact cons.tail g past ⟨real, kind, by simpa using clear⟩

/-! ## Initialisation -/

theorem getLsbD_initFieldRow {free r j : Nat} (inside : j < 64) :
    (initFieldRow free r).getLsbD j = decide (free ≤ r * 64 + j) := by
  simp only [initFieldRow, atomicSize]
  by_cases all : free ≥ (r + 1) * 64
  · have past : ¬ free ≤ r * 64 + j := by omega
    rw [if_pos all]
    simp [past]
  · rw [if_neg all]
    by_cases part : free > r * 64
    · rw [if_pos part, BitVec.getLsbD_shiftLeft, BitVec.getLsbD_allOnes]
      by_cases below : j < free - r * 64
      · have past : ¬ free ≤ r * 64 + j := by omega
        simp [below, past]
      · have past : free ≤ r * 64 + j := by omega
        have less : j - (free - r * 64) < 64 := by omega
        simp [inside, below, past, less]
    · have past : free ≤ r * 64 + j := by omega
      rw [if_neg part, BitVec.getLsbD_allOnes]
      simp [past, inside]

private theorem ones_initFieldRow (free r : Nat) :
    ones (initFieldRow free r) = 64 - min 64 (free - r * 64) := by
  have fits : min 64 (free - r * 64) + (64 - min 64 (free - r * 64)) ≤ 64 := by omega
  refine ones_run fits fun j inside => ?_
  rw [getLsbD_initFieldRow inside]
  congr 1
  apply propext
  omega

private theorem sum_initFieldRows (free n : Nat) :
    ((List.range n).map fun r => 64 - min 64 (free - r * 64)).sum + min (n * 64) free = n * 64 := by
  induction n with
  | zero => simp
  | succ n ih =>
    rw [List.range_succ, List.map_append, List.sum_append, List.map_singleton, List.sum_singleton]
    omega

private theorem clear_child (buffers : Lower) (N : Nat) (freeAll : Bool) {c : Nat}
    (real : c < childrenOf N) :
    (lowerClear { buffers with frames := N } freeAll).children c =
      ⟨clearFree N freeAll c, clearFree N freeAll c == 0⟩ := by
  simp only [lowerClear]
  rw [if_pos (show c < Lower.childCount { buffers with frames := N } from real)]
  rfl

private theorem clear_padding (buffers : Lower) (N : Nat) (freeAll : Bool) {c : Nat}
    (pad : childrenOf N ≤ c) (inside : c < entriesOf N) :
    (lowerClear { buffers with frames := N } freeAll).children c = ⟨0, true⟩ := by
  have not_real : ¬ c < Lower.childCount { buffers with frames := N } := by
    change ¬ c < childrenOf N
    omega
  simp only [lowerClear]
  rw [if_neg not_real, if_pos (show c < Lower.entryCount { buffers with frames := N } from inside)]
  rfl

private theorem clear_row (buffers : Lower) (N : Nat) (freeAll : Bool) {c r : Nat}
    (real : c < childrenOf N) (less : r < 8) :
    (lowerClear { buffers with frames := N } freeAll).rows (c * 8 + r) =
      if clearFree N freeAll c = 0 then 0#64 else initFieldRow (clearFree N freeAll c) r := by
  have child : (c * 8 + r) / 8 = c := by omega
  have row : (c * 8 + r) % 8 = r := by omega
  simp only [lowerClear, fieldN, child, row]
  rw [if_pos (show c < Lower.childCount { buffers with frames := N } from real)]

private theorem clear_free_pos {N c : Nat} (real : c < childrenOf N) :
    clearFree N true c = min 512 (N - c * 512) ∧ 0 < clearFree N true c := by
  simp only [childrenOf, divCeil, childSize] at real
  have value : clearFree N true c = min 512 (N - c * 512) := if_pos rfl
  omega

private theorem clear_isFree (buffers : Lower) (N g : Nat) :
    IsFree (lowerClear { buffers with frames := N } true) g ↔ g < N := by
  have count : (lowerClear { buffers with frames := N } true).childCount = childrenOf N := rfl
  by_cases real : g / 512 < childrenOf N
  · obtain ⟨value, pos⟩ := clear_free_pos real
    have row_eq : g / 64 = g / 512 * 8 + (g / 64 - g / 512 * 8) := by omega
    have less : g / 64 - g / 512 * 8 < 8 := by omega
    have small : (clearFree N true (g / 512) == 0) = false := by
      simp only [beq_eq_false_iff_ne]
      omega
    simp only [IsFree, count, real, true_and, clear_child buffers N true real, small, bitSet]
    rw [row_eq, clear_row buffers N true real less, if_neg (by omega),
      getLsbD_initFieldRow (Nat.mod_lt _ (by omega)), decide_eq_false_iff_not, value]
    omega
  · refine iff_of_false (fun free => real (count ▸ free.1)) fun below => real ?_
    simp only [childrenOf, divCeil, childSize]
    omega

theorem clear_consistent (buffers : Lower) (N : Nat) (freeAll : Bool) :
    Consistent N (lowerClear { buffers with frames := N } freeAll) := by
  have count : (lowerClear { buffers with frames := N } freeAll).childCount = childrenOf N := rfl
  have entries : (lowerClear { buffers with frames := N } freeAll).entryCount = entriesOf N := rfl
  refine ⟨rfl, fun c inside kind => ?_, fun c inside kind => ?_, fun g past free => ?_⟩
  · by_cases real : c < childrenOf N
    · rw [clear_child buffers N freeAll real] at kind ⊢
      have zero : clearFree N freeAll c = 0 := by simpa using kind
      refine ⟨zero, fun _ r less => ?_⟩
      rw [clear_row buffers N freeAll real less, if_pos zero]
    · rw [clear_padding buffers N freeAll (by omega) inside]
      exact ⟨rfl, fun here => absurd here real⟩
  · by_cases real : c < childrenOf N
    · rw [clear_child buffers N freeAll real] at kind ⊢
      have nonzero : clearFree N freeAll c ≠ 0 := by simpa using kind
      have all : freeAll = true := by
        by_contra none
        exact nonzero (by simp [clearFree, none])
      subst all
      obtain ⟨value, pos⟩ := clear_free_pos real
      refine ⟨real, ?_⟩
      have rows : ∀ r ∈ List.range fieldN,
          ones ((lowerClear { buffers with frames := N } true).rows (c * fieldN + r)) =
            64 - min 64 (clearFree N true c - r * 64) := by
        intro r member
        rw [clear_row buffers N true real (List.mem_range.mp member), if_neg nonzero,
          ones_initFieldRow]
      have total := sum_initFieldRows (clearFree N true c) fieldN
      rw [fieldCountOnes, List.map_congr_left rows]
      simp only [fieldN] at total ⊢
      omega
    · rw [clear_padding buffers N freeAll (by omega) inside] at kind
      cases kind
  · cases freeAll with
    | true =>
      have below := (clear_isFree buffers N g).mp free
      omega
    | false =>
      have small := free.2.1
      rw [clear_child buffers N false (count ▸ free.1)] at small
      simp [clearFree] at small

def Fresh (N : Nat) (l : Lower) : Prop :=
  ∃ buffers mode, (mode = .free ∨ mode = .alloc) ∧ lowerInit buffers N mode = (llfreeErr .ok, l)

theorem fresh_consistent (fresh : Fresh N l) : Consistent N l := by
  obtain ⟨buffers, mode, rfl | rfl, init⟩ := fresh
  · obtain ⟨-, rfl⟩ := Prod.mk.inj init
    exact clear_consistent buffers N true
  · obtain ⟨-, rfl⟩ := Prod.mk.inj init
    exact clear_consistent buffers N false

theorem init_free (buffers : Lower) (N : Nat) :
    freeSet (lowerInit buffers N .free).2 = {g | g < N} := by
  ext g
  exact clear_isFree buffers N g

/-! ## Every call refines the abstract allocator -/

theorem callSpec_get {start order : Nat} {target : Option Nat} {r : Result}
    (outcome : GetOutcome N start order target l r l') :
    CallSpec N r (freeSet l) (freeSet l') (.get start order target) := by
  rcases outcome with ⟨f, rfl, valid, took, hit, near⟩ | ⟨error, same⟩
  · refine Or.inl ⟨rfl, valid, fun g within => took.free g within, ?_, near, hit⟩
    ext g
    simp only [freeSet, blockSet, Set.mem_sdiff, Set.mem_ofPred_eq]
    by_cases within : Within f order g
    · exact iff_of_false (took.taken g within) fun both => both.2 within
    · rw [took.others g within]
      exact ⟨fun free => ⟨free, within⟩, fun both => both.1⟩
  · refine Or.inr ⟨?_, Set.ext fun g => same g⟩
    rcases error with rfl | ⟨rfl, -⟩ <;> simp

theorem callSpec_put {f order : Nat} {r : Result} (ok : r.error = .ok) (valid : Valid N f order)
    (freed : Freed f order l l') : CallSpec N r (freeSet l) (freeSet l') (.put f order) := by
  refine Or.inl ⟨ok, valid, ?_, ?_⟩
  · exact Set.eq_empty_of_forall_notMem fun g both => freed.taken g both.1 both.2
  · ext g
    simp only [freeSet, blockSet, Set.mem_union, Set.mem_ofPred_eq]
    by_cases within : Within f order g
    · exact iff_of_true (freed.free g within) (Or.inr within)
    · rw [freed.others g within]
      exact ⟨Or.inl, fun either => either.resolve_right within⟩

/-- One call: it completes, keeps the entries in step, and does what the abstract call does. -/
theorem call_refines (cons : Consistent N l) (c : LowerCall) (allowed : CallAllowed N c) :
    ∃ r l', Prog.run LoOp.exec (c.prog N) l = some (r, l') ∧ Consistent N l' ∧
      CallSpec N r (freeSet l) (freeSet l') c := by
  cases c with
  | get start order target =>
    obtain ⟨inside, row, fits⟩ := allowed
    have small : order ≤ 9 := by
      simp only [atomicOrder, hugeOrder] at row
      omega
    have args : GetArgs N start target := ⟨fun _ => inside, fits⟩
    obtain ⟨r, l', run⟩ := get_total cons args small (by
      simp only [atomicOrder, hugeOrder] at row
      tauto)
    obtain ⟨cons', outcome⟩ := get_sound cons args small run
    exact ⟨r, l', run, cons', callSpec_get outcome⟩
  | put frame order =>
    obtain ⟨row, fits⟩ := allowed
    simp only [atomicOrder, hugeOrder] at row
    by_cases good : Puttable N frame order l
    · obtain ⟨valid, kind, taken⟩ := good
      obtain ⟨l', run, cons', freed⟩ := put_allocated cons valid kind taken
      exact ⟨_, l', run, cons', callSpec_put rfl valid freed⟩
    · obtain ⟨e, error, run⟩ := put_refused cons (Or.inr fits) row good
      exact ⟨_, l, run, cons, Or.inr ⟨error, rfl⟩⟩

theorem run_consistent {allowed : LowerCall → Lower → Prop}
    (complete : ∀ c l, Consistent N l → allowed c l →
      ∃ r l', Prog.run LoOp.exec (c.prog N) l = some (r, l') ∧ Consistent N l')
    (cons : Consistent N l) (run : LowerRun N allowed l l') : Consistent N l' := by
  induction run with
  | refl => exact cons
  | call c before ok step ih =>
    obtain ⟨r, l', run, cons'⟩ := complete c _ ih ok
    rw [run] at step
    obtain ⟨-, rfl⟩ := Prod.mk.inj (Option.some.inj step)
    exact cons'

/-- After any sequential run from an initialised allocator the entries match the bitfields,
and the next call completes and moves exactly one block in the set of free frames, or none. -/
theorem lower_refines_frame_set (fresh : Fresh N l)
    (run : LowerRun N (fun c _ => CallAllowed N c) l l') :
    EntriesMatch N l' ∧ ∀ c : LowerCall, CallAllowed N c →
      ∃ r l'', Prog.run LoOp.exec (c.prog N) l' = some (r, l'') ∧ EntriesMatch N l'' ∧
        CallSpec N r (freeSet l') (freeSet l'') c := by
  have cons := run_consistent (fun c _ cons allowed =>
    let ⟨r, l', done, cons', _⟩ := call_refines cons c allowed
    ⟨r, l', done, cons'⟩) (fresh_consistent fresh) run
  refine ⟨entriesMatch_of_consistent cons, fun c allowed => ?_⟩
  obtain ⟨r, l'', done, cons', spec⟩ := call_refines cons c allowed
  exact ⟨r, l'', done, entriesMatch_of_consistent cons', spec⟩

/-- A huge frame out of 600 frames. -/
theorem lower_refines_frame_set_huge :
    ∃ l, Prog.run LoOp.exec (lowerGet 600 0 9 none) (lowerInit zeroed 600 .free).2 =
        some (llfreeOk 0 0, l) ∧
      EntriesMatch 600 l :=
  ⟨_, rfl, (lower_refines_frame_set ⟨zeroed, .free, Or.inl rfl, rfl⟩
    (.call (.get 0 9 none) (.refl _) ⟨by decide, by decide, by simp⟩ rfl)).1⟩

end LLFree.Lower.FrameSet

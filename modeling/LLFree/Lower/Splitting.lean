/- module: LLFree/Lower/Splitting
   digest: Concurrent frees of parts of one huge frame. -/

import LLFree.Lower.FrameSet
import LLFree.Lower.Interleaving

/-!
Threads that free parts of one huge frame race for its split. Where each of them stands is explicit:
one thread sets the rows and the others wait for it, or they come late, when the split is done.
-/

set_option autoImplicit false
set_option relaxedAutoImplicit false

namespace LLFree.Lower.Splitting

open LLFree.Atomic.Program LLFree.Atomic.Escrow LLFree.Atomic.Pool LLFree.Code.Types
open LLFree.Code.Entries LLFree.Code.Lower LLFree.Lower.Rows LLFree.Lower.Holding
open LLFree.Words.Lanes LLFree.Lower.Fields LLFree.Lower.GetPut LLFree.Lower.Quiet
open LLFree.Lower.FrameSet LLFree.Lower.Interleaving

/-! ## One thread -/

inductive Stage
  | asked
  | splitting (rows : Nat)
  | waiting (left : Nat)
  | clearing
  | counting
  | done

namespace Stage

def resume (f order : Nat) (res : Result) : LoProg Result :=
  if res.error = .ok then putField (f / 512) f order else .ret res

def prog (f order : Nat) : Stage → LoProg Result
  | .asked => childLoad (f / 512) >>= fun old =>
      if old.huge then splitHuge old (f / 512) >>= resume f order else putField (f / 512) f order
  | .splitting rows => (toggleEntries (f / 512 * 8) 0#64 rows (8 - rows) >>= fun res =>
      if res.error = .ok then childCas (f / 512) ⟨0, true⟩ (childNew 0 false) >>= fun success =>
        Prog.assert (success = true) >>= fun _ => .ret (llfreeErr .ok)
      else splitWait (f / 512) retries) >>= resume f order
  | .waiting left => splitWait (f / 512) left >>= resume f order
  | .clearing => putField (f / 512) f order
  | .counting => childIncAt (f / 512) order >>= fun incremented =>
      Prog.assert (incremented = true) >>= fun _ => .ret (llfreeErr .ok)
  | .done => .ret (llfreeErr .ok)

end Stage

def polls : (o : LoOp) → o.Res → Int
  | .childLoad _, c => if c.huge then 1 else 0
  | _, _ => 0

variable {N : Nat} {l l' l₀ : Lower} {f order : Nat}

theorem lowerPut_asked (valid : Valid N f order) (small : order ≤ 6) :
    lowerPut N f order = Stage.prog f order .asked := by
  have good : invalidFrame N f order = false := invalidFrame_of_valid valid
  rw [lowerPut, Prog.assert_bind (by simp only [treeOrder]; omega), good]
  simp only [Bool.false_eq_true, if_false, hugeOrder, show ¬ order ≥ 9 by omega, childFromFrame,
    childSize]
  rfl

private theorem splitHuge_splitting :
    (splitHuge ⟨0, true⟩ (f / 512) >>= Stage.resume f order) =
      Stage.prog f order (.splitting 0) := by
  simp only [splitHuge, fieldToggle, childSize, atomicSize, fieldN, childOrder, Stage.prog]
  rw [Prog.assert_bind (by omega), if_pos (by omega)]
  rfl

def ownRow (f : Nat) : Nat := f / 512 * 8 + f % 512 / 64
def ownMask (f order : Nat) : Row := rowMask (f % 512 % 64) order

def Clear (l : Lower) : LoOp → Prop
  | .rowCas row expected _ => row % fieldN = 0 ∨ l.rows row = expected
  | _ => True

instance (l : Lower) (o : LoOp) : Decidable (Clear l o) := by
  unfold Clear
  split <;> infer_instance

/-- What an access does, by the stage of its thread: the next stage, if the access does not fail,
the memory, and whether it found the child huge. -/
inductive Turn (f order : Nat) (l : Lower) : Stage → Option Stage → Lower → Int → Prop
  | whole (huge : (l.children (f / 512)).huge = true) :
      Turn f order l .asked (some (.splitting 0)) l 1
  | parted (small : (l.children (f / 512)).huge = false) :
      Turn f order l .asked (some .clearing) l 0
  | row (k : Nat) (less : k < 8) (zero : l.rows (f / 512 * 8 + k) = 0#64) :
      Turn f order l (.splitting k) (some (.splitting (k + 1)))
        (l.setRow (f / 512 * 8 + k) (BitVec.allOnes 64)) 0
  | beaten (other : l.rows (f / 512 * 8) ≠ 0#64) :
      Turn f order l (.splitting 0) (some (.waiting retries)) l 0
  | split (entry : l.children (f / 512) = ⟨0, true⟩) :
      Turn f order l (.splitting 8) (some .clearing) (l.setChild (f / 512) ⟨0, false⟩) 0
  | lost (other : l.children (f / 512) ≠ ⟨0, true⟩) : Turn f order l (.splitting 8) none l 0
  | again (left : Nat) (huge : (l.children (f / 512)).huge = true) :
      Turn f order l (.waiting (left + 1)) (some (.waiting left)) l 1
  | seen (left : Nat) (small : (l.children (f / 512)).huge = false) :
      Turn f order l (.waiting (left + 1)) (some .clearing) l 0
  | clear (set : l.rows (ownRow f) &&& ownMask f order = ownMask f order) :
      Turn f order l .clearing (some .counting)
        (l.setRow (ownRow f) (l.rows (ownRow f) &&& ~~~ownMask f order)) 0
  | refused (other : l.rows (ownRow f) &&& ownMask f order ≠ ownMask f order) :
      Turn f order l .clearing none l 0
  | count (v : Child) (room : childInc (l.children (f / 512)) order = some v) :
      Turn f order l .counting (some .done) (l.setChild (f / 512) v) 0
  | full (none : childInc (l.children (f / 512)) order = none) :
      Turn f order l .counting .none l 0

def Stage.rows : Stage → Nat
  | .splitting k => k
  | _ => 0

theorem putField_row (small : order ≤ 6) :
    putField (f / 512) f order = rowToggleAt (ownRow f) (ownMask f order) true >>= fun cleared =>
      if cleared then Stage.prog f order .counting else .ret (llfreeErr .memory) := by
  have le : 2 ^ order ≤ 2 ^ 6 := Nat.pow_le_pow_right (by omega) small
  have inside : f % 512 < 512 := Nat.mod_lt f (by omega)
  simp only [putField, fieldToggle, childSize, atomicSize, fieldN]
  rw [Prog.assert_bind inside, if_neg (by omega)]
  change Prog.step _ _ = Prog.step _ _
  congr 1
  funext cleared
  cases cleared <;> rfl

private theorem exec_load {c : Nat} {v : Child}
    (effect : LoOp.exec (.childLoad c) l = some (v, l')) :
    v = l.children c ∧ l = l' := by
  simp only [LoOp.exec_childLoad, Option.ite_none_right_eq_some, Option.some.injEq,
    Prod.mk.injEq] at effect
  exact ⟨effect.2.1.symm, effect.2.2⟩

def TurnOf (f order : Nat) (l : Lower) (a : Stage) (p : LoProg Result) (l' : Lower) (d : Int) :
    Prop :=
  ∃ next, Turn f order l a next l' d ∧ ∀ a', next = some a' → p = a'.prog f order

private theorem goes_on {a a' : Stage} {p : LoProg Result} {d : Int}
    (turn : Turn f order l a (some a') l' d) (same : p = a'.prog f order) :
    TurnOf f order l a p l' d :=
  ⟨_, turn, fun _ next => Option.some.inj next ▸ same⟩

private theorem fails {a : Stage} {p : LoProg Result} {d : Int}
    (turn : Turn f order l a none l' d) : TurnOf f order l a p l' d := by
  refine ⟨_, turn, ?_⟩
  intro _ next
  cases next

private theorem turn_splitting {k : Nat} (less : k < 8) {o : LoOp} {rest : o.Res → LoProg Result}
    {r : o.Res} (step : Stage.prog f order (.splitting k) = .step o rest)
    (effect : LoOp.exec o l = some (r, l')) (calm : Clear l o) :
    TurnOf f order l (.splitting k) (rest r) l' (polls o r) := by
  obtain ⟨left, more⟩ : ∃ left, 8 - k = left + 1 := ⟨7 - k, by omega⟩
  have left_eq : left = 8 - (k + 1) := by omega
  rw [Stage.prog, more] at step
  cases step
  simp only [LoOp.exec_rowCas, Option.ite_none_right_eq_some, Option.some.injEq] at effect
  by_cases zero : l.rows (f / 512 * 8 + k) = 0#64
  · rw [if_pos zero] at effect
    cases effect.2
    subst left_eq
    exact goes_on (.row k less zero) rfl
  · rw [if_neg zero] at effect
    cases effect.2
    rcases calm with first | clear
    · obtain rfl : k = 0 := by
        simp only [fieldN] at first
        omega
      exact goes_on (.beaten zero) rfl
    · exact absurd clear zero

theorem turn_of_step (small : order ≤ 6)
    (entry : (l.children (f / 512)).huge = true → l.children (f / 512) = ⟨0, true⟩) {a : Stage}
    (bound : a.rows ≤ 8) {o : LoOp} {rest : o.Res → LoProg Result} {r : o.Res}
    (step : a.prog f order = .step o rest) (effect : LoOp.exec o l = some (r, l'))
    (calm : Clear l o) : TurnOf f order l a (rest r) l' (polls o r) := by
  have kept (small : (l.children (f / 512)).huge = false) :
      l.children (f / 512) = ⟨(l.children (f / 512)).free, false⟩ := Child.ext rfl small
  cases a with
  | asked =>
    cases step
    obtain ⟨rfl, rfl⟩ := exec_load effect
    cases huge : (l.children (f / 512)).huge with
    | true =>
      rw [entry huge]
      exact goes_on (.whole huge) splitHuge_splitting
    | false =>
      rw [kept huge]
      exact goes_on (.parted huge) rfl
  | splitting k =>
    rcases Nat.lt_or_eq_of_le bound with less | rfl
    · exact turn_splitting less step effect calm
    · cases step
      simp only [LoOp.exec_childCas, Option.ite_none_right_eq_some, Option.some.injEq] at effect
      by_cases whole : l.children (f / 512) = ⟨0, true⟩
      · rw [if_pos whole] at effect
        cases effect.2
        exact goes_on (.split whole) rfl
      · rw [if_neg whole] at effect
        cases effect.2
        exact fails (.lost whole)
  | waiting left =>
    cases left with
    | zero => cases step
    | succ left =>
      cases step
      obtain ⟨rfl, rfl⟩ := exec_load effect
      cases huge : (l.children (f / 512)).huge with
      | true =>
        rw [entry huge]
        exact goes_on (.again left huge) rfl
      | false =>
        rw [kept huge]
        exact goes_on (.seen left huge) rfl
  | clearing =>
    rw [Stage.prog, putField_row small] at step
    cases step
    simp only [LoOp.exec_rowToggle, Option.ite_none_right_eq_some, Option.some.injEq, rowToggle,
      if_true] at effect
    by_cases set : l.rows (ownRow f) &&& ownMask f order = ownMask f order
    · rw [if_pos set] at effect
      cases effect.2
      exact goes_on (.clear set) rfl
    · rw [if_neg set] at effect
      cases effect.2
      exact fails (.refused set)
  | counting =>
    cases step
    simp only [LoOp.exec_childInc, Option.ite_none_right_eq_some, Option.some.injEq] at effect
    cases room : childInc (l.children (f / 512)) order with
    | some v =>
      rw [room] at effect
      cases effect.2
      exact goes_on (.count v room) rfl
    | none =>
      rw [room] at effect
      cases effect.2
      exact fails (.full room)
  | done => cases step

def Stage.polled : Stage → Int → Prop
  | .asked, n => n = 0
  | .splitting _, n => n = 1
  | .waiting left, n => n + left = retries + 1
  | _, n => n ≤ retries

theorem polled_turn {a a' : Stage} {d n : Int} (turn : Turn f order l a (some a') l' d)
    (polled : a.polled n) : a'.polled (n + d) := by
  cases turn <;> simp only [Stage.polled, retries] at polled ⊢ <;> omega

private theorem able_step {o : LoOp} {rest : o.Res → LoProg Result} (some : LoOp.exec o l ≠ none) :
    Prog.step o rest ≠ .abort ∧
      ∀ o' rest', Prog.step o rest = .step o' rest' → LoOp.exec o' l ≠ none := by
  constructor
  · intro same
    cases same
  · intro o' rest' same
    cases same
    exact some

private theorem able_ret {r : Result} :
    (.ret r : LoProg Result) ≠ .abort ∧
      ∀ o rest, (.ret r : LoProg Result) = .step o rest → LoOp.exec o l ≠ none := by
  constructor
  · intro same
    cases same
  · intro o rest same
    cases same

theorem Stage.able (real : f / 512 < l.childCount) (small : order ≤ 6) {a : Stage}
    (bound : a.rows ≤ 8) :
    a.prog f order ≠ .abort ∧
      ∀ o rest, a.prog f order = .step o rest → LoOp.exec o l ≠ none := by
  have inside := real.trans_le (childCount_le_entryCount l)
  cases a with
  | asked => exact able_step (by simp [inside])
  | splitting k =>
    rcases Nat.lt_or_eq_of_le bound with less | rfl
    · simp only [rows] at less
      obtain ⟨left, more⟩ : ∃ left, 8 - k = left + 1 := ⟨7 - k, by omega⟩
      have word : f / 512 * 8 + k < l.rowCount := by
        simp only [Lower.rowCount, fieldN]
        omega
      rw [prog, more]
      exact able_step (by simp [word])
    · exact able_step (by simp [inside])
  | waiting left =>
    cases left with
    | zero => exact able_ret
    | succ left => exact able_step (by simp [inside])
  | clearing =>
    have word : ownRow f < l.rowCount := by
      simp only [ownRow, Lower.rowCount, fieldN]
      omega
    rw [prog, putField_row small]
    exact able_step (by simp [word])
  | counting => exact able_step (by simp [inside])
  | done => exact able_ret

theorem Stage.ended (small : order ≤ 6) {a : Stage} (bound : a.rows ≤ 8) {r : Result}
    (ret : a.prog f order = .ret r) :
    (a = .done ∧ r = llfreeErr .ok) ∨ (a = .waiting 0 ∧ r = llfreeErr .memory) := by
  cases a with
  | asked => cases ret
  | splitting k =>
    rcases Nat.lt_or_eq_of_le bound with less | rfl
    · obtain ⟨left, more⟩ : ∃ left, 8 - k = left + 1 := ⟨7 - k, by simp only [rows] at less; omega⟩
      rw [prog, more] at ret
      cases ret
    · cases ret
  | waiting left =>
    cases left with
    | zero =>
      cases ret
      exact Or.inr ⟨rfl, rfl⟩
    | succ left => cases ret
  | clearing =>
    rw [prog, putField_row small] at ret
    cases ret
  | counting => cases ret
  | done =>
    cases ret
    exact Or.inl ⟨rfl, rfl⟩

/-! ## The splitter -/

section Leader

variable {ι : Type} [DecidableEq ι] {n : ι → Nat} {k : Nat}

structure Led (n : ι → Nat) (k : Nat) : Prop where
  alone : ∀ i, n i ≠ 0 → n i = k ∧ ∀ j, j ≠ i → n j = 0
  lead : k ≠ 0 → ∃ i, n i = k

theorem Led.keep (led : Led n k) {i : ι} {x : Nat} (same : x = n i) :
    Led (Function.update n i x) k := by
  rw [same, Function.update_eq_self]
  exact led

theorem Led.move (led : Led n k) {i : ι} (own : n i = k) (k' : Nat) :
    Led (Function.update n i k') k' := by
  have others : ∀ j, j ≠ i → n j = 0 := by
    intro j other
    by_contra some
    obtain ⟨same, rest⟩ := led.alone j some
    exact some (same.trans (own.symm.trans (rest i other.symm)))
  constructor
  · intro j some
    by_cases same : j = i
    · subst same
      rw [Function.update_self]
      refine ⟨rfl, fun m other => ?_⟩
      rw [Function.update_of_ne other]
      exact others m other
    · rw [Function.update_of_ne same] at some
      exact absurd (others j same) some
  · intro _
    exact ⟨i, Function.update_self ..⟩

variable {stage : ι → Stage} {i : ι} {a : Stage}

theorem led_keep (led : Led (Stage.rows ∘ stage) k) (same : a.rows = (stage i).rows) :
    Led (Stage.rows ∘ Function.update stage i a) k := by
  rw [Function.comp_update]
  exact led.keep same

theorem led_move (led : Led (Stage.rows ∘ stage) k) (own : (stage i).rows = k) :
    Led (Stage.rows ∘ Function.update stage i a) a.rows := by
  rw [Function.comp_update]
  exact led.move own a.rows

omit [DecidableEq ι] in
theorem led_at (led : Led (Stage.rows ∘ stage) k) {m : Nat} (stands : stage i = .splitting m)
    (some : m ≠ 0) : m = k := by
  have same := (led.alone i (by rw [Function.comp_apply, stands]; exact some)).1
  rwa [Function.comp_apply, stands] at same

end Leader

/-! ## Memory -/

/-- The memory with the first `k` rows of a child set again, by a split that came late. -/
def lateRows (l : Lower) (c k : Nat) : Lower :=
  { l with rows := fun r => if r / 8 = c ∧ r % 8 < k then BitVec.allOnes 64 else l.rows r }

theorem lateRows_zero (l : Lower) (c : Nat) : lateRows l c 0 = l := by
  simp [lateRows]

theorem lateRows_succ (l : Lower) {c k : Nat} (less : k < 8) :
    (lateRows l c k).setRow (c * 8 + k) (BitVec.allOnes 64) = lateRows l c (k + 1) := by
  simp only [lateRows, Lower.setRow, Lower.mk.injEq, true_and]
  funext r
  by_cases here : r = c * 8 + k
  · rw [here, Function.update_self, if_pos (by omega)]
  · rw [Function.update_of_ne here]
    exact if_congr (by omega) rfl rfl

theorem lateRows_setRow (l : Lower) {c k j : Nat} (later : k ≤ j) (v : Row) :
    (lateRows l c k).setRow (c * 8 + j) v = lateRows (l.setRow (c * 8 + j) v) c k := by
  simp only [lateRows, Lower.setRow, Lower.mk.injEq, true_and]
  funext r
  by_cases here : r = c * 8 + j
  · rw [here, Function.update_self, Function.update_self, if_neg (by omega)]
  · rw [Function.update_of_ne here, Function.update_of_ne here]

theorem lateRows_row (l : Lower) {c k j : Nat} (less : j < 8) :
    (lateRows l c k).rows (c * 8 + j) =
      if j < k then BitVec.allOnes 64 else l.rows (c * 8 + j) :=
  if_congr (by omega) rfl rfl

def Stage.held (b : Nat × Nat) : Stage → Held
  | .counting => Held.taken (b.1 / 512) (2 ^ b.2)
  | .done => 0
  | _ => Held.run b.1 (2 ^ b.2)

/-! ## The family of blocks -/

section Family

variable {ι : Type} [Fintype ι] {c k : Nat} {b : ι → Nat × Nat} {stage : ι → Stage} {F : Held}

structure Family (N : Nat) (l : Lower) (c : Nat) (b : ι → Nat × Nat) : Prop where
  cons : Consistent N l
  whole : (l.children c).huge = true
  valid : ∀ i, Valid N (b i).1 (b i).2
  small : ∀ i, (b i).2 ≤ atomicOrder
  here : ∀ i, childFromFrame (b i).1 = c
  apart : ∀ i j, i ≠ j → Apart (b i) (b j)

def gaps (c : Nat) (b : ι → Nat × Nat) : Held :=
  ⟨0, fun g => if g / 512 = c ∧ ∀ i, ¬ Within (b i).1 (b i).2 g then 1 else 0, 0⟩

theorem sum_credit (m : ι → Held) (c : Nat) : (∑ i, m i).credit c = ∑ i, (m i).credit c :=
  map_sum (⟨⟨fun h => h.credit c, rfl⟩, fun _ _ => rfl⟩ : Held →+ Nat) m Finset.univ

theorem sum_bit (m : ι → Held) (g : Nat) : (∑ i, m i).bit g = ∑ i, (m i).bit g :=
  map_sum (⟨⟨fun h => h.bit g, rfl⟩, fun _ _ => rfl⟩ : Held →+ Nat) m Finset.univ

theorem sum_huge (m : ι → Held) (c : Nat) : (∑ i, m i).huge c = ∑ i, (m i).huge c :=
  map_sum (⟨⟨fun h => h.huge c, rfl⟩, fun _ _ => rfl⟩ : Held →+ Multiset Nat) m Finset.univ

variable [DecidableEq ι]

omit [DecidableEq ι] in
theorem run_family (fam : Family N l c b) :
    Held.run (c * 512) 512 = ∑ i, Held.run (b i).1 (2 ^ (b i).2) + gaps c b := by
  refine Held.ext_at (fun d => ?_) (fun g => ?_) (fun d => ?_)
  · simp [sum_credit, gaps]
  · have within (i : ι) : (Held.run (b i).1 (2 ^ (b i).2)).bit g =
        if Within (b i).1 (b i).2 g then 1 else 0 := rfl
    rw [Held.add_bit, sum_bit, Finset.sum_congr rfl fun i _ => within i, Held.run_bit]
    by_cases some : ∃ i, Within (b i).1 (b i).2 g
    · obtain ⟨i, own⟩ := some
      have here : c * 512 ≤ g ∧ g < c * 512 + 512 := by
        have child := fam.here i
        have small := fam.small i
        have fits := (block_in_child (fam.valid i).2 (by simp only [atomicOrder] at small; omega)).2
        simp only [childFromFrame, childSize] at child
        unfold Within at own
        omega
      rw [if_pos here, Finset.sum_eq_single i, if_pos own]
      · simp only [gaps]
        rw [if_neg fun none => none.2 i own]
      · intro j _ other
        exact if_neg fun both => fam.apart j i other g ⟨both, own⟩
      · simp
    · push Not at some
      rw [Finset.sum_eq_zero fun i _ => if_neg (some i)]
      simp only [gaps, some, implies_true, and_true, not_false_eq_true, zero_add]
      exact if_congr (by omega) rfl rfl
  · simp [sum_huge, gaps]

theorem sum_held (stage : ι → Stage) (i : ι) (a : Stage) :
    ∑ j, (Function.update stage i a j).held (b j) =
      a.held (b i) + ∑ j ∈ Finset.univ.erase i, (stage j).held (b j) := by
  rw [← sum_update (fun j => (stage j).held (b j)) i (a.held (b i))]
  exact Finset.sum_congr rfl fun j _ =>
    Function.apply_update (fun j s => Stage.held (b j) s) stage i a j

def Stage.early (k : Nat) : Stage → Prop
  | .asked => True
  | .splitting _ => True
  | .waiting _ => k ≠ 0
  | _ => False

structure Entire (N c : Nat) (F : Held) (l : Lower) (stage : ι → Stage) (k : Nat) : Prop where
  backed : Backed N l (Held.whole c k + F)
  led : Led (Stage.rows ∘ stage) k
  early : ∀ i, (stage i).early k

/-- The child is split; a late split has set `k` rows that were clear. -/
structure Parted (N c : Nat) (b : ι → Nat × Nat) (F : Held) (l : Lower) (stage : ι → Stage)
    (k : Nat) : Prop where
  rows : ∃ s, l = lateRows s c k ∧ (s.children c).huge = false ∧
    (∀ r < k, s.rows (c * 8 + r) = 0#64) ∧
    Backed N s (∑ i, (stage i).held (b i) + (gaps c b + F))
  led : Led (Stage.rows ∘ stage) k
  bound : k ≤ 8

def Shared (N c : Nat) (b : ι → Nat × Nat) (F : Held) (l : Lower) (stage : ι → Stage) : Prop :=
  (∃ k, Entire N c F l stage k) ∨ ∃ k, Parted N c b F l stage k

omit [Fintype ι] in
theorem Entire.keep (entire : Entire N c F l stage k) {i : ι} {a : Stage}
    (rows : a.rows = (stage i).rows) (early : a.early k) :
    Entire N c F l (Function.update stage i a) k := by
  refine ⟨entire.backed, led_keep entire.led rows, fun j => ?_⟩
  · by_cases same : j = i
    · rwa [same, Function.update_self]
    · rw [Function.update_of_ne same]
      exact entire.early j

private theorem early_succ {a : Stage} (early : a.early k) : a.early (k + 1) := by
  cases a <;> first | trivial | exact Nat.succ_ne_zero k

private theorem early_held {a : Stage} {d : Nat × Nat} (early : a.early k) :
    a.held d = Held.run d.1 (2 ^ d.2) := by
  cases a <;> first | rfl | exact early.elim

omit [Fintype ι] [DecidableEq ι] in
private theorem led_row (led : Led (Stage.rows ∘ stage) k) {i : ι} {m : Nat} {row : Row}
    (stands : stage i = .splitting m) (set : m < k → row = BitVec.allOnes 64)
    (zero : row = 0#64) : m = k := by
  by_cases start : m = 0
  · subst start
    by_contra other
    have full := set (Nat.pos_of_ne_zero fun none => other none.symm)
    rw [zero] at full
    exact absurd full (by decide)
  · exact led_at led stands start

theorem entire_turn (entire : Entire N c F l stage k) (fam : Family N l₀ c b) {i : ι} {a : Stage}
    (stands : stage i = a) {next : Option Stage} {d : Int}
    (turn : Turn (b i).1 (b i).2 l a next l' d) :
    ∃ a', next = some a' ∧ Shared N c b F l' (Function.update stage i a') := by
  have here : (b i).1 / 512 = c := fam.here i
  have early := entire.early i
  rw [stands] at early
  have real : c < l.childCount := by
    rw [entire.backed.childCount_eq, ← here]
    exact valid_child (fam.valid i)
  have bound := real.trans_le (childCount_le_entryCount l)
  have backed : Backed N l (0 + Held.whole c k + F) := by
    rw [zero_add]
    exact entire.backed
  have entry := (backed.whole_alone bound).1
  obtain ⟨-, rows⟩ := backed.whole_rows bound real
  cases turn with
  | whole huge =>
    exact ⟨.splitting 0, rfl, Or.inl ⟨k, entire.keep (by rw [stands]; rfl) trivial⟩⟩
  | parted small =>
    rw [here, entry] at small
    cases small
  | row m less zero =>
    rw [here] at zero ⊢
    obtain rfl : m = k := led_row entire.led stands
      (fun set => by rw [rows m less, if_pos set]) zero
    refine ⟨.splitting (m + 1), rfl, Or.inl ⟨m + 1, ?_, ?_, fun j => ?_⟩⟩
    · have next := (backed.splitRow bound real less).2
      rwa [zero_add] at next
    · exact led_move entire.led (by rw [stands]; rfl)
    · by_cases same : j = i
      · rw [same, Function.update_self]
        trivial
      · rw [Function.update_of_ne same]
        exact early_succ (entire.early j)
  | beaten other =>
    have some : k ≠ 0 := by
      rintro rfl
      rw [here] at other
      exact other (rows 0 (by omega))
    exact ⟨.waiting retries, rfl, Or.inl ⟨k, entire.keep (by rw [stands]; rfl) some⟩⟩
  | split whole =>
    obtain rfl : 8 = k := led_at entire.led stands (Nat.succ_ne_zero 7)
    have done := backed.splitDone bound real
    have holds : ∑ j, (Function.update stage i .clearing j).held (b j) =
        ∑ j, Held.run (b j).1 (2 ^ (b j).2) := by
      apply Finset.sum_congr rfl
      intro j _
      by_cases same : j = i
      · rw [same, Function.update_self]
        rfl
      · rw [Function.update_of_ne same, early_held (entire.early j)]
    rw [zero_add, run_family fam, add_assoc, ← holds] at done
    rw [here]
    refine ⟨.clearing, rfl, Or.inr ⟨0, ⟨_, (lateRows_zero _ c).symm, ?_, ?_, done⟩,
      ?_, Nat.zero_le 8⟩⟩
    · rw [setChild_self]
    · intro r less
      exact absurd less (Nat.not_lt_zero r)
    · exact led_move entire.led (by rw [stands]; rfl)
  | lost other =>
    rw [here] at other
    exact absurd entry other
  | again left huge =>
    exact ⟨.waiting left, rfl, Or.inl ⟨k, entire.keep (by rw [stands]; rfl) early⟩⟩
  | seen left small =>
    rw [here, entry] at small
    cases small
  | clear => exact early.elim
  | refused => exact early.elim
  | count => exact early.elim
  | full => exact early.elim

theorem Parted.keep (parted : Parted N c b F l stage k) {i : ι} {a : Stage}
    (rows : a.rows = (stage i).rows) (held : a.held (b i) = (stage i).held (b i)) :
    Parted N c b F l (Function.update stage i a) k := by
  obtain ⟨s, same, small, zero, backed⟩ := parted.rows
  refine ⟨⟨s, same, small, zero, ?_⟩, led_keep parted.led rows, parted.bound⟩
  rwa [sum_held, held, ← sum_split (fun j => (stage j).held (b j)) i]

omit [Fintype ι] [DecidableEq ι] in
private theorem own_bits {s : Lower} (fam : Family N l₀ c b) {i : ι}
    (zero : ∀ r < k, s.rows (c * 8 + r) = 0#64) {m : Held}
    (backed : Backed N s (Held.run (b i).1 (2 ^ (b i).2) + m)) :
    k ≤ (b i).1 % 512 / 64 ∧
      s.rows (ownRow (b i).1) &&& ownMask (b i).1 (b i).2 = ownMask (b i).1 (b i).2 ∧
      Backed N (s.setRow (ownRow (b i).1) (s.rows (ownRow (b i).1) &&& ~~~ownMask (b i).1 (b i).2))
        (Held.taken c (2 ^ (b i).2) + m) := by
  have here : (b i).1 / 512 = c := fam.here i
  have small : (b i).2 ≤ 6 := fam.small i
  have bound : c < s.entryCount := by
    rw [backed.entryCount_eq, ← here]
    exact valid_entry (fam.valid i)
  obtain ⟨aligned, -⟩ := block_in_child (fam.valid i).2 (show (b i).2 ≤ 9 by omega)
  have le : 2 ^ (b i).2 ≤ 2 ^ 6 := Nat.pow_le_pow_right (by omega) small
  have fits : (b i).1 % 512 % 64 + 2 ^ (b i).2 ≤ 64 := (row_of_index aligned).2 (by omega)
  have pos : 0 < 2 ^ (b i).2 := Nat.two_pow_pos _
  have position : ownRow (b i).1 * 64 + (b i).1 % 512 % 64 = (b i).1 := by
    simp only [ownRow]
    omega
  have mask : IsRun (ownMask (b i).1 (b i).2) ((b i).1 % 512 % 64) (2 ^ (b i).2) :=
    isRun_rowMask small fits
  have held : Backed N s
      (0 + Held.run (ownRow (b i).1 * 64 + (b i).1 % 512 % 64) (2 ^ (b i).2) + m) := by
    rwa [zero_add, position]
  obtain ⟨set, cleared⟩ := held.clear (show ownRow (b i).1 / 8 = c by simp only [ownRow]; omega)
    bound pos mask
  rw [zero_add] at cleared
  refine ⟨?_, set, cleared⟩
  by_contra late
  have none : s.rows (ownRow (b i).1) = 0#64 := by
    rw [ownRow, here]
    exact zero _ (Nat.lt_of_not_le late)
  rw [none, BitVec.zero_and] at set
  have ones := mask.ones_eq
  rw [← set, ones_eq_zero.mpr rfl] at ones
  omega

omit [Fintype ι] [DecidableEq ι] in
private theorem own_credit {s : Lower} (fam : Family N l₀ c b) {i : ι} {m : Held}
    (backed : Backed N s (Stage.held (b i) .counting + m)) :
    childInc (s.children c) (b i).2 = some ⟨(s.children c).free + 2 ^ (b i).2, false⟩ ∧
      Backed N (s.setChild c ⟨(s.children c).free + 2 ^ (b i).2, false⟩) m := by
  have here : (b i).1 / 512 = c := fam.here i
  have bound : c < s.entryCount := by
    rw [backed.entryCount_eq, ← here]
    exact valid_entry (fam.valid i)
  rw [Stage.held, here, ← zero_add (Held.taken c _)] at backed
  have raised := backed.raise bound
  rwa [zero_add] at raised

theorem parted_turn (parted : Parted N c b F l stage k) (fam : Family N l₀ c b) {i : ι} {a : Stage}
    (stands : stage i = a) {next : Option Stage} {d : Int}
    (turn : Turn (b i).1 (b i).2 l a next l' d) :
    ∃ a', next = some a' ∧ Shared N c b F l' (Function.update stage i a') := by
  have here : (b i).1 / 512 = c := fam.here i
  obtain ⟨s, rfl, small, zero, backed⟩ := parted.rows
  rw [sum_split _ i, stands, add_assoc] at backed
  have kind : ((lateRows s c k).children ((b i).1 / 512)).huge ≠ true := by
    rw [here]
    exact small.symm ▸ Bool.false_ne_true
  have row_eq : ownRow (b i).1 = c * 8 + (b i).1 % 512 / 64 := by rw [ownRow, here]
  have last : (b i).1 % 512 / 64 < 8 := by omega
  cases turn with
  | whole huge => exact absurd huge kind
  | parted _ =>
    exact ⟨.clearing, rfl, Or.inr ⟨k, parted.keep (by rw [stands]; rfl) (by rw [stands]; rfl)⟩⟩
  | row m less clear =>
    rw [here, lateRows_row s less] at clear
    obtain rfl : m = k := led_row parted.led stands (fun set => if_pos set) clear
    rw [if_neg (Nat.lt_irrefl m)] at clear
    rw [here, lateRows_succ s less]
    refine ⟨.splitting (m + 1), rfl, Or.inr ⟨m + 1, ⟨s, rfl, small, ?_, ?_⟩, ?_, less⟩⟩
    · intro r inside
      rcases Nat.lt_or_eq_of_le (Nat.le_of_lt_succ inside) with below | rfl
      · exact zero r below
      · exact clear
    · rwa [sum_held, add_assoc]
    · exact led_move parted.led (by rw [stands]; rfl)
  | beaten other =>
    exact ⟨.waiting retries, rfl,
      Or.inr ⟨k, parted.keep (by rw [stands]; rfl) (by rw [stands]; rfl)⟩⟩
  | split whole => exact absurd (congrArg Child.huge whole) kind
  | lost other =>
    -- a late split never sets the rows of the block that its own thread is about to free
    obtain rfl : 8 = k := led_at parted.led stands (Nat.succ_ne_zero 7)
    have early := (own_bits fam zero backed).1
    omega
  | again left huge => exact absurd huge kind
  | seen left _ =>
    exact ⟨.clearing, rfl, Or.inr ⟨k, parted.keep (by rw [stands]; rfl) (by rw [stands]; rfl)⟩⟩
  | clear =>
    obtain ⟨later, -, cleared⟩ := own_bits fam zero backed
    rw [row_eq] at cleared ⊢
    rw [lateRows_row s last, if_neg (Nat.not_lt.mpr later), lateRows_setRow s later]
    refine ⟨.counting, rfl, Or.inr ⟨k, ⟨_, rfl, small, ?_, ?_⟩, ?_, parted.bound⟩⟩
    · intro r below
      rw [setRow_ne s _ (by omega)]
      exact zero r below
    · rw [sum_held, add_assoc, Stage.held, here]
      exact cleared
    · exact led_keep parted.led (by rw [stands]; rfl)
  | refused other =>
    obtain ⟨later, set, -⟩ := own_bits fam zero backed
    rw [row_eq] at set other
    rw [lateRows_row s last, if_neg (Nat.not_lt.mpr later)] at other
    exact absurd set other
  | count v room =>
    obtain ⟨raised, counted⟩ := own_credit fam backed
    rw [here] at room ⊢
    obtain rfl := Option.some.inj (raised.symm.trans room)
    refine ⟨.done, rfl, Or.inr ⟨k, ⟨s.setChild c ⟨(s.children c).free + 2 ^ (b i).2, false⟩, rfl,
      ?_, zero, ?_⟩, ?_, parted.bound⟩⟩
    · rw [setChild_self]
    · rw [sum_held, add_assoc, Stage.held, zero_add]
      exact counted
    · exact led_keep parted.led (by rw [stands]; rfl)
  | full none =>
    rw [here] at none
    change childInc (s.children c) (b i).2 = _ at none
    rw [(own_credit fam backed).1] at none
    cases none

omit [DecidableEq ι] in
theorem Shared.bounds (shared : Shared N c b F l stage) (fam : Family N l₀ c b) (i : ι) :
    c < l.childCount ∧ ((l.children c).huge = true → l.children c = ⟨0, true⟩) ∧
      (stage i).rows ≤ 8 := by
  have inside : c < childrenOf N := by
    rw [← show (b i).1 / 512 = c from fam.here i]
    exact valid_child (fam.valid i)
  have least {k : Nat} (led : Led (Stage.rows ∘ stage) k) (le : k ≤ 8) : (stage i).rows ≤ 8 := by
    by_cases none : (stage i).rows = 0
    · omega
    · exact (led.alone i none).1.trans_le le
  rcases shared with ⟨k, entire⟩ | ⟨k, parted⟩
  · have real : c < l.childCount := by rwa [entire.backed.childCount_eq]
    have bound := real.trans_le (childCount_le_entryCount l)
    have backed : Backed N l (0 + Held.whole c k + F) := by
      rw [zero_add]
      exact entire.backed
    exact ⟨real, fun _ => (backed.whole_alone bound).1,
      least entire.led (backed.whole_rows bound real).1⟩
  · obtain ⟨s, rfl, small, -, backed⟩ := parted.rows
    refine ⟨?_, fun huge => ?_, least parted.led parted.bound⟩
    · change c < s.childCount
      rwa [backed.childCount_eq]
    · exact absurd huge (small.symm ▸ Bool.false_ne_true)

end Family

/-! ## All threads -/

section Threads

variable {ι : Type} [Fintype ι] [DecidableEq ι] {c : Nat} {b : ι → Nat × Nat} {F : Held}

abbrev FreeingThreads (ι : Type) := Threads LoOp LoOp.Res Lower Int Result ι

def freeing (N : Nat) (l : Lower) (b : ι → Nat × Nat) : FreeingThreads ι :=
  ⟨l, fun i => lowerPut N (b i).1 (b i).2, fun _ => llfreeErr .ok, fun _ => 0⟩

def FreeingStep (meets : FreeingThreads ι → (o : LoOp) → o.Res → Prop) :
    FreeingThreads ι → FreeingThreads ι → Prop :=
  GuardedStep (Sys.ofExec LoOp.exec) polls (fun _ _ _ => False) meets

/-- No split that has set a row comes to a row that is set. -/
def Undisturbed (P : FreeingThreads ι) (o : LoOp) (_ : o.Res) : Prop := Clear P.mem o

instance (P : FreeingThreads ι) (o : LoOp) (r : o.Res) : Decidable (Undisturbed P o r) :=
  inferInstanceAs (Decidable (Clear P.mem o))

structure Stands (N c : Nat) (b : ι → Nat × Nat) (F : Held) (P : FreeingThreads ι)
    (stage : ι → Stage) : Prop where
  thread : ∀ i, P.thread i = (stage i).prog (b i).1 (b i).2
  polled : ∀ i, (stage i).polled (P.ledger i)
  shared : Shared N c b F P.mem stage

variable {P P' : FreeingThreads ι} {stage : ι → Stage}

theorem stands_step (fam : Family N l₀ c b) (stands : Stands N c b F P stage)
    (step : FreeingStep Undisturbed P P') : ∃ stage', Stands N c b F P' stage' := by
  cases step with
  | start i h k p idle allowed => exact allowed.elim
  | act i o rest r s next effect met =>
    obtain ⟨-, entry, bound⟩ := stands.shared.bounds fam i
    rw [← show (b i).1 / 512 = c from fam.here i] at entry
    obtain ⟨stage', turn, after⟩ := turn_of_step (fam.small i) entry bound
      ((stands.thread i).symm.trans next) effect met
    obtain ⟨a, rfl, shared⟩ : ∃ a, stage' = some a ∧
        Shared N c b F s (Function.update stage i a) := by
      rcases stands.shared with ⟨k, entire⟩ | ⟨k, parted⟩
      · exact entire_turn entire fam rfl turn
      · exact parted_turn parted fam rfl turn
    refine ⟨Function.update stage i a, fun j => ?_, fun j => ?_, shared⟩
    · dsimp only
      by_cases same : j = i
      · subst same
        rw [Function.update_self, Function.update_self]
        exact after a rfl
      · rw [Function.update_of_ne same, Function.update_of_ne same]
        exact stands.thread j
    · dsimp only
      by_cases same : j = i
      · subst same
        rw [Function.update_self, Function.update_self]
        exact polled_turn turn (stands.polled j)
      · rw [Function.update_of_ne same, Function.update_of_ne same]
        exact stands.polled j

structure Elsewhere (c : Nat) (F : Held) : Prop where
  credit : F.credit c = 0
  bits : ∀ g, g / 512 = c → F.bit g = 0

omit [DecidableEq ι] in
theorem stands_start (fam : Family N l c b) :
    ∃ F, Elsewhere c F ∧ Stands N c b F (freeing N l b) fun _ => .asked := by
  have token : (allocated l).huge c = {0} := by simp [allocated, fam.whole]
  obtain ⟨F, same⟩ := exists_add_whole token
  refine ⟨F, ⟨?_, fun g here => ?_⟩, fun i => ?_, fun i => rfl,
    Or.inl ⟨0, ?_, ?_, fun i => trivial⟩⟩
  · have credit := congrArg (fun h => h.credit c) same
    simpa [allocated] using credit.symm
  · have bit := congrArg (fun h => h.bit g) same
    simpa [allocated, here, fam.whole] using bit.symm
  · exact lowerPut_asked (fam.valid i) (fam.small i)
  · rw [← same]
    exact fam.cons.backed
  · exact ⟨fun i some => absurd rfl some, fun some => absurd rfl some⟩

/-- What holds of the threads at any time, and of the child when all calls have returned. -/
structure PartsFreed (c : Nat) (b : ι → Nat × Nat) (P : FreeingThreads ι) : Prop where
  assertions : ∀ i, P.thread i ≠ .abort ∧
    ∀ o rest, P.thread i = .step o rest → LoOp.exec o P.mem ≠ none
  answers : ∀ i r, P.thread i = .ret r → (r = llfreeErr .ok ∧ P.ledger i ≤ retries) ∨
    (r = llfreeErr .memory ∧ P.ledger i = retries + 1)
  small : (∀ i, ∃ r, P.thread i = .ret r) → (P.mem.children c).huge = false
  bits : (∀ i, ∃ r, P.thread i = .ret r) → ∀ g, g / childSize = c →
    (bitSet P.mem g = false ↔ ∃ i, P.thread i = .ret (llfreeErr .ok) ∧ Within (b i).1 (b i).2 g)
  count : (∀ i, ∃ r, P.thread i = .ret r) →
    (P.mem.children c).free = childSize - fieldCountOnes P.mem c

omit [DecidableEq ι] in
private theorem stands_over [Nonempty ι] (fam : Family N l₀ c b) (stands : Stands N c b F P stage)
    (ended : ∀ i, ∃ r, P.thread i = .ret r) :
    (∀ i, (stage i = .done ∧ P.thread i = .ret (llfreeErr .ok)) ∨
      (stage i = .waiting 0 ∧ P.thread i = .ret (llfreeErr .memory))) ∧
    (P.mem.children c).huge = false ∧
      Backed N P.mem (∑ i, (stage i).held (b i) + (gaps c b + F)) := by
  have ends (i : ι) : (stage i = .done ∧ P.thread i = .ret (llfreeErr .ok)) ∨
      (stage i = .waiting 0 ∧ P.thread i = .ret (llfreeErr .memory)) := by
    obtain ⟨r, ret⟩ := ended i
    have last := Stage.ended (fam.small i) (stands.shared.bounds fam i).2.2
      ((stands.thread i).symm.trans ret)
    rw [ret]
    rcases last with ⟨there, rfl⟩ | ⟨there, rfl⟩
    · exact Or.inl ⟨there, rfl⟩
    · exact Or.inr ⟨there, rfl⟩
  have none (i : ι) : (stage i).rows = 0 := by
    rcases ends i with ⟨there, -⟩ | ⟨there, -⟩ <;> rw [there] <;> rfl
  have leaderless {k : Nat} (led : Led (Stage.rows ∘ stage) k) : k = 0 := by
    by_contra some
    obtain ⟨i, own⟩ := led.lead some
    exact some (own.symm.trans (none i))
  refine ⟨ends, ?_⟩
  rcases stands.shared with ⟨k, entire⟩ | ⟨k, parted⟩
  · obtain rfl := leaderless entire.led
    obtain ⟨i⟩ := ‹Nonempty ι›
    have early := entire.early i
    rcases ends i with ⟨there, -⟩ | ⟨there, -⟩
    · rw [there] at early
      exact early.elim
    · rw [there] at early
      exact absurd rfl early
  · obtain rfl := leaderless parted.led
    obtain ⟨s, same, small, -, backed⟩ := parted.rows
    rw [lateRows_zero] at same
    exact same ▸ ⟨small, backed⟩

omit [DecidableEq ι] in
private theorem free_iff (fam : Family N l₀ c b) {g : Nat} (here : g / 512 = c)
    (ends : ∀ i, (stage i = .done ∧ P.thread i = .ret (llfreeErr .ok)) ∨
      (stage i = .waiting 0 ∧ P.thread i = .ret (llfreeErr .memory))) :
    (∑ i, ((stage i).held (b i)).bit g) + (gaps c b).bit g = 0 ↔
      ∃ i, P.thread i = .ret (llfreeErr .ok) ∧ Within (b i).1 (b i).2 g := by
  have held (i : ι) : ((stage i).held (b i)).bit g = 0 ↔
      P.thread i = .ret (llfreeErr .ok) ∨ ¬ Within (b i).1 (b i).2 g := by
    rcases ends i with ⟨stands, ret⟩ | ⟨stands, ret⟩
    · rw [stands, ret]
      exact iff_of_true rfl (Or.inl rfl)
    · rw [stands, ret]
      have differ : llfreeErr .memory ≠ llfreeErr .ok := by decide
      change (if Within (b i).1 (b i).2 g then 1 else 0) = 0 ↔ _
      simp [differ]
  rw [Nat.add_eq_zero_iff, Finset.sum_eq_zero_iff]
  constructor
  · rintro ⟨none, noGap⟩
    obtain ⟨i, own⟩ : ∃ i, Within (b i).1 (b i).2 g := by
      by_contra outside
      rw [not_exists] at outside
      simp [gaps, here, outside] at noGap
    rcases (held i).mp (none i (Finset.mem_univ i)) with ok | other
    · exact ⟨i, ok, own⟩
    · exact absurd own other
  · rintro ⟨i, ok, own⟩
    refine ⟨fun j _ => (held j).mpr ?_, if_neg fun outside => outside.2 i own⟩
    by_cases same : j = i
    · exact Or.inl (same ▸ ok)
    · exact Or.inr fun both => fam.apart j i same g ⟨both, own⟩

theorem parts_freed [Nonempty ι] (fam : Family N l c b)
    (run : Relation.ReflTransGen (FreeingStep Undisturbed) (freeing N l b) P) :
    PartsFreed c b P := by
  obtain ⟨F, away, start⟩ := stands_start fam
  obtain ⟨stage, stands⟩ : ∃ stage, Stands N c b F P stage := by
    induction run with
    | refl => exact ⟨_, start⟩
    | tail _ step ih =>
      obtain ⟨stage, before⟩ := ih
      exact stands_step fam before step
  have inside : c < P.mem.entryCount := by
    obtain ⟨i⟩ := ‹Nonempty ι›
    exact (stands.shared.bounds fam i).1.trans_le (childCount_le_entryCount _)
  refine ⟨fun i => ?_, fun i r ret => ?_, fun ended => ?_, fun ended g here => ?_, fun ended => ?_⟩
  · obtain ⟨real, -, bound⟩ := stands.shared.bounds fam i
    rw [← show (b i).1 / 512 = c from fam.here i] at real
    rw [stands.thread i]
    exact Stage.able real (fam.small i) bound
  · have polled := stands.polled i
    rcases Stage.ended (fam.small i) (stands.shared.bounds fam i).2.2
      ((stands.thread i).symm.trans ret) with ⟨there, rfl⟩ | ⟨there, rfl⟩
    · rw [there] at polled
      exact Or.inl ⟨rfl, polled⟩
    · rw [there] at polled
      simp only [Stage.polled] at polled
      exact Or.inr ⟨rfl, by omega⟩
  · exact (stands_over fam stands ended).2.1
  · obtain ⟨ends, small, backed⟩ := stands_over fam stands ended
    have bit := (backed.small c inside small).bits g here
    rw [Held.add_bit, Held.add_bit, away.bits g here, add_zero, sum_bit] at bit
    rw [← free_iff fam here ends]
    cases set : bitSet P.mem g with
    | true =>
      rw [set] at bit
      simp only [Bool.toNat_true, Bool.true_eq_false, false_iff] at bit ⊢
      omega
    | false =>
      rw [set] at bit
      simpa using bit
  · obtain ⟨ends, small, backed⟩ := stands_over fam stands ended
    have count := (backed.small c inside small).count
    have none : (∑ i, (stage i).held (b i)).credit c = 0 := by
      rw [sum_credit]
      apply Finset.sum_eq_zero
      intro i _
      rcases ends i with ⟨stands, -⟩ | ⟨stands, -⟩ <;> rw [stands] <;> rfl
    rw [Held.add_credit, Held.add_credit, none, away.credit] at count
    change _ + (0 + (0 + 0)) + _ = 512 at count
    simp only [childSize]
    omega

end Threads

/-! ## Two threads -/

def hugeTaken : Lower := (lowerInit zeroed 512 .alloc).2

def sideBySide (order : Nat) (i : Fin 2) : Nat × Nat := (i * 2 ^ order, order)

private theorem sideBySide_family {order : Nat} (small : order ≤ 6) :
    Family 512 hugeTaken 0 (sideBySide order) := by
  have le : 2 ^ order ≤ 2 ^ 6 := Nat.pow_le_pow_right (by omega) small
  have start (i : Fin 2) : i.val * 2 ^ order ≤ 2 ^ order := by
    calc i.val * 2 ^ order ≤ 1 * 2 ^ order := Nat.mul_le_mul_right _ (by omega)
      _ = 2 ^ order := Nat.one_mul _
  refine ⟨clear_consistent zeroed 512 false, rfl, fun i => ⟨?_, Dvd.intro_left _ rfl⟩,
    fun i => small, fun i => ?_, fun i j other g both => ?_⟩
  · have low := start i
    simp only [sideBySide]
    omega
  · have low := start i
    simp only [sideBySide, childFromFrame, childSize]
    omega
  · have index (i : Fin 2) (within : Within (sideBySide order i).1 (sideBySide order i).2 g) :
        g / 2 ^ order = i := by
      obtain ⟨low, high⟩ := within
      refine Nat.div_eq_of_lt_le low ?_
      rw [Nat.succ_mul]
      exact high
    exact other (Fin.ext ((index i both.1).symm.trans (index j both.2)))

def afterTurns (order : Nat) (schedule : List (Fin 2)) : FreeingThreads (Fin 2) :=
  (freeing 512 hugeTaken (sideBySide order)).acts LoOp.exec polls schedule

private theorem afterTurns_run {order : Nat} {schedule : List (Fin 2)}
    {meets : FreeingThreads (Fin 2) → (o : LoOp) → o.Res → Prop}
    [∀ P o r, Decidable (meets P o r)]
    (ready : (freeing 512 hugeTaken (sideBySide order)).allReady LoOp.exec polls (fun _ _ => True)
      meets schedule = true) :
    Relation.ReflTransGen (FreeingStep meets) (freeing 512 hugeTaken (sideBySide order))
      (afterTurns order schedule) :=
  acts_steps (fun _ _ _ _ _ done => done) ready

/-- A thread that waits for the split of another one gives up; and a split that comes when the first
row is free again finds the second one set, and fails the assertion of its undo. -/
theorem parts_not_freed :
    (∃ b P, Family 512 hugeTaken 0 b ∧
      Relation.ReflTransGen (FreeingStep fun _ _ _ => True) (freeing 512 hugeTaken b) P ∧
      P.thread (1 : Fin 2) = .ret (llfreeErr .memory)) ∧
    ∃ b P, Family 512 hugeTaken 0 b ∧
      Relation.ReflTransGen (FreeingStep fun _ _ _ => True) (freeing 512 hugeTaken b) P ∧
      P.thread (1 : Fin 2) = .abort :=
  ⟨⟨_, afterTurns 0 [0, 0, 1, 1, 1, 1, 1, 1], sideBySide_family (by decide),
      afterTurns_run (by decide +kernel), rfl⟩,
    ⟨_, afterTurns 6 ([1] ++ List.replicate 12 0 ++ [1, 1, 1]), sideBySide_family (by decide),
      afterTurns_run (by decide +kernel), rfl⟩⟩

/-- The second thread waits until the first one has split the child. -/
theorem parts_freed_two :
    PartsFreed 0 (sideBySide 0)
      (afterTurns 0 ([0, 0, 1, 1, 1] ++ List.replicate 8 0 ++ [1, 1, 0, 1, 0])) :=
  parts_freed (sideBySide_family (by decide)) (afterTurns_run (by decide +kernel))

end LLFree.Lower.Splitting

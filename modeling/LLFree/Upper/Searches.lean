/- module: LLFree/Upper/Searches
   digest: What a search over the tree array comes to when its attempts succeed or give back. -/

import LLFree.Upper.Calls

set_option autoImplicit false
set_option relaxedAutoImplicit false

namespace LLFree.Upper.Searches

open LLFree.Atomic.Program LLFree.Code.Types LLFree.Code.Entries LLFree.Code.Trees
open LLFree.Code.Shared LLFree.Code.Llfree LLFree.Upper.Calls

/-! ## Positions -/

theorem searchIdx_onto {start len t : Nat} (inside : start < len) (tree : t < len) :
    ∃ i < len, searchIdx start len i = t := by
  have wrap : ∀ x, x = t ∨ x = t + len ∨ x = t + len + len → x % len = t := by
    rintro x (rfl | rfl | rfl)
    · exact Nat.mod_eq_of_lt tree
    · rw [Nat.add_mod_right, Nat.mod_eq_of_lt tree]
    · rw [Nat.add_mod_right, Nat.add_mod_right, Nat.mod_eq_of_lt tree]
  -- the distance upwards from `start`, or downwards where that is shorter
  by_cases near : (t + len - start) % len * 2 < len
  · refine ⟨2 * ((t + len - start) % len), by omega, ?_⟩
    rw [searchIdx, if_pos (Nat.mul_mod_right 2 _), Nat.mul_div_cancel_left _ (by decide)]
    apply wrap
    by_cases up : start ≤ t
    · rw [show t + len - start = t - start + len by omega, Nat.add_mod_right,
        Nat.mod_eq_of_lt (by omega)]
      omega
    · rw [Nat.mod_eq_of_lt (by omega)]
      omega
  · have small : (t + len - start) % len < len := Nat.mod_lt _ (by omega)
    refine ⟨2 * (len - (t + len - start) % len) - 1, by omega, ?_⟩
    rw [searchIdx, if_neg (by omega),
      show (2 * (len - (t + len - start) % len) - 1 + 1) / 2 =
        len - (t + len - start) % len by omega]
    apply wrap
    by_cases up : start ≤ t
    · rw [show t + len - start = t - start + len by omega, Nat.add_mod_right,
        Nat.mod_eq_of_lt (show t - start < len by omega)]
      omega
    · rw [Nat.mod_eq_of_lt (show t + len - start < len by omega)]
      omega

/-! ## Candidates -/

def Led (best : List Best) : Prop := ∃ b rest, best = b :: rest ∧ b.prio ≠ 0

theorem led_insert {prio : UInt8} {idx : Nat} {best : List Best}
    (led : Led best ∨ best ≠ [] ∧ prio ≠ 0) : Led (insertBest prio idx best) := by
  cases best with
  | nil => simp [Led] at led
  | cons b rest =>
    by_cases better : prio > b.prio
    · refine ⟨⟨prio, idx⟩, (b :: rest).dropLast, by rw [insertBest, if_pos better], ?_⟩
      rintro rfl
      exact absurd better (by simp)
    · refine ⟨b, insertBest prio idx rest, by rw [insertBest, if_neg better], ?_⟩
      rcases led with ⟨c, others, same, taken⟩ | ⟨-, some⟩
      · cases same
        exact taken
      · intro none
        rw [none] at better
        exact better (UInt8.pos_iff_ne_zero.mpr some)

theorem insert_ne_nil {prio : UInt8} {idx : Nat} {best : List Best} (some : best ≠ []) :
    insertBest prio idx best ≠ [] := by
  cases best with
  | nil => exact absurd rfl some
  | cons b rest =>
    rw [insertBest]
    split_ifs <;> simp

theorem mem_insert {prio : UInt8} {idx : Nat} {best : List Best} {b : Best}
    (member : b ∈ insertBest prio idx best) : b = ⟨prio, idx⟩ ∨ b ∈ best := by
  induction best with
  | nil => cases member
  | cons c rest ih =>
    rw [insertBest] at member
    split_ifs at member
    · rcases List.mem_cons.mp member with rfl | old
      · exact Or.inl rfl
      · exact Or.inr (List.mem_of_mem_dropLast old)
    · rcases List.mem_cons.mp member with rfl | later
      · exact Or.inr List.mem_cons_self
      · exact (ih later).imp_right (List.mem_cons_of_mem c)

/-! ## Scans -/

section Scan

variable {K : Config} {I : Llfree Lower → Prop} {W : Nat → Prop}
  {Q : Nat → Result → Llfree Lower → Prop} {rate : Nat → Nat → Policy} {cb : Nat → UpProg Result}
  {start : Nat} {s : Llfree Lower}

/-- Every attempt succeeds with `Q` or restores `I`, and on the trees `W` it succeeds. -/
def Settles (K : Config) (cb : Nat → UpProg Result) (I : Llfree Lower → Prop) (W : Nat → Prop)
    (Q : Nat → Result → Llfree Lower → Prop) : Prop :=
  ∀ idx < K.treesLen, ∀ t, I t → ∃ r t', Prog.run (UpOp.exec K) (cb idx) t = some (r, t') ∧
    (r.error = .memory ∧ I t' ∧ ¬ W idx ∨ r.error ≠ .memory ∧ Q idx r t')

def Skipped (rate : Nat → Nat → Policy) (tree : Tree) : Prop :=
  tree.reserved = true ∨ (rate tree.cls tree.free).type = .invalid

def Deferred (rate : Nat → Nat → Policy) (tree : Tree) : Prop :=
  tree.reserved = false ∧ (rate tree.cls tree.free).type ≠ .invalid ∧
    ¬ ((rate tree.cls tree.free).type = .match ∧ (rate tree.cls tree.free).priority = 255)

def KeptInVain (K : Config) (I : Llfree Lower → Prop) (W : Nat → Prop)
    (rate : Nat → Nat → Policy) : Prop :=
  ∃ j < K.treesLen, (∃ u, I u ∧ Deferred rate (u.upper.trees j)) ∧ ¬ W j

/-- Why a scan that fails has not allocated in tree `idx`: it passed over it, the attempt failed, or
the tree was kept and another kept one failed. The priority 255 of a kept tree wraps to none. -/
def Refused (K : Config) (I : Llfree Lower → Prop) (W : Nat → Prop) (rate : Nat → Nat → Policy)
    (idx : Nat) : Prop :=
  ∃ t, I t ∧ (Skipped rate (t.upper.trees idx) ∨ ¬ W idx ∨ Deferred rate (t.upper.trees idx) ∧
    ((rate (t.upper.trees idx).cls (t.upper.trees idx).free).priority = 255 ∨
      KeptInVain K I W rate))

theorem run_tryBest (settles : Settles K cb I W Q) (best : List Best) (ok : BestOk K best)
    (start : I s) : ∃ r s', Prog.run (UpOp.exec K) (tryBest cb best) s = some (r, s') ∧
      ((r.error ≠ .memory ∧ ∃ idx < K.treesLen, Q idx r s') ∨
        r.error = .memory ∧ I s' ∧ (Led best → ∃ b ∈ best, b.prio ≠ 0 ∧ ¬ W b.idx)) := by
  induction best generalizing s with
  | nil =>
    refine ⟨_, s, rfl, Or.inr ⟨rfl, start, ?_⟩⟩
    rintro ⟨b, rest, same, -⟩
    cases same
  | cons b rest ih =>
    rw [tryBest]
    by_cases empty : b.prio = 0
    · rw [if_pos empty]
      refine ⟨_, s, rfl, Or.inr ⟨rfl, start, ?_⟩⟩
      rintro ⟨c, others, same, taken⟩
      cases same
      exact absurd empty taken
    · rw [if_neg empty]
      have inside := ok b List.mem_cons_self empty
      obtain ⟨r, t, run, ⟨error, kept, fails⟩ | ⟨error, hit⟩⟩ := settles b.idx inside s start
      · obtain ⟨r', s', later, result⟩ := ih (fun c mem => ok c (List.mem_cons_of_mem b mem)) kept
        refine ⟨r', s', ?_, result.imp_right ?_⟩
        · rw [Prog.run_bind_some run, if_neg (not_not.mpr error)]
          exact later
        · rintro ⟨error', kept', -⟩
          exact ⟨error', kept', fun _ => ⟨b, List.mem_cons_self, empty, fails⟩⟩
      · refine ⟨r, t, ?_, Or.inl ⟨error, b.idx, inside, hit⟩⟩
        rw [Prog.run_bind_some run, if_pos error]
        rfl

private theorem run_load {α : Type} {idx : Nat} (inside : idx < K.treesLen) (k : Tree → UpProg α) :
    Prog.run (UpOp.exec K) (treesLoad idx >>= k) s =
      Prog.run (UpOp.exec K) (k (s.upper.trees idx)) s := by
  simp [treesLoad, Prog.step_bind, Prog.run_step, UpOp.exec, TableOp.exec, inside]

def BestKept (K : Config) (I : Llfree Lower → Prop) (rate : Nat → Nat → Policy) (best : List Best) :
    Prop :=
  ∀ b ∈ best, b.prio ≠ 0 → b.idx < K.treesLen ∧ ∃ t, I t ∧ Deferred rate (t.upper.trees b.idx)

theorem run_scanBest (start : Nat) (settles : Settles K cb I W Q) (pos : 0 < K.treesLen)
    (positions : List Nat)
    (best : List Best) (places : best ≠ []) (ok : BestKept K I rate best) (start' : I s) :
    ∃ r s', Prog.run (UpOp.exec K) (scanBest K start rate cb positions best) s = some (r, s') ∧
      ((r.error ≠ .memory ∧ ∃ idx < K.treesLen, Q idx r s') ∨
        r.error = .memory ∧ I s' ∧ (Led best → KeptInVain K I W rate) ∧
          ∀ i ∈ positions, Refused K I W rate (searchIdx start K.treesLen i)) := by
  induction positions generalizing s best with
  | nil =>
    obtain ⟨r, s', run, result⟩ := run_tryBest settles best (fun b mem used => (ok b mem used).1)
      start'
    refine ⟨r, s', run, result.imp_right ?_⟩
    rintro ⟨error, kept, vain⟩
    refine ⟨error, kept, fun led => ?_, by simp⟩
    obtain ⟨b, member, used, fails⟩ := vain led
    obtain ⟨inside, deferred⟩ := ok b member used
    exact ⟨b.idx, inside, deferred, fails⟩
  | cons i rest ih =>
    have inside : searchIdx start K.treesLen i < K.treesLen := searchIdx_lt pos
    rw [scanBest, run_load inside]
    generalize tree : s.upper.trees (searchIdx start K.treesLen i) = entry
    have here : entry = s.upper.trees (searchIdx start K.treesLen i) := tree.symm
    -- what the rest of the scan says, with a reason for this position
    have go : ∀ best' t, best' ≠ [] → BestKept K I rate best' → I t →
        (Led best → Led best') → Refused K I W rate (searchIdx start K.treesLen i) ∨
          (Led best' ∧ Deferred rate entry) →
        ∃ r s', Prog.run (UpOp.exec K) (scanBest K start rate cb rest best') t =
          some (r, s') ∧ ((r.error ≠ .memory ∧ ∃ idx < K.treesLen, Q idx r s') ∨
            r.error = .memory ∧ I s' ∧ (Led best → KeptInVain K I W rate) ∧
              ∀ j ∈ i :: rest, Refused K I W rate (searchIdx start K.treesLen j)) := by
      intro best' t places' ok' kept grows reason
      obtain ⟨r, s', run, result⟩ := ih best' places' ok' kept
      refine ⟨r, s', run, result.imp_right ?_⟩
      rintro ⟨error, kept', vain, refused⟩
      refine ⟨error, kept', fun led => vain (grows led), List.forall_mem_cons.mpr ⟨?_, refused⟩⟩
      rcases reason with reason | ⟨led, deferred⟩
      · exact reason
      · exact ⟨s, start', Or.inr (Or.inr ⟨here ▸ deferred, Or.inr (vain led)⟩)⟩
    by_cases reserved : entry.reserved = true
    · rw [if_pos reserved]
      exact go best s places ok start' id (Or.inl ⟨s, start', Or.inl (Or.inl (here ▸ reserved))⟩)
    · rw [if_neg reserved]
      dsimp only
      by_cases invalid : (rate entry.cls entry.free).type = .invalid
      · rw [if_pos invalid]
        exact go best s places ok start' id (Or.inl ⟨s, start', Or.inl (Or.inr (here ▸ invalid))⟩)
      · rw [if_neg invalid]
        by_cases perfect : (rate entry.cls entry.free).type = .match ∧
            (rate entry.cls entry.free).priority = 255
        · rw [if_pos perfect]
          obtain ⟨r, t, run, ⟨error, kept, fails⟩ | ⟨error, hit⟩⟩ := settles _ inside s start'
          · rw [Prog.run_bind_some run, if_neg (not_not.mpr error)]
            exact go best t places ok kept id (Or.inl ⟨s, start', Or.inr (Or.inl fails)⟩)
          · rw [Prog.run_bind_some run, if_pos error]
            exact ⟨r, t, rfl, Or.inl ⟨error, _, inside, hit⟩⟩
        · rw [if_neg perfect]
          have deferred : Deferred rate entry := ⟨by simpa using reserved, invalid, perfect⟩
          apply go _ s (insert_ne_nil places) _ start' (fun led => led_insert (Or.inl led))
          · by_cases wraps : (rate entry.cls entry.free).priority + 1 = 0
            · refine Or.inl ⟨s, start', Or.inr (Or.inr ⟨here ▸ deferred, Or.inl ?_⟩)⟩
              rw [← here]
              exact UInt8.add_left_inj 1 |>.mp (wraps.trans (by decide))
            · exact Or.inr ⟨led_insert (Or.inr ⟨places, wraps⟩), deferred⟩
          · intro b member used
            rcases mem_insert member with rfl | old
            · exact ⟨inside, s, start', here ▸ deferred⟩
            · exact ok b old used

theorem run_treesSearchBest (settles : Settles K cb I W Q) (pos : 0 < K.treesLen)
    (start offset len : Nat) (rate : Nat → Nat → Policy) (start' : I s) :
    ∃ r s', Prog.run (UpOp.exec K) (treesSearchBest K start offset len rate cb) s = some (r, s') ∧
      ((r.error ≠ .memory ∧ ∃ idx < K.treesLen, Q idx r s') ∨ r.error = .memory ∧ I s' ∧
        ∀ i, offset ≤ i → i < len → Refused K I W rate (searchIdx start K.treesLen i)) := by
  have empty : BestKept K I rate (List.replicate 8 ⟨0, 0⟩) := by
    intro b member used
    rw [List.eq_of_mem_replicate member] at used
    exact absurd rfl used
  obtain ⟨r, s', run, result⟩ := run_scanBest start settles pos
    (List.range' offset (len - offset)) (List.replicate 8 ⟨0, 0⟩) (by simp) empty start'
  refine ⟨r, s', run, result.imp_right ?_⟩
  rintro ⟨error, kept, -, refused⟩
  refine ⟨error, kept, fun i above below => refused i ?_⟩
  rw [List.mem_range'_1]
  omega

end Scan

end LLFree.Upper.Searches

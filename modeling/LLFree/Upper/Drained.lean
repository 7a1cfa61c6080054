/- module: LLFree/Upper/Drained
   digest: A drain hands every free frame back, and allocations find what it has handed back. -/

import LLFree.Atomic.Loops
import LLFree.Upper.Effects
import LLFree.Upper.Pristine
import LLFree.Upper.Scarcity

set_option autoImplicit false
set_option relaxedAutoImplicit false

namespace LLFree.Upper.Drained

open LLFree.Atomic.Program LLFree.Atomic.Loops LLFree.Code.Types LLFree.Code.Entries
open LLFree.Code.Lower LLFree.Code.Local LLFree.Code.Shared LLFree.Code.Llfree LLFree.Lower.Quiet
open LLFree.Lower.FreeCount LLFree.Lower.Statistics LLFree.Upper.Ledger LLFree.Upper.Slots
open LLFree.Upper.Steps LLFree.Upper.Calls LLFree.Upper.Sequential LLFree.Upper.Balance
open LLFree.Upper.Frames LLFree.Upper.Pristine LLFree.Upper.Attempts LLFree.Upper.Effects
open LLFree.Upper.Scarcity

variable {K : Config} {fits : Fits K} {s s' : Llfree Lower} {l : Lower} {u : Upper} {t cls : Nat}
  {slot : Option Nat}

/-- Every free frame is counted in its tree, where every allocation may take it. -/
structure HandedBack (K : Config) (s : Llfree Lower) : Prop where
  slots : ∀ c i, K.HasSlot c i → (s.upper.slots c i).present = false
  idle : ∀ t < K.treesLen, (s.upper.trees t).reserved = false
  counters : ∀ t < K.treesLen, (s.upper.trees t).free =
    (lowerStatsAt s.lower (frameFromTree t) treeOrder).freeFrames

theorem handedBack_of_empty {P : Promise K} (sound : Sound P (words fits) s 0)
    (empty : ∀ c i, K.HasSlot c i → s.upper.slots c i = noReserved) : HandedBack K s := by
  refine ⟨fun c i has => ?_, fun t inside => idle_of_empty sound empty inside, fun t inside => ?_⟩
  · rw [empty c i has]
    rfl
  · have below : frameFromTree t < K.frames := by
      simp only [Config.treesLen, divCeil, frameFromTree, treeSize] at inside ⊢
      omega
    have here : frameFromTree t / 4096 = t := Nat.mul_div_cancel t (by decide)
    rw [idle_counter sound inside (idle_of_empty sound empty inside),
      stats_tree_free sound.good below here]

/-! ## A second drain -/

private theorem setSlot_same {c i : Nat} (same : u.slots c i = noReserved) :
    u.setSlot c i noReserved = u := by
  rw [Upper.setSlot, ← same, Function.update_eq_self, Function.update_eq_self]

theorem drain_empty (empty : ∀ c i, K.HasSlot c i → s.upper.slots c i = noReserved) :
    Call.drain.run K s = some (none, s) := by
  have each : Prog.run (UpOp.exec K) (llfreeDrain K) s = some ((), s) := by
    apply run_each_same
    intro p member
    have has : K.HasSlot p.1 p.2 := mem_allSlots.mp member
    have slot := empty p.1 p.2 has
    have swap : (TableOp.localSwap p.1 p.2 noReserved).exec K s.upper =
        some (noReserved, s.upper) := by
      simp only [TableOp.exec, if_pos has, slot, setSlot_same slot]
    simp only [llLocalDrain, localSwap, Prog.step_bind, Prog.ret_bind, Prog.pure_eq]
    rw [run_table swap]
    rfl
  exact (Prog.run_bind_some each).trans rfl

/-! ## Allocation after a drain -/

private theorem own_matches (standard : Standard K) (n : Nat) :
    (K.policy cls cls n).type ≠ .demote := by
  have order := standard.byClass cls cls n
  rw [order]
  simp

/-- Where every free frame is counted in its tree, an allocation fails only without free frames. -/
theorem get_drained {numbered : Numbered K} (standard : Standard K)
    (small : K.numClasses ≤ maxClasses) (sound : Sound (numberedPromise numbered) (words fits) s 0)
    (empty : ∀ c i, K.HasSlot c i → s.upper.slots c i = noReserved) (pos : 0 < K.treesLen)
    (configured : K.locals cls ≠ none) (legal : ∀ i, slot = some i → K.HasSlot cls i) {r : Result}
    (run : (Call.get none ⟨0, cls, slot⟩).run K s = some (some r, s')) :
    r.error = .ok ↔ ∃ f < K.frames, IsFree s.lower f := by
  have row : RowOrHuge (⟨0, cls, slot⟩ : Request).order := Or.inl (Nat.zero_le 6)
  constructor
  · intro ok
    rcases get_effect (reach_of_fits fits) sound.good row run with ⟨-, valid, -, took⟩ | ⟨failed, -⟩
    · exact ⟨r.frame, valid.1, took.free r.frame ⟨le_rfl, Nat.lt_succ_self _⟩⟩
    · exact absurd ok failed
  · rintro ⟨f, below, free⟩
    obtain ⟨r', s'', done, same⟩ := Prog.run_bind_eq_some.mp run
    cases same
    have valid : validateRequest K ⟨0, cls, slot⟩ none = true := by
      apply valid_of_checked
      refine ⟨Nat.zero_le 12, configured, legal, Nat.zero_lt_of_lt below, ?_⟩
      rintro _ ⟨⟩
    obtain ⟨l, u⟩ := s
    rcases run_get_settled sound (Standard.serving standard) small pos
      (numbered.known configured) legal (own_matches standard 1) valid done with ok | ⟨-, exhausted⟩
    · exact ok
    · have tree : f / 4096 < K.treesLen := by
        simp only [Config.treesLen, divCeil, treeSize]
        omega
      have idle := idle_of_empty sound empty tree
      have counter := exhausted.trees _ tree idle
      rw [idle_counter sound tree idle, groupFree_eq sound.good tree] at counter
      exact absurd rfl (treeFree_eq_zero.mp counter f free)

/-- After a drain no slot holds a tree, no tree is reserved and every counter is that of the lower
allocator, which is unchanged. A second drain changes nothing, and an allocation of one frame
succeeds exactly when a frame is free. -/
theorem drain_hands_back {mode : InitMode} {s₁ : Llfree Lower} (standard : Standard K)
    (fits : Fits K) (fresh : FreshMode mode) (init : Initialised K mode s)
    (run : History K (Anytime (AnyCall K)) () s () s₁) :
    ∃ s₂, Call.drain.run K s₁ = some (none, s₂) ∧ HandedBack K s₂ ∧ s₂.lower = s₁.lower ∧
      Call.drain.run K s₂ = some (none, s₂) ∧
      ∀ cls slot, K.locals cls ≠ none → (∀ i, slot = some i → K.HasSlot cls i) →
        ∃ r s₃, (Call.get none ⟨0, cls, slot⟩).run K s₂ = some (some r, s₃) ∧
          (r.error = .ok ↔ ∃ f < K.frames, IsFree s₂.lower f) := by
  have small : K.numClasses ≤ maxClasses := by
    obtain ⟨buffers, init⟩ := init
    obtain ⟨rebuilt, -⟩ := init_rebuilt init fresh.ne_none
    exact rebuilt.classes.2
  have numbered := standard.numbered
  obtain ⟨pos, sound⟩ := sound_reached numbered fits fresh init run
  obtain ⟨s₂, drained, sound'⟩ := run_drain sound
  have empty := drain_slots drained
  refine ⟨s₂, drained, handedBack_of_empty sound' empty, drain_lower drained, drain_empty empty, ?_⟩
  intro cls slot configured legal
  have row : RowOrHuge (⟨0, cls, slot⟩ : Request).order := Or.inl (Nat.zero_le 6)
  obtain ⟨r, s₃, get, -⟩ := get_forgets none (fun _ => numbered) pos sound' row
  exact ⟨r, s₃, get, get_drained standard small sound' empty pos configured legal get⟩

/-- After an allocation through a slot, which has reserved one of two trees. -/
theorem drain_hands_back_first :
    ∃ s₂, Call.drain.run ⟨8192, llfreeClassingSimple 1⟩ ((Call.get none ⟨0, 0, some 0⟩).after
        ⟨8192, llfreeClassingSimple 1⟩ (initZeroed ⟨8192, llfreeClassingSimple 1⟩ .free)) =
        some (none, s₂) ∧ HandedBack ⟨8192, llfreeClassingSimple 1⟩ s₂ := by
  have run : History ⟨8192, llfreeClassingSimple 1⟩
      (Anytime (AnyCall ⟨8192, llfreeClassingSimple 1⟩))
      () (initZeroed ⟨8192, llfreeClassingSimple 1⟩ .free) () _ :=
    .call (.get none ⟨0, 0, some 0⟩) (.start () _)
      (Call.run_after (r := some (llfreeOk 4096 0)) (by decide +kernel))
      (.get none ⟨0, 0, some 0⟩ (Or.inl (by decide)))
  obtain ⟨s₂, drained, back, -⟩ := drain_hands_back ⟨1, le_rfl, Or.inl rfl⟩ (by decide) (Or.inl rfl)
    (initZeroed_initialised (by decide)) run
  exact ⟨s₂, drained, back⟩

end LLFree.Upper.Drained

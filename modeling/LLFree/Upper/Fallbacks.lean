/- module: LLFree/Upper/Fallbacks
   digest: Which slots a steal or a demotion finds, and what it takes from them. -/

import LLFree.Upper.Attempts

set_option autoImplicit false
set_option relaxedAutoImplicit false

namespace LLFree.Upper.Fallbacks

open LLFree.Atomic.Program LLFree.Code.Types LLFree.Code.Entries LLFree.Code.Lower
open LLFree.Code.Trees LLFree.Code.Local LLFree.Code.Shared LLFree.Code.Llfree LLFree.Upper.Calls
open LLFree.Upper.Attempts

variable {K : Config} {l : Lower} {u : Upper} {cls index n : Nat} {treeIdx : Option Nat}

/-! ## The slots in the order of a search -/

theorem hasSlot_small {c j : Nat} (has : K.HasSlot c j) : c < 8 := by
  obtain ⟨len, same, -⟩ := has
  by_contra big
  simp only [Config.locals, classLocals] at same
  rw [if_pos (by simpa using big)] at same
  cases same

/-- A search that starts `first` classes after `cls` comes to every slot that is as far away. -/
theorem targetSlots_reach {c j first : Nat} (has : K.HasSlot c j)
    (far : first ≤ (c + (8 - cls % 8)) % 8) :
    ∃ len, (c, len) ∈ targetSlots K cls first ∧ j < len := by
  have small := hasSlot_small has
  obtain ⟨len, same, less⟩ := has
  refine ⟨len, List.mem_filterMap.mpr ⟨(c + (8 - cls % 8)) % 8, ?_, ?_⟩, less⟩
  · simp only [List.mem_range'_1, maxClasses]
    omega
  · have here : ((c + (8 - cls % 8)) % 8 + cls) % maxClasses = c := by
      simp only [maxClasses]
      omega
    rw [here, same]
    cases len with
    | zero => omega
    | succ len => rfl

theorem slot_visited (index : Nat) {len j : Nat} (less : j < len) :
    ∃ k < len, (index + k) % len = j := by
  have below : index % len < len := Nat.mod_lt _ (by omega)
  have split := Nat.div_add_mod index len
  by_cases before : index % len ≤ j
  · refine ⟨j - index % len, by omega, ?_⟩
    rw [show index + (j - index % len) = j + len * (index / len) by omega,
      Nat.add_mul_mod_self_left]
    exact Nat.mod_eq_of_lt less
  · refine ⟨j + len - index % len, by omega, ?_⟩
    rw [show index + (j + len - index % len) =
      j + len * (index / len + 1) by rw [Nat.mul_add]; omega, Nat.add_mul_mod_self_left]
    exact Nat.mod_eq_of_lt less

/-- The two loops of a search: it settles on a slot that meets the need, or there is none among the
classes that are wanted. -/
theorem run_targets {β : Type} {first : Nat} {wanted : Nat → Prop}
    {body : Nat × Nat → UpProg (Option β)} (attempt : Nat → Nat → UpProg (Option β))
    (index : Nat) (Q : β → Llfree Lower → Prop)
    (seeks : ∀ c len, wanted c →
      body (c, len) = Prog.firstSome (List.range len) fun k => attempt c ((index + k) % len))
    (skips : ∀ c len, ¬ wanted c → body (c, len) = .ret none)
    (miss : ∀ c j, K.HasSlot c j → ¬ Holds (u.slots c j) treeIdx n →
      Prog.run (UpOp.exec K) (attempt c j) ⟨l, u⟩ = some (none, ⟨l, u⟩))
    (hit : ∀ c j, K.HasSlot c j → wanted c → Holds (u.slots c j) treeIdx n →
      ∃ a s', Prog.run (UpOp.exec K) (attempt c j) ⟨l, u⟩ = some (some a, s') ∧ Q a s') :
    (Prog.run (UpOp.exec K) (Prog.firstSome (targetSlots K cls first) body) ⟨l, u⟩ =
        some (none, ⟨l, u⟩) ∧
      ∀ c j, K.HasSlot c j → first ≤ (c + (8 - cls % 8)) % 8 → wanted c →
        ¬ Holds (u.slots c j) treeIdx n) ∨
      ∃ a s', Prog.run (UpOp.exec K) (Prog.firstSome (targetSlots K cls first) body) ⟨l, u⟩ =
        some (some a, s') ∧ Q a s' := by
  have slots : ∀ c len, (c, len) ∈ targetSlots K cls first → wanted c →
      (Prog.run (UpOp.exec K) (body (c, len)) ⟨l, u⟩ = some (none, ⟨l, u⟩) ∧
        ∀ j < len, ¬ Holds (u.slots c j) treeIdx n) ∨
      ∃ a s', Prog.run (UpOp.exec K) (body (c, len)) ⟨l, u⟩ = some (some a, s') ∧ Q a s' := by
    intro c len member want
    rw [seeks c len want]
    have settled : ∀ k ∈ List.range len, Prog.run (UpOp.exec K) (attempt c ((index + k) % len))
          ⟨l, u⟩ = some (none, ⟨l, u⟩) ∨
        ∃ a s', Prog.run (UpOp.exec K) (attempt c ((index + k) % len)) ⟨l, u⟩ =
          some (some a, s') ∧ Q a s' := by
      intro k _
      have has := mem_targetSlots member (index + k)
      by_cases holds : Holds (u.slots c ((index + k) % len)) treeIdx n
      · exact Or.inr (hit c _ has want holds)
      · exact Or.inl (miss c _ has holds)
    refine (Prog.run_firstSome_settled Q _ settled).imp_left ?_
    rintro ⟨run, none⟩
    refine ⟨run, fun j less holds => ?_⟩
    obtain ⟨k, inside, rfl⟩ := slot_visited index less
    obtain ⟨a, s', found, -⟩ := hit c _ (mem_targetSlots member (index + k)) want holds
    rw [none k (List.mem_range.mpr inside)] at found
    cases found
  have settled : ∀ x ∈ targetSlots K cls first,
      Prog.run (UpOp.exec K) (body x) ⟨l, u⟩ = some (none, ⟨l, u⟩) ∨
        ∃ a s', Prog.run (UpOp.exec K) (body x) ⟨l, u⟩ = some (some a, s') ∧ Q a s' := by
    rintro ⟨c, len⟩ member
    by_cases want : wanted c
    · exact (slots c len member want).imp_left And.left
    · rw [skips c len want]
      exact Or.inl rfl
  refine (Prog.run_firstSome_settled Q _ settled).imp_left ?_
  rintro ⟨run, none⟩
  refine ⟨run, fun c j has far want => ?_⟩
  obtain ⟨len, member, less⟩ := targetSlots_reach has far
  rcases slots c len member want with ⟨-, refused⟩ | ⟨a, s', found, -⟩
  · exact refused j less
  · rw [none _ member] at found
    cases found

/-! ## Steals -/

def Stealable (K : Config) (cls n c : Nat) : Prop :=
  (K.policy cls c n).type = .match ∨ (K.policy cls c n).type = .steal

private theorem steal_loops (K : Config) (cls index n : Nat) (treeIdx : Option Nat) :
    ∃ body, llLocalSteal K cls index treeIdx n =
      (Prog.firstSome (targetSlots K cls 0) body >>= fun r =>
        Prog.ret (r.getD ⟨false, false, 0, 0, 0⟩)) ∧
    (∀ c len, Stealable K cls n c → body (c, len) = Prog.firstSome (List.range len) fun k =>
      stealSlot c ((index + k) % len) treeIdx n) ∧
    ∀ c len, ¬ Stealable K cls n c → body (c, len) = .ret none := by
  refine ⟨_, rfl, ?_, ?_⟩
  · rintro c len (kind | kind) <;> simp only [kind]
  · intro c len other
    rw [Stealable, not_or] at other
    dsimp only
    split
    · exact absurd ‹_› other.1
    · exact absurd ‹_› other.2
    · rfl
    · rfl

/-- The search of `steal_local` takes frames from a slot that has them, or there is none. -/
theorem run_llLocalSteal (cls index n : Nat) (treeIdx : Option Nat) :
    (Prog.run (UpOp.exec K) (llLocalSteal K cls index treeIdx n) ⟨l, u⟩ =
        some (⟨false, false, 0, 0, 0⟩, ⟨l, u⟩) ∧
      ∀ c j, K.HasSlot c j → Stealable K cls n c → ¬ Holds (u.slots c j) treeIdx n) ∨
      ∃ c j, K.HasSlot c j ∧ Stealable K cls n c ∧ Holds (u.slots c j) treeIdx n ∧
        Prog.run (UpOp.exec K) (llLocalSteal K cls index treeIdx n) ⟨l, u⟩ =
          some (makeResult true c (u.slots c j),
            ⟨l, u.setSlot c j { u.slots c j with free := (u.slots c j).free - n }⟩) := by
  obtain ⟨body, same, seeks, skips⟩ := steal_loops K cls index n treeIdx
  rw [same]
  have miss : ∀ c j, K.HasSlot c j → ¬ Holds (u.slots c j) treeIdx n →
      Prog.run (UpOp.exec K) (stealSlot c j treeIdx n) ⟨l, u⟩ = some (none, ⟨l, u⟩) := by
    intro c j has refuses
    simp only [stealSlot, localDec, Prog.step_bind, Prog.ret_bind, Prog.pure_eq]
    rw [run_localDec_miss has refuses]
    rfl
  have hit : ∀ c j, K.HasSlot c j → Holds (u.slots c j) treeIdx n →
      Prog.run (UpOp.exec K) (stealSlot c j treeIdx n) ⟨l, u⟩ =
        some (some (makeResult true c (u.slots c j)),
          ⟨l, u.setSlot c j { u.slots c j with free := (u.slots c j).free - n }⟩) := by
    intro c j has holds
    simp only [stealSlot, localDec, Prog.step_bind, Prog.ret_bind, Prog.pure_eq]
    rw [run_localDec has holds]
    rfl
  rcases run_targets (fun c j => stealSlot c j treeIdx n) index
    (fun a s' => ∃ c j, K.HasSlot c j ∧ Stealable K cls n c ∧ Holds (u.slots c j) treeIdx n ∧
      a = makeResult true c (u.slots c j) ∧
      s' = ⟨l, u.setSlot c j { u.slots c j with free := (u.slots c j).free - n }⟩)
    seeks skips miss (fun c j has want holds => ⟨_, _, hit c j has holds, c, j, has, want, holds,
      rfl, rfl⟩) with ⟨run, none⟩ | ⟨a, s', run, c, j, has, want, holds, rfl, rfl⟩
  · refine Or.inl ⟨?_, fun c j has => none c j has (Nat.zero_le _)⟩
    rw [Prog.run_bind_some run]
    rfl
  · refine Or.inr ⟨c, j, has, want, holds, ?_⟩
    rw [Prog.run_bind_some run]
    rfl

/-! ## Demotions -/

private theorem demote_loops (K : Config) (cls n : Nat) (treeIdx slot : Option Nat) :
    ∃ body, llLocalDemoteAny K cls slot treeIdx n =
      (Prog.firstSome (targetSlots K cls 1) body >>= fun r =>
        Prog.ret (r.getD ⟨false, 0, false, 0, 0, 0⟩)) ∧
    (∀ c len, (K.policy cls c n).type = .demote → body (c, len) =
      Prog.firstSome (List.range len) fun k =>
        demoteSlot K cls slot c ((slot.getD 0 + k) % len) treeIdx n) ∧
    ∀ c len, ¬ (K.policy cls c n).type = .demote → body (c, len) = .ret none := by
  refine ⟨_, rfl, ?_, ?_⟩
  · intro c len kind
    simp only [kind]
  · intro c len other
    dsimp only
    split
    · exact absurd ‹_› other
    · rfl
    · rfl
    · rfl

private theorem run_demoteSlot (cls : Nat) (slot : Option Nat) {c j : Nat} (has : K.HasSlot c j)
    (holds : Holds (u.slots c j) treeIdx n) :
    ∃ d u', Prog.run (UpOp.exec K) (demoteSlot K cls slot c j treeIdx n) ⟨l, u⟩ =
      some (some d, ⟨l, u'⟩) ∧ d.found = true ∧ d.row = (u.slots c j).startRow := by
  simp only [demoteSlot, localTake, Prog.step_bind, Prog.ret_bind, Prog.pure_eq]
  rw [run_localTake has holds]
  simp only [if_true, demoteTaken, reservedDec_holds holds]
  by_cases own : K.HasSlot cls (slot.getD 0) ∧ slot.isSome
  · rw [if_pos own]
    simp only [localSwap, Prog.step_bind, Prog.ret_bind, Prog.pure_eq]
    rw [run_table (by simp only [TableOp.exec, if_pos own.1]; rfl)]
    exact ⟨_, _, rfl, rfl, rfl⟩
  · rw [if_neg own]
    exact ⟨_, _, rfl, rfl, rfl⟩

theorem run_llLocalDemoteAny (cls n : Nat) (treeIdx slot : Option Nat) :
    (Prog.run (UpOp.exec K) (llLocalDemoteAny K cls slot treeIdx n) ⟨l, u⟩ =
        some (⟨false, 0, false, 0, 0, 0⟩, ⟨l, u⟩) ∧
      ∀ c j, K.HasSlot c j → c ≠ cls % 8 → (K.policy cls c n).type = .demote →
        ¬ Holds (u.slots c j) treeIdx n) ∨
      ∃ c j d u', K.HasSlot c j ∧ Holds (u.slots c j) treeIdx n ∧
        Prog.run (UpOp.exec K) (llLocalDemoteAny K cls slot treeIdx n) ⟨l, u⟩ =
          some (d, ⟨l, u'⟩) ∧ d.found = true ∧ d.row = (u.slots c j).startRow := by
  obtain ⟨body, same, seeks, skips⟩ := demote_loops K cls n treeIdx slot
  rw [same]
  have miss : ∀ c j, K.HasSlot c j → ¬ Holds (u.slots c j) treeIdx n →
      Prog.run (UpOp.exec K) (demoteSlot K cls slot c j treeIdx n) ⟨l, u⟩ =
        some (none, ⟨l, u⟩) := by
    intro c j has refuses
    simp only [demoteSlot, localTake, Prog.step_bind, Prog.ret_bind, Prog.pure_eq]
    rw [run_localTake_miss has refuses]
    rfl
  have hit : ∀ c j, K.HasSlot c j → Holds (u.slots c j) treeIdx n →
      ∃ d s', Prog.run (UpOp.exec K) (demoteSlot K cls slot c j treeIdx n) ⟨l, u⟩ =
          some (some d, s') ∧
        ∃ c j u', K.HasSlot c j ∧ Holds (u.slots c j) treeIdx n ∧ s' = ⟨l, u'⟩ ∧
          d.found = true ∧ d.row = (u.slots c j).startRow := by
    intro c j has holds
    obtain ⟨d, u', run, found⟩ := run_demoteSlot (l := l) cls slot has holds
    exact ⟨d, ⟨l, u'⟩, run, c, j, u', has, holds, rfl, found⟩
  rcases run_targets (fun c j => demoteSlot K cls slot c j treeIdx n) (slot.getD 0)
    (fun d s' => ∃ c j u', K.HasSlot c j ∧ Holds (u.slots c j) treeIdx n ∧
      s' = ⟨l, u'⟩ ∧ d.found = true ∧ d.row = (u.slots c j).startRow)
    seeks skips miss (fun c j has _ => hit c j has)
    with ⟨run, none⟩ | ⟨d, s', run, c, j, u', has, holds, rfl, found⟩
  · refine Or.inl ⟨?_, fun c j has other => none c j has ?_⟩
    · rw [Prog.run_bind_some run]
      rfl
    · have small := hasSlot_small has
      omega
  · refine Or.inr ⟨c, j, d, u', has, holds, ?_, found⟩
    rw [Prog.run_bind_some run]
    rfl

/-! ## Allocations from the slots -/

theorem treeSteal_some {tree : Tree} {policy : PolicyFn} (enough : n ≤ tree.free)
    (valid : (policy cls tree.cls tree.free).type ≠ .invalid) :
    ∃ tree' c, treeSteal tree n cls policy = some (tree', c) := by
  rw [treeSteal, if_neg (by omega)]
  cases kind : (policy cls tree.cls tree.free).type with
  | invalid => exact absurd kind valid
  | _ => exact ⟨_, _, rfl⟩

section Local

variable {order : Nat} {frame slot : Option Nat} {r : Result} {s' : Llfree Lower}
  (serve : ∀ c j, K.HasSlot c j → Holds (u.slots c j) (frame.map treeFromFrame) (2 ^ order) →
    ∃ f l', Prog.run LoOp.exec
      (lowerGet K.frames (frameFromRow (u.slots c j).startRow) order frame) l =
        some (llfreeOk f 0, l'))
include serve

/-- Where the lower allocator serves every slot that meets the need, a steal allocates, or no slot
it looks at meets the need. -/
theorem run_stealLocal (slot : Option Nat) :
    (∃ r s', Prog.run (UpOp.exec K) (stealLocal K ⟨order, cls, slot⟩ frame) ⟨l, u⟩ = some (r, s') ∧
        r.error = .ok) ∨
      Prog.run (UpOp.exec K) (stealLocal K ⟨order, cls, slot⟩ frame) ⟨l, u⟩ =
          some (llfreeErr .memory, ⟨l, u⟩) ∧
        ∀ c j, K.HasSlot c j → Stealable K cls (2 ^ order) c →
          ¬ Holds (u.slots c j) (frame.map treeFromFrame) (2 ^ order) := by
  simp only [stealLocal]
  rcases run_llLocalSteal (K := K) (l := l) (u := u) cls (slot.getD 0) (2 ^ order)
    (frame.map treeFromFrame) with ⟨run, none⟩ | ⟨c, j, has, -, holds, run⟩
  · right
    rw [Prog.run_bind_some run]
    exact ⟨rfl, none⟩
  · left
    obtain ⟨f, l', done⟩ := serve c j has holds
    refine ⟨llfreeOk f c, ⟨l', u.setSlot c j { u.slots c j with
      free := (u.slots c j).free - 2 ^ order }⟩, ?_, rfl⟩
    rw [Prog.run_bind_some run]
    simp only [makeResult, if_true, lowerGetStep, Prog.step_bind, Prog.ret_bind]
    rw [run_lower (c := .get _ order frame) done]
    rfl

theorem run_demoteLocal
    (run : Prog.run (UpOp.exec K) (demoteLocal K ⟨order, cls, slot⟩ frame) ⟨l, u⟩ = some (r, s')) :
    r.error = .ok ∨ r.error = .memory ∧ ∀ c j, K.HasSlot c j → c ≠ cls % 8 →
      (K.policy cls c (2 ^ order)).type = .demote →
      ¬ Holds (u.slots c j) (frame.map treeFromFrame) (2 ^ order) := by
  rcases run_llLocalDemoteAny (K := K) (l := l) (u := u) cls (2 ^ order) (frame.map treeFromFrame)
    slot with ⟨missed, none⟩ | ⟨c, j, d, u', has, holds, found, taken, row⟩
  · simp only [demoteLocal] at run
    rw [Prog.run_bind_some missed] at run
    cases run
    exact Or.inr ⟨rfl, none⟩
  · left
    obtain ⟨f, l', done⟩ := serve c j has holds
    rw [← row] at done
    have finish : ∀ v, Prog.run (UpOp.exec K) (lowerGetStep (frameFromRow d.row) order frame >>=
        fun res => if res.error = .ok then Prog.ret (llfreeOk res.frame cls)
          else treesPut (treeFromRow d.row) (2 ^ order) >>= fun _ =>
            Prog.ret (if res.error ≠ .memory then res else llfreeErr .memory)) ⟨l, v⟩ =
          some (r, s') → r.error = .ok := by
      intro v run
      simp only [lowerGetStep, Prog.step_bind, Prog.ret_bind] at run
      rw [run_lower (c := .get _ order frame) done] at run
      obtain ⟨rfl, -⟩ := Prod.mk.inj (Option.some.inj run)
      rfl
    simp only [demoteLocal] at run
    rw [Prog.run_bind_some found, if_pos taken] at run
    split_ifs at run
    · simp only [treesUnreserve, Prog.step_bind, Prog.ret_bind] at run
      obtain ⟨-, v, -, run⟩ := run_table_inv run
      exact finish v run
    · exact finish u' run

/-- Together they look at every slot, but at those of classes that the policy demotes onto
themselves. -/
theorem run_stealOrDemote
    (run : Prog.run (UpOp.exec K) (stealOrDemoteLocal K ⟨order, cls, slot⟩ frame) ⟨l, u⟩ =
      some (r, s')) : r.error = .ok ∨ r.error = .memory ∧ ∀ c j, K.HasSlot c j →
        (K.policy cls c (2 ^ order)).type ≠ .invalid →
        ((K.policy cls c (2 ^ order)).type = .demote → c ≠ cls % 8) →
        ¬ Holds (u.slots c j) (frame.map treeFromFrame) (2 ^ order) := by
  simp only [stealOrDemoteLocal] at run
  rcases run_stealLocal serve slot with ⟨r', t, done, ok⟩ | ⟨done, none⟩
  · left
    rw [Prog.run_bind_some done, if_pos (by simp [ok])] at run
    obtain ⟨rfl, -⟩ := Prod.mk.inj (Option.some.inj run)
    exact ok
  · rw [Prog.run_bind_some done, if_neg (by simp)] at run
    apply (run_demoteLocal serve run).imp_right
    rintro ⟨memory, kept⟩
    refine ⟨memory, fun c j has valid other => ?_⟩
    cases type : (K.policy cls c (2 ^ order)).type with
    | «match» => exact none c j has (Or.inl type)
    | steal => exact none c j has (Or.inr type)
    | demote => exact kept c j has (other type) type
    | invalid => exact absurd type valid

end Local

end LLFree.Upper.Fallbacks

/- module: LLFree/Upper/Changes
   digest: What a complete class change, online or offline call does to the trees. -/

import LLFree.Upper.Attempts
import LLFree.Upper.Searches

set_option autoImplicit false
set_option relaxedAutoImplicit false

namespace LLFree.Upper.Changes

open LLFree.Atomic.Program LLFree.Code.Types LLFree.Code.Entries LLFree.Code.Lower
open LLFree.Code.Trees LLFree.Code.Shared LLFree.Code.Llfree LLFree.Upper.Calls
open LLFree.Upper.Sequential LLFree.Upper.Attempts LLFree.Upper.Searches

variable {K : Config} {s s' : Llfree Lower} {l : Lower} {u : Upper} {idx turns : Nat}
  {matcher : TreeMatch} {change : TreeChange}

theorem treeChange_cases {tree tree' : Tree} {cls free given online : Nat}
    {operation : TreeOperation} : treeChange tree cls free given operation online = some tree' →
    tree.reserved = false ∧ (cls ≠ classNone → tree.cls = cls) ∧ free ≤ tree.free ∧
      (operation = .online → tree.free = 0) ∧
      tree' = ⟨false, if given = classNone then tree.cls else storeClass given,
        match operation with
        | .none => tree.free
        | .offline => 0
        | .online => online⟩ := by
  intro step
  obtain ⟨reserved, own, counter⟩ := tree
  unfold treeChange at step
  cases operation <;> split_ifs at step with held other few <;> cases step <;> simp_all

def onlineFrames (l : Lower) (change : TreeChange) (idx : Nat) : Nat :=
  if change.operation = .online then (lowerStatsAt l (frameFromTree idx) treeOrder).freeFrames
    else 0

def changed (s : Llfree Lower) (matcher : TreeMatch) (change : TreeChange) (idx : Nat) :
    Option Tree :=
  treeChange (s.upper.trees idx) matcher.cls matcher.free change.cls change.operation
    (onlineFrames s.lower change idx)

/-- A change of one tree: its entry is exchanged, or it does not match and nothing happens. -/
theorem run_changeAt (inside : idx < K.treesLen) :
    Prog.run (UpOp.exec K) (treesChangeAt (turns + 1) matcher change idx) s =
      match changed s matcher change idx with
      | none => some (llfreeErr .memory, s)
      | some tree => some (llfreeOk 0 0, { s with upper := s.upper.setTree idx tree }) := by
  have load : (TableOp.treesLoad idx).exec K s.upper = some (s.upper.trees idx, s.upper) :=
    if_pos inside
  have exchange : ∀ tree, (TableOp.treesCas idx (s.upper.trees idx) tree).exec K s.upper =
      some ((true, s.upper.trees idx), s.upper.setTree idx tree) := by
    intro tree
    simp only [TableOp.exec, if_pos inside, if_true]
  have loop : ∀ f, f = onlineFrames s.lower change idx →
      Prog.run (UpOp.exec K)
        (match treeChange (s.upper.trees idx) matcher.cls matcher.free change.cls
          change.operation f with
        | none => .ret (llfreeErr .memory)
        | some desired => .step (.table (.treesCas idx (s.upper.trees idx) desired)) fun r =>
          if r.1 = true then .ret (llfreeOk 0 0) else changeLoop idx matcher change turns r.2) s =
      match changed s matcher change idx with
      | none => some (llfreeErr .memory, s)
      | some tree => some (llfreeOk 0 0, { s with upper := s.upper.setTree idx tree }) := by
    rintro f rfl
    cases step : changed s matcher change idx with
    | none =>
      rw [changed] at step
      rw [step]
      rfl
    | some tree =>
      rw [changed] at step
      rw [step]
      exact run_table (exchange tree)
  simp only [treesChangeAt, treesLoad, changeLoop, treesCas, Prog.step_bind, Prog.ret_bind,
    Prog.pure_eq]
  rw [run_table load]
  by_cases online : change.operation = .online
  · simp only [if_pos online, lowerStatsStep, Prog.step_bind, Prog.ret_bind]
    rw [Prog.run_step]
    exact loop _ (if_pos online).symm
  · simp only [if_neg online]
    exact loop _ (if_neg online).symm

def Addressed (K : Config) (matcher : TreeMatch) (idx : Nat) : Prop :=
  idx < K.treesLen ∧ ∀ t, matcher.id = some t → idx = t

def Exchanged (K : Config) (matcher : TreeMatch) (change : TreeChange) (s s' : Llfree Lower) :
    Prop :=
  ∃ idx tree, Addressed K matcher idx ∧ changed s matcher change idx = some tree ∧
    s' = { s with upper := s.upper.setTree idx tree }

theorem run_changeTree_settled (some : 0 < K.treesLen) (turns : Nat) (matcher : TreeMatch)
    (change : TreeChange) (s : Llfree Lower) :
    (Prog.run (UpOp.exec K) (llfreeChangeTree K (turns + 1) matcher change) s =
        Option.some (llfreeErr .memory, s) ∧
      (matcher.free ≤ treeSize → ∀ idx, Addressed K matcher idx →
        changed s matcher change idx = none)) ∨
      ∃ s', Prog.run (UpOp.exec K) (llfreeChangeTree K (turns + 1) matcher change) s =
        Option.some (llfreeOk 0 0, s') ∧ Exchanged K matcher change s s' := by
  simp only [llfreeChangeTree]
  split_ifs with large
  · exact Or.inl ⟨rfl, fun small => absurd small (Nat.not_le_of_gt large)⟩
  · cases id : matcher.id with
    | some idx =>
      dsimp only
      split_ifs with outside
      · left
        refine ⟨rfl, fun _ t addressed => ?_⟩
        rw [addressed.2 idx id] at addressed
        exact absurd addressed.1 (Nat.not_lt_of_le outside)
      · have inside := Nat.lt_of_not_le outside
        rw [run_changeAt inside]
        cases step : changed s matcher change idx with
        | none =>
          left
          refine ⟨rfl, fun _ t addressed => ?_⟩
          rw [addressed.2 idx id]
          exact step
        | some tree =>
          refine Or.inr ⟨_, rfl, idx, tree, ⟨inside, fun t same => ?_⟩, step, rfl⟩
          exact Option.some.inj (id.symm.trans same)
    | none =>
      have settled : ∀ i ∈ List.range' 0 (K.treesLen - 0),
          Prog.run (UpOp.exec K) (treesChangeAt (turns + 1) matcher change
              (searchIdx 0 K.treesLen i) >>= fun res =>
            Prog.ret (if res.error ≠ .memory then Option.some res else none)) s =
              Option.some (none, s) ∨
            ∃ r s', Prog.run (UpOp.exec K) (treesChangeAt (turns + 1) matcher change
                (searchIdx 0 K.treesLen i) >>= fun res =>
              Prog.ret (if res.error ≠ .memory then Option.some res else none)) s =
                Option.some (Option.some r, s') ∧
              (r = llfreeOk 0 0 ∧ Exchanged K matcher change s s') := by
        intro i _
        have inside : searchIdx 0 K.treesLen i < K.treesLen := searchIdx_lt some
        have run := @run_changeAt K s _ turns matcher change inside
        cases step : changed s matcher change (searchIdx 0 K.treesLen i) with
        | none =>
          rw [step] at run
          rw [Prog.run_bind_some run]
          exact Or.inl rfl
        | some tree =>
          rw [step] at run
          rw [Prog.run_bind_some run]
          exact Or.inr ⟨_, _, rfl, rfl, _, tree, ⟨inside, by simp [id]⟩, step, rfl⟩
      dsimp only
      rw [treesSearch]
      rcases Prog.run_firstSome_settled
        (fun r s' => r = llfreeOk 0 0 ∧ Exchanged K matcher change s s') _ settled with
        ⟨run, all⟩ | ⟨r, s', run, rfl, hit⟩
      · left
        refine ⟨(Prog.run_bind_some run).trans rfl, fun _ t addressed => ?_⟩
        obtain ⟨i, less, rfl⟩ := searchIdx_onto some addressed.1
        have missed := all i (by rw [List.mem_range'_1]; omega)
        cases step : changed s matcher change (searchIdx 0 K.treesLen i) with
        | none => rfl
        | some tree =>
          have run := @run_changeAt K s _ turns matcher change addressed.1
          rw [step] at run
          rw [Prog.run_bind_some run] at missed
          cases missed
      · right
        exact ⟨s', (Prog.run_bind_some run).trans rfl, hit⟩

private theorem run_changeAt_none (inside : idx < K.treesLen) :
    Prog.run (UpOp.exec K) (treesChangeAt 0 matcher change idx) s = none := by
  have load : (TableOp.treesLoad idx).exec K s.upper = some (s.upper.trees idx, s.upper) :=
    if_pos inside
  simp only [treesChangeAt, treesLoad, changeLoop, Prog.step_bind, Prog.ret_bind]
  rw [run_table load]
  rfl

theorem call_change (some : 0 < K.treesLen) {a : Option Result}
    (run : (Call.changeTree turns matcher change).run K s = Option.some (a, s')) :
    s' = s ∨ Exchanged K matcher change s s' := by
  obtain ⟨r, t, done, same⟩ := Prog.run_bind_eq_some.mp run
  cases same
  cases turns with
  | succ turns =>
    rcases run_changeTree_settled some turns matcher change s with
      ⟨miss, -⟩ | ⟨t, hit, exchanged⟩
    · rw [miss] at done
      cases done
      exact Or.inl rfl
    · rw [hit] at done
      cases done
      exact Or.inr exchanged
  | zero =>
    left
    simp only [llfreeChangeTree] at done
    split_ifs at done
    · cases done
      rfl
    · cases id : matcher.id with
      | some idx =>
        simp only [id] at done
        split_ifs at done with outside
        · cases done
          rfl
        · rw [run_changeAt_none (Nat.lt_of_not_le outside)] at done
          cases done
      | none =>
        have first : List.range' 0 (K.treesLen - 0) = 0 :: List.range' 1 (K.treesLen - 1) := by
          obtain ⟨n, len⟩ := Nat.exists_eq_succ_of_ne_zero (Nat.ne_of_gt some)
          rw [len]
          rfl
        simp only [id, treesSearch] at done
        rw [first, Prog.firstSome, Prog.run_bind, Prog.run_bind, Prog.run_bind,
          run_changeAt_none (searchIdx_lt some)] at done
        cases done

end LLFree.Upper.Changes

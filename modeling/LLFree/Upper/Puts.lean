/- module: LLFree/Upper/Puts
   digest: What a successful free does to the slot or to the tree that it returns its frames to. -/

import LLFree.Upper.Attempts

set_option autoImplicit false
set_option relaxedAutoImplicit false

namespace LLFree.Upper.Puts

open LLFree.Atomic.Program LLFree.Code.Types LLFree.Code.Entries LLFree.Code.Lower
open LLFree.Code.Trees LLFree.Code.Local LLFree.Code.Shared LLFree.Code.Llfree LLFree.Upper.Calls
open LLFree.Upper.Sequential LLFree.Upper.Moves LLFree.Upper.Attempts

variable {K : Config} {l l' : Lower} {u u' : Upper} {f : Nat} {request : Request}

def ToSlot (u : Upper) (request : Request) (t i : Nat) : Prop :=
  request.slot = some i ∧ (u.slots request.cls i).present = true ∧
    treeFromRow (u.slots request.cls i).startRow = t

def raised (K : Config) (tree : Tree) (n : Nat) : Tree where
  reserved := tree.reserved
  cls := if tree.free + n = treeSize ∧
      (K.policy tree.cls K.defaultClass treeSize).type ≠ .invalid then K.defaultClass else tree.cls
  free := tree.free + n

/-- What becomes of trees and slots when a block of tree `t` is freed. -/
inductive Returned (K : Config) (u : Upper) (request : Request) (t : Nat) : Upper → Prop
  | slot (i : Nat) (held : ToSlot u request t i)
      (room : (u.slots request.cls i).free + 2 ^ request.order ≤ treeSize) :
      Returned K u request t (u.setSlot request.cls i
        { u.slots request.cls i with free := (u.slots request.cls i).free + 2 ^ request.order })
  | tree (other : ∀ i, ¬ ToSlot u request t i)
      (room : (u.trees t).free + 2 ^ request.order ≤ treeSize) :
      Returned K u request t (u.setTree t (raised K (u.trees t) (2 ^ request.order)))

theorem treePut_raised (tree : Tree) (n : Nat) : treePut tree n K.policy K.defaultClass =
    if tree.free + n ≤ treeSize then some (raised K tree n) else none := by
  by_cases room : tree.free + n ≤ treeSize
  · obtain ⟨⟨reserved, cls, free⟩, step, rfl, rfl, rfl⟩ :=
      treePut_eq tree K.policy K.defaultClass room
    rw [if_pos room, step, raised]
    by_cases full : tree.free + n = treeSize
    · simp only [full, true_and]
    · simp only [full, false_and, if_false]
  · simp [treePut, room]

theorem reservedInc_miss {r : Reserved} {t n : Nat}
    (other : ¬ (r.present = true ∧ treeFromRow r.startRow = t)) :
    llReservedInc r t n = some none := by
  rw [llReservedInc, if_pos]
  by_cases present : r.present = true
  · exact Or.inr fun here => other ⟨present, here⟩
  · exact Or.inl present

/-- After the lower allocator has taken the block, its frames go to the slot or to the tree. -/
theorem run_put (checked : Checked K request (some f))
    (done : Prog.run LoOp.exec (lowerPut K.frames f request.order) l = some (llfreeErr .ok, l'))
    (returned : Returned K u request (treeFromFrame f) u') :
    (Call.put f request).run K ⟨l, u⟩ = some (some (llfreeOk 0 0), ⟨l', u'⟩) := by
  have valid : validateRequest K request (some f) = true := valid_of_checked checked
  have inside : treeFromFrame f < K.treesLen := by
    have fits := (checked.target f rfl).1
    have pos : 0 < 2 ^ request.order := Nat.two_pow_pos _
    simp only [treeFromFrame, Config.treesLen, divCeil, treeSize]
    omega
  rw [Call.run, Call.prog]
  simp only [llfreePut, valid, Bool.true_eq_false, if_false, lowerPutStep, Prog.step_bind,
    Prog.ret_bind]
  rw [run_lower (c := .put f request.order) done]
  simp only [llfreeErr, ne_eq, not_true, if_false]
  cases returned with
  | slot i held room =>
    obtain ⟨named, present, here⟩ := held
    simp only [named, llLocalPut, localInc, Prog.step_bind, Prog.ret_bind]
    rw [run_localInc (checked.slot i named) present here room]
    rfl
  | tree other room =>
    have put : (TableOp.treesPut (treeFromFrame f) (2 ^ request.order)).exec K u =
        some ((), u.setTree (treeFromFrame f)
          (raised K (u.trees (treeFromFrame f)) (2 ^ request.order))) := by
      simp only [TableOp.exec, if_pos inside, treePut_raised, if_pos room]
      rfl
    cases named : request.slot with
    | none =>
      simp only [treesPut, Prog.step_bind, Prog.ret_bind]
      rw [run_table put]
      rfl
    | some i =>
      have miss : (TableOp.localInc request.cls i (treeFromFrame f) (2 ^ request.order)).exec K u =
          some (false, u) := by
        have away : ¬ ((u.slots request.cls i).present = true ∧
            treeFromRow (u.slots request.cls i).startRow = treeFromFrame f) :=
          fun both => other i ⟨named, both⟩
        simp only [TableOp.exec, if_pos (checked.slot i named), reservedInc_miss away]
        rfl
      simp only [llLocalPut, localInc, treesPut, Prog.step_bind, Prog.ret_bind]
      rw [run_table miss, if_neg Bool.false_ne_true]
      simp only [Prog.step_bind]
      rw [run_table put]
      rfl

theorem put_done {r : Result} {s' : Llfree Lower}
    (run : (Call.put f request).run K ⟨l, u⟩ = some (some r, s')) (ok : r.error = .ok) :
    Checked K request (some f) ∧
      (∃ r', Prog.run LoOp.exec (lowerPut K.frames f request.order) l = some (r', s'.lower) ∧
        r'.error = .ok) ∧
      Returned K u request (treeFromFrame f) s'.upper := by
  obtain ⟨r, t, done, last⟩ := Prog.run_bind_eq_some.mp run
  cases last
  cases valid : validateRequest K request (some f) with
  | false =>
    simp only [llfreePut, valid, if_true] at done
    cases done
    cases ok
  | true =>
    refine ⟨checked_of_valid valid, ?_⟩
    simp only [llfreePut, valid, Bool.true_eq_false, if_false, lowerPutStep, Prog.step_bind,
      Prog.ret_bind] at done
    obtain ⟨r', l', lower, rest⟩ := run_lower_inv done
    by_cases freed : r'.error = .ok
    swap
    · rw [if_pos freed] at rest
      cases rest
      exact absurd ok freed
    rw [if_neg (not_not.mpr freed)] at rest
    have global : ∀ {v : Upper}, Prog.run (UpOp.exec K)
        (treesPut (treeFromFrame f) (2 ^ request.order) >>= fun _ => pure (llfreeOk 0 0)) ⟨l', v⟩ =
          some (r, s') → s'.lower = l' ∧
        (v.trees (treeFromFrame f)).free + 2 ^ request.order ≤ treeSize ∧ s'.upper =
          v.setTree (treeFromFrame f)
            (raised K (v.trees (treeFromFrame f)) (2 ^ request.order)) := by
      intro v run
      simp only [treesPut, Prog.step_bind, Prog.ret_bind] at run
      obtain ⟨_, w, put, last⟩ := run_table_inv run
      simp only [TableOp.exec, treePut_raised] at put
      split_ifs at put with inside room
      · cases put
        cases last
        exact ⟨rfl, room, rfl⟩
      · cases put
    cases named : request.slot with
    | none =>
      simp only [named] at rest
      obtain ⟨rfl, room, same⟩ := global rest
      rw [same]
      exact ⟨⟨r', lower, freed⟩, .tree (fun i held => by cases named.symm.trans held.1) room⟩
    | some i =>
      simp only [named, llLocalPut, localInc, Prog.step_bind, Prog.ret_bind] at rest
      obtain ⟨taken, v, inc, last⟩ := run_table_inv rest
      simp only [TableOp.exec, llReservedInc] at inc
      split_ifs at inc with has away room
      · cases inc
        rw [if_neg Bool.false_ne_true] at last
        obtain ⟨rfl, room, same⟩ := global last
        rw [same]
        refine ⟨⟨r', lower, freed⟩, .tree ?_ room⟩
        rintro j ⟨same, present, here⟩
        obtain rfl := Option.some.inj (named.symm.trans same)
        exact away.elim (fun absent => absent present) fun other => other here
      · cases inc
        cases last
        rw [not_or, not_not, not_not] at away
        exact ⟨⟨r', lower, freed⟩, .slot i ⟨named, away.1, away.2⟩ room⟩
      · cases inc

end LLFree.Upper.Puts

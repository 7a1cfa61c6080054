/- module: LLFree/Upper/Restored
   digest: An attempt of an untargeted allocation allocates in its tree or gives back what it
   took. -/

import LLFree.Upper.LocalPath
import LLFree.Atomic.Asking

set_option autoImplicit false
set_option relaxedAutoImplicit false

namespace LLFree.Upper.Restored

open LLFree.Atomic.Program LLFree.Atomic.Asking LLFree.Code.Types LLFree.Code.Entries
open LLFree.Code.Lower LLFree.Code.Trees LLFree.Code.Local LLFree.Code.Shared LLFree.Code.Llfree
open LLFree.Lower.GetPut LLFree.Lower.Quiet LLFree.Lower.Search LLFree.Upper.Moves
open LLFree.Upper.Slots LLFree.Upper.Calls LLFree.Upper.Sequential LLFree.Upper.Attempts
open LLFree.Upper.LocalPath

variable {K : Config} {s s' s'' : Llfree Lower} {l : Lower} {u u' : Upper} {cls order i idx n : Nat}
  {r : Result}

/-! ## States that differ in counters and classes only -/

/-- The lower allocator, the reservations and the trees of the slots are as before. -/
structure Alike (s s' : Llfree Lower) : Prop where
  lower : s'.lower = s.lower
  reserved : ∀ t, (s'.upper.trees t).reserved = (s.upper.trees t).reserved
  slots : ∀ c i, (s'.upper.slots c i).present = (s.upper.slots c i).present ∧
    (s'.upper.slots c i).startRow = (s.upper.slots c i).startRow

theorem Alike.refl (s : Llfree Lower) : Alike s s := ⟨rfl, fun _ => rfl, fun _ _ => ⟨rfl, rfl⟩⟩

theorem Alike.trans (one : Alike s s') (two : Alike s' s'') : Alike s s'' := by
  refine ⟨two.lower.trans one.lower, fun t => (two.reserved t).trans (one.reserved t),
    fun c i => ?_⟩
  exact ⟨(two.slots c i).1.trans (one.slots c i).1, (two.slots c i).2.trans (one.slots c i).2⟩

theorem alike_setTree {tree : Tree} (same : tree.reserved = (u.trees idx).reserved) :
    Alike ⟨l, u⟩ ⟨l, u.setTree idx tree⟩ := by
  refine ⟨rfl, fun t => ?_, fun _ _ => ⟨rfl, rfl⟩⟩
  rw [setTree_trees]
  by_cases here : t = idx
  · rw [here, Function.update_self, same]
  · rw [Function.update_of_ne here]

theorem alike_setSlot {c : Nat} {slot : Reserved} (present : slot.present = (u.slots c i).present)
    (row : slot.startRow = (u.slots c i).startRow) : Alike ⟨l, u⟩ ⟨l, u.setSlot c i slot⟩ := by
  refine ⟨rfl, fun _ => rfl, fun d j => ?_⟩
  dsimp only
  by_cases here : d = c ∧ j = i
  · rw [here.1, here.2, setSlot_self]
    exact ⟨present, row⟩
  · rw [setSlot_other u slot here]
    exact ⟨rfl, rfl⟩

def Mild : TableOp → Prop
  | .treesPut .. | .treesSyncSteal .. | .localDec .. | .localInc .. => True
  | _ => False

theorem mild_alike {o : TableOp} {a : o.Res} (mild : Mild o) (done : o.exec K u = some (a, u')) :
    Alike ⟨l, u⟩ ⟨l, u'⟩ := by
  cases table_effect done with
  | put step => exact alike_setTree (treePut_reserved step)
  | synced step =>
    apply alike_setTree
    unfold treeSyncSteal at step
    split_ifs at step
    cases step
    rfl
  | decreased _ step =>
    unfold llReservedDec at step
    split_ifs at step
    cases step
    exact alike_setSlot rfl rfl
  | increased _ step =>
    unfold llReservedInc at step
    split_ifs at step with other room <;> cases step
    exact alike_setSlot rfl rfl
  | unsynced | undecreased | unincreased => exact .refl _
  | _ => exact mild.elim

def mildOps : Discipline UpOp UpOp.Res where
  asks
    | .table o => Mild o
    | _ => False
  answers _ _ := True

theorem mild_serves (s : Llfree Lower) : mildOps.Serves (UpOp.exec K) (Alike s) := by
  intro o t r t' asks alike done
  cases o with
  | table o =>
    obtain ⟨⟨a, u'⟩, exec, same⟩ := Option.map_eq_some_iff.mp done
    cases same
    exact ⟨trivial, alike.trans (mild_alike asks exec)⟩
  | _ => exact asks.elim

theorem mild_run {α : Type} {p : UpProg α} {a : α} (mild : mildOps.Keeps p fun _ => True)
    (run : Prog.run (UpOp.exec K) p s = some (a, s')) : Alike s s' :=
  (Discipline.run_keeps (mild_serves s) mild (.refl s) run).2

theorem mild_sync (old : LocalResult) :
    mildOps.Keeps (syncWithGlobal cls i n old) fun _ => True := by
  refine Discipline.keeps_assert fun _ => ?_
  split_ifs
  · trivial
  · refine ⟨trivial, fun r _ => ?_⟩
    cases r with
    | none => trivial
    | some stolen =>
      refine ⟨trivial, fun took _ => ?_⟩
      cases took
      · exact ⟨trivial, fun _ _ => trivial⟩
      · trivial

/-! ## Reserving or stealing -/

theorem reserveOrSteal_some {tree tree' : Tree} {policy : PolicyFn} {reserved : Bool} {target : Nat}
    (step : treeReserveOrSteal tree n policy cls = some (tree', reserved, target)) :
    tree.reserved = false ∧ n ≤ tree.free ∧
      ((reserved = true ∧ target = cls ∧ tree' = ⟨true, cls, 0⟩) ∨
      (reserved = false ∧ target = tree.cls ∧ tree' = { tree with free := tree.free - n })) := by
  unfold treeReserveOrSteal at step
  by_cases refused : tree.reserved = true ∨ tree.free < n
  · rw [if_pos refused] at step
    cases step
  · rw [if_neg refused] at step
    refine ⟨by simpa using (not_or.mp refused).1, Nat.le_of_not_lt (not_or.mp refused).2, ?_⟩
    cases type : (policy cls tree.cls tree.free).type <;> rw [type] at step <;> cases step
    · exact Or.inl ⟨rfl, rfl, rfl⟩
    · exact Or.inr ⟨rfl, rfl, rfl⟩
    · exact Or.inl ⟨rfl, rfl, rfl⟩

theorem reserveOrSteal_none {tree : Tree} {policy : PolicyFn}
    (step : treeReserveOrSteal tree n policy cls = none) :
    tree.reserved = true ∨ tree.free < n ∨ (policy cls tree.cls tree.free).type = .invalid := by
  unfold treeReserveOrSteal at step
  by_cases refused : tree.reserved = true ∨ tree.free < n
  · exact refused.imp_right Or.inl
  · rw [if_neg refused] at step
    cases type : (policy cls tree.cls tree.free).type <;> rw [type] at step <;> cases step
    exact Or.inr (Or.inr rfl)

theorem unreserveAdd_reserved {tree tree' : Tree} {policy : PolicyFn} {d : Nat}
    (step : treeUnreserveAdd tree n cls policy d = some (some tree')) : tree'.reserved = false := by
  unfold treeUnreserveAdd at step
  by_cases reserved : tree.reserved = true
  · rw [if_pos reserved] at step
    simp only [Option.map_eq_some_iff, Option.some.injEq, exists_eq_right] at step
    rw [treePut_reserved step]
    split_ifs <;> rfl
  · rw [if_neg reserved] at step
    cases step

private theorem run_undo {tree' : Tree} {reserved : Bool} {target f : Nat} {a : Result}
    (step : treeReserveOrSteal (u.trees idx) n K.policy cls = some (tree', reserved, target))
    (run : Prog.run (UpOp.exec K) (undoReserveOrSteal idx n reserved f target >>= fun _ =>
      Prog.ret r) ⟨l, u.setTree idx tree'⟩ = some (a, s')) : a = r ∧ Alike ⟨l, u⟩ s' := by
  have entry : (u.setTree idx tree').trees idx = tree' := Function.update_self ..
  have again : ∀ tree, (u.setTree idx tree').setTree idx tree = u.setTree idx tree := by
    intro tree
    simp [Upper.setTree, Function.update_idem]
  obtain ⟨idle, -, ⟨rfl, rfl, rfl⟩ | ⟨rfl, rfl, rfl⟩⟩ := reserveOrSteal_some step
  · simp only [undoReserveOrSteal, if_true, treesUnreserve, Prog.step_bind, Prog.ret_bind] at run
    obtain ⟨_, u', done, run⟩ := run_table_inv run
    cases run
    cases table_effect done with
    | unchanged back =>
      rw [entry] at back
      simp [treeUnreserveAdd] at back
    | unreserved back =>
      rw [again]
      exact ⟨rfl, alike_setTree ((unreserveAdd_reserved back).trans idle.symm)⟩
  · simp only [undoReserveOrSteal, Bool.false_eq_true, if_false, treesPut, Prog.step_bind,
      Prog.ret_bind] at run
    obtain ⟨_, u', done, run⟩ := run_table_inv run
    cases run
    cases table_effect done with | put back =>
    rw [again]
    rw [entry] at back
    exact ⟨rfl, alike_setTree (by rw [treePut_reserved back])⟩

/-- The tree has a free block of the order, and its entry and the classing let it be reserved or
stolen from. -/
structure Serves (K : Config) (order cls : Nat) (s : Llfree Lower) (idx : Nat) : Prop where
  idle : (s.upper.trees idx).reserved = false
  enough : 2 ^ order ≤ (s.upper.trees idx).free
  allowed : (K.policy cls (s.upper.trees idx).cls (s.upper.trees idx).free).type ≠ .invalid
  own : (K.locals cls).getD 0 ≠ 0
  other : (K.locals (s.upper.trees idx).cls).getD 0 ≠ 0
  block : ∃ f, Valid K.frames f order ∧ f / 4096 = idx ∧ FreeBlock s.lower f order

theorem lower_tree (cons : Consistent K.frames l) (row : RowOrHuge order)
    (inside : idx < K.treesLen) :
    (∃ f l', Prog.run LoOp.exec (lowerGet K.frames (frameFromTree idx) order none) l =
        some (llfreeOk f 0, l') ∧ f / 4096 = idx) ∨
      Prog.run LoOp.exec (lowerGet K.frames (frameFromTree idx) order none) l =
          some (llfreeErr .memory, l) ∧
        ∀ f, Valid K.frames f order → f / 4096 = idx → ¬ FreeBlock l f order := by
  have tree := frameFromTree_tree idx
  obtain ⟨r, l', run, -, exact⟩ := get_exact cons
    (⟨fun _ => frameFromTree_lt inside, fun _ none => nomatch none⟩ :
      GetArgs K.frames (frameFromTree idx) none) row
  rcases exact with ⟨f, rfl, -, -, none | ⟨-, here⟩⟩ | ⟨-, memory, rfl, absent⟩
  · cases none
  · exact Or.inl ⟨f, l', run, here.trans tree⟩
  · rw [memory rfl] at run
    exact Or.inr ⟨run, fun f valid here => absent f valid (Or.inr ⟨rfl, here.trans tree.symm⟩)⟩

/-- An attempt that completes has allocated in its tree, which was not reserved, or has given back
what it took, and then the tree did not serve it. -/
theorem reserveOrSteal_outcome (cons : Consistent K.frames l) (row : RowOrHuge order)
    (inside : idx < K.treesLen)
    (run : Prog.run (UpOp.exec K) (reserveOrStealCb K order cls i idx) ⟨l, u⟩ = some (r, s')) :
    (r.error = .ok ∧ r.frame / 4096 = idx ∧ (u.trees idx).reserved = false) ∨
      r.error = .memory ∧ Alike ⟨l, u⟩ s' ∧ ¬ Serves K order cls ⟨l, u⟩ idx := by
  simp only [reserveOrStealCb, treesReserveOrSteal, Prog.step_bind, Prog.ret_bind,
    Prog.pure_eq] at run
  obtain ⟨res, u', done, run⟩ := run_table_inv run
  simp only [TableOp.exec, if_pos inside] at done
  cases step : treeReserveOrSteal (u.trees idx) (2 ^ order) K.policy cls with
  | none =>
    rw [step] at done
    cases done
    cases run
    refine Or.inr ⟨rfl, .refl _, fun serves => ?_⟩
    rcases reserveOrSteal_none step with reserved | few | invalid
    · rw [serves.idle] at reserved
      cases reserved
    · exact absurd serves.enough (Nat.not_le_of_lt few)
    · exact serves.allowed invalid
  | some x =>
    obtain ⟨tree', reserved, target⟩ := x
    rw [step] at done
    cases done
    dsimp only at run
    obtain ⟨idle, -, shape⟩ := reserveOrSteal_some step
    rw [allocateTaken] at run
    by_cases slotless : (K.locals target).getD 0 = 0
    · rw [if_pos slotless] at run
      obtain ⟨rfl, alike⟩ := run_undo step run
      refine Or.inr ⟨rfl, alike, fun serves => ?_⟩
      rcases shape with ⟨-, rfl, -⟩ | ⟨-, rfl, -⟩
      · exact serves.own slotless
      · exact serves.other slotless
    · rw [if_neg slotless] at run
      simp only [lowerGetStep, Prog.step_bind, Prog.ret_bind, Prog.pure_eq] at run
      rcases lower_tree cons row inside with ⟨f, l', get, here⟩ | ⟨get, absent⟩
      · rw [run_lower (c := .get _ order none) get, if_pos (llfreeOk_error f 0)] at run
        refine Or.inl ?_
        split_ifs at run
        · obtain ⟨-, t, -, last⟩ := Prog.run_bind_eq_some.mp run
          cases last
          exact ⟨rfl, here, idle⟩
        · cases run
          exact ⟨rfl, here, idle⟩
      · rw [run_lower (c := .get _ order none) get, if_neg (by simp)] at run
        obtain ⟨rfl, alike⟩ := run_undo step run
        refine Or.inr ⟨rfl, alike, fun serves => ?_⟩
        obtain ⟨f, valid, here, free⟩ := serves.block
        exact absent f valid here free

/-! ## The own slot -/

theorem Alike.held (alike : Alike ⟨l, u⟩ s) (c i : Nat) :
    heldTree s.upper c i = heldTree u c i := by
  rw [heldTree, heldTree, (alike.slots c i).2]

/-- What an attempt in the own tree comes to: a block of this tree, or the state as it was but for
counters and classes. -/
def Settled (cls i : Nat) (s : Llfree Lower) (r : Result × Option Nat) (s' : Llfree Lower) : Prop :=
  (r.1.error = .ok ∧ (s.upper.slots cls i).present = true ∧
      r.1.frame / 4096 = heldTree s.upper cls i) ∨
    r.1.error = .memory ∧ Alike s s'

theorem settled_later {r : Result × Option Nat} (alike : Alike s s')
    (settled : Settled cls i s' r s'') : Settled cls i s r s'' := by
  rcases settled with ⟨ok, present, tree⟩ | ⟨memory, later⟩
  · left
    rw [(alike.slots cls i).1] at present
    rw [heldTree, (alike.slots cls i).2] at tree
    exact ⟨ok, present, tree⟩
  · exact Or.inr ⟨memory, alike.trans later⟩

theorem getLocalWith_settled {miss : LocalResult → UpProg (Result × Option Nat)}
    {r : Result × Option Nat} (cons : Consistent K.frames l) (row : RowOrHuge order)
    (has : K.HasSlot cls i)
    (inside : (u.slots cls i).present = true → frameFromRow (u.slots cls i).startRow < K.frames)
    (missed : ∀ old, Prog.run (UpOp.exec K) (miss old) ⟨l, u⟩ = some (r, s') →
      Settled cls i ⟨l, u⟩ r s')
    (run : Prog.run (UpOp.exec K) (getLocalWith cls i order none miss) ⟨l, u⟩ = some (r, s')) :
    Settled cls i ⟨l, u⟩ r s' := by
  by_cases holds : Holds (u.slots cls i) (none.map treeFromFrame) (2 ^ order)
  · obtain ⟨r', l', get, -, exact⟩ := get_exact cons
      (⟨fun _ => inside holds.present, fun _ none => nomatch none⟩ :
        GetArgs K.frames (frameFromRow (u.slots cls i).startRow) none) row
    rcases exact with ⟨f, rfl, -, -, none | ⟨-, here⟩⟩ | ⟨-, memory, rfl, -⟩
    · cases none
    · obtain ⟨u', hit, -⟩ := run_getLocalWith has miss holds here get
      rw [hit] at run
      cases run
      exact Or.inl ⟨rfl, holds.present, here⟩
    · rw [memory rfl] at get
      simp only [getLocalWith, llLocalGet, localDec, lowerGetStep, treesPut, Prog.step_bind,
        Prog.ret_bind, Prog.pure_eq, makeResult] at run
      rw [run_localDec has holds, if_pos rfl,
        run_lower (c := .get _ order none) get, if_neg (by simp)] at run
      obtain ⟨_, u', back, run⟩ := run_table_inv run
      cases run
      have taken : Alike ⟨l', u⟩ ⟨l', u.setSlot cls i
          { u.slots cls i with free := (u.slots cls i).free - 2 ^ order }⟩ := alike_setSlot rfl rfl
      exact Or.inr ⟨rfl, taken.trans (mild_alike (o := .treesPut ..) trivial back)⟩
  · rw [run_getLocalWith_miss has holds] at run
    exact missed _ run

theorem getLocal_settled {r : Result × Option Nat} (cons : Consistent K.frames s.lower)
    (row : RowOrHuge order) (has : K.HasSlot cls i) (ok : SlotOk K (s.upper.slots cls i))
    (run : Prog.run (UpOp.exec K) (getLocal cls i order none true) s = some (r, s')) :
    Settled cls i s r s' := by
  obtain ⟨l, u⟩ := s
  refine getLocalWith_settled cons row has ok.frame (fun old run => ?_) run
  split_ifs at run
  · obtain ⟨took, ⟨l', u'⟩, sync, run⟩ := Prog.run_bind_eq_some.mp run
    have alike := mild_run (mild_sync old) sync
    obtain rfl : l' = l := alike.lower
    cases took with
    | false =>
      cases run
      exact Or.inr ⟨rfl, alike⟩
    | true =>
      apply settled_later alike
      refine getLocalWith_settled cons row has (fun present => ?_) (fun again run => ?_) run
      · obtain ⟨same, start⟩ := alike.slots cls i
        rw [show (u'.slots cls i).startRow = (u.slots cls i).startRow from start]
        exact ok.frame (same.symm.trans present)
      · cases run
        exact Or.inr ⟨rfl, .refl _⟩
  · cases run
    exact Or.inr ⟨rfl, .refl _⟩

end LLFree.Upper.Restored

/- module: LLFree/Lower/Search
   digest: Searches of the lower allocator fail only where there is no free block, and change
   nothing. -/

import LLFree.Lower.FreeCount
import LLFree.Lower.NextFit

set_option autoImplicit false
set_option relaxedAutoImplicit false

namespace LLFree.Lower.Search

open LLFree.Atomic.Program LLFree.Code.Types LLFree.Code.Entries LLFree.Code.Lower
open LLFree.Lower.Holding LLFree.Lower.GetPut LLFree.Lower.Quiet LLFree.Lower.FreeCount
open LLFree.Lower.Runs LLFree.Lower.Rollback LLFree.Lower.NextFit LLFree.Lower.FrameSet

variable {N : Nat} {l l' : Lower} {start order : Nat} {target : Option Nat}

def FreeBlock (l : Lower) (f order : Nat) : Prop :=
  2 ^ order ∣ f ∧ ∀ g, Within f order g → IsFree l g

/-! ## One child -/

theorem free_of_block (cons : Consistent N l) {f : Nat} (bound : f / 512 < l.entryCount)
    (small : order ≤ 9) (free : FreeBlock l f order) :
    (l.children (f / 512)).huge = false ∧ 2 ^ order ≤ (l.children (f / 512)).free := by
  have fits := (block_in_child free.1 small).2
  have pos : 0 < 2 ^ order := Nat.two_pow_pos order
  refine ⟨(free.2 f ⟨le_refl f, by omega⟩).2.1, ?_⟩
  rw [← child_free cons bound]
  have whole : among (IsFree l) (f / 512 * 512 + f % 512) (2 ^ order) = 2 ^ order := by
    rw [among, Finset.filter_true_of_mem]
    · simp
    · intro g member
      have range := Finset.mem_Ico.mp member
      exact free.2 g ⟨by omega, by omega⟩
  have parts := among_add (p := IsFree l) (f / 512 * 512) (f % 512)
    (2 ^ order + (512 - (f % 512 + 2 ^ order)))
  rw [among_add (f / 512 * 512 + f % 512), whole,
    show f % 512 + (2 ^ order + (512 - (f % 512 + 2 ^ order))) = 512 by omega] at parts
  omega

private theorem entry_of_block (cons : Consistent N l) {f : Nat} (bound : f / 512 < l.entryCount)
    (free : FreeBlock l f 9) : l.children (f / 512) = childNew 512 false := by
  obtain ⟨small, room⟩ := free_of_block cons bound (le_refl 9) free
  have count := (cons.small _ bound small).2
  ext
  · show (l.children (f / 512)).free = 512
    omega
  · exact small

private theorem room_of_block {f : Nat} (small : order < 9) (free : FreeBlock l f order) :
    Room l (f / 512) order (f % 512) := by
  have inside := block_in_child free.1 (show order ≤ 9 by omega)
  refine ⟨inside.1, Nat.mod_lt f (by decide), ?_⟩
  intro i less
  have clear := (free.2 (f + i) ⟨by omega, by omega⟩).2.2
  rwa [childSize, show f / 512 * 512 + f % 512 + i = f + i by omega]

private theorem run_getChild (cons : Consistent N l) {i : Nat} (bound : i < l.entryCount)
    (small : order < 9) :
    (Prog.run LoOp.exec (getChild start order i) l = some (none, l) ∧
        ∀ f, f / 512 = i → ¬ FreeBlock l f order) ∨
      ∃ a l', Prog.run LoOp.exec (getChild start order i) l = some (some a, l') ∧
        ∃ f, a = llfreeOk f 0 ∧ f / 512 = i := by
  simp only [getChild, childDecAt, Prog.step_bind, Prog.ret_bind]
  rw [run_childDec bound]
  by_cases room : (l.children i).huge = false ∧ 2 ^ order ≤ (l.children i).free
  swap
  · rw [if_neg room]
    refine Or.inl ⟨rfl, ?_⟩
    rintro f rfl free
    exact room (free_of_block cons bound (by omega) free)
  rw [if_pos room, if_pos rfl]
  obtain ⟨real, count⟩ := cons.small i bound room.1
  rcases setNext_exact (l := l.setChild i ⟨(l.children i).free - 2 ^ order, false⟩) start real small
    with ⟨p, l', has_room, -, hit, -⟩ | ⟨full, miss⟩
  · right
    refine ⟨llfreeOk (frameFromChild i + p) 0, l', ?_, _, rfl, ?_⟩
    · rw [Prog.run_bind_some hit]
      rfl
    · have inside : p < 512 := has_room.2.1
      show (i * 512 + p) / 512 = i
      omega
  · left
    constructor
    · rw [Prog.run_bind_some miss, if_neg (by simp)]
      simp only [childIncAt, Prog.step_bind, Prog.ret_bind]
      rw [run_giveBack bound room.1 (by omega) room.2]
      rfl
    · rintro f rfl free
      have room : Room l (f / 512) order (f % 512) := room_of_block small free
      exact full (f % 512) room

private theorem run_getHuge (cons : Consistent N l) {i : Nat} (bound : i < l.entryCount) :
    (Prog.run LoOp.exec (getGroup 1 i) l = some (none, l) ∧
        ∀ f, f / 512 = i → ¬ FreeBlock l f 9) ∨
      ∃ a l', Prog.run LoOp.exec (getGroup 1 i) l = some (some a, l') ∧
        ∃ f, a = llfreeOk f 0 ∧ f / 512 = i := by
  simp only [getGroup, Nat.mul_one, tryUpdateHugeN, tryUpdateHugeFrom, childCas, Prog.step_bind,
    Prog.ret_bind]
  rw [run_childCas (show i * 1 + 0 < l.entryCount by omega), Nat.add_zero, Nat.mul_one]
  by_cases free : l.children i = childNew childSize false
  · rw [if_pos free]
    refine Or.inr ⟨_, _, rfl, _, rfl, ?_⟩
    show i * 512 / 512 = i
    omega
  · rw [if_neg free]
    refine Or.inl ⟨rfl, ?_⟩
    rintro f rfl block
    exact free (entry_of_block cons bound block)

/-! ## Calls -/

/-- `f` lies in the first child of the tree of `start` that has a free block, in cyclic order from
the child of `start`. -/
def FirstChild (l : Lower) (start order f : Nat) : Prop :=
  ∀ g, g / treeSize = start / treeSize → FreeBlock l g order →
    turn (childFromFrame start) treeChildren (childFromFrame f) ≤
      turn (childFromFrame start) treeChildren (childFromFrame g)

private theorem run_treeSearch {attempt : Nat → LoProg (Option Result)}
    (settled : ∀ i, i / 8 = start / 4096 →
      (Prog.run LoOp.exec (attempt i) l = some (none, l) ∧
          ∀ f, f / 512 = i → ¬ FreeBlock l f order) ∨
        ∃ a l', Prog.run LoOp.exec (attempt i) l = some (some a, l') ∧
          ∃ f, a = llfreeOk f 0 ∧ f / 512 = i) :
    (Prog.run LoOp.exec (Prog.firstSome (forOffsetted (start / 512) 8) attempt >>= fun found =>
          pure (found.getD (llfreeErr .memory))) l = some (llfreeErr .memory, l) ∧
        ∀ f, f / 4096 = start / 4096 → ¬ FreeBlock l f order) ∨
      ∃ f l', Prog.run LoOp.exec (Prog.firstSome (forOffsetted (start / 512) 8) attempt >>=
          fun found => pure (found.getD (llfreeErr .memory))) l = some (llfreeOk f 0, l') ∧
        FirstChild l start order f := by
  have found := run_forOffsetted (show 0 < 8 by decide)
    (fun i => ∀ f, f / 512 = i → ¬ FreeBlock l f order)
    (fun i a _ => ∃ f, a = llfreeOk f 0 ∧ f / 512 = i)
    fun i (same : i / 8 = start / 512 / 8) => settled i (by omega)
  rcases found with ⟨miss, all⟩ | ⟨i, -, l', -, before, hit, f, rfl, rfl⟩
  · left
    refine ⟨miss, ?_⟩
    intro f here
    exact all (f / 512) (by omega) f rfl
  · right
    refine ⟨f, l', hit, ?_⟩
    intro g here free
    change g / 4096 = start / 4096 at here
    by_contra later
    exact before (g / 512) (by omega) (not_le.mp later) g rfl free

/-- An untargeted call that fails has seen a tree without a free block and changes nothing; any
other call takes a block of the first child that has one. -/
theorem run_get (cons : Consistent N l) (inside : start < N) (small : order ≤ 9) :
    (Prog.run LoOp.exec (lowerGet N start order none) l = some (llfreeErr .memory, l) ∧
        ∀ f, f / 4096 = start / 4096 → ¬ FreeBlock l f order) ∨
      ∃ f l', Prog.run LoOp.exec (lowerGet N start order none) l = some (llfreeOk f 0, l') ∧
        FirstChild l start order f := by
  have real : childFromFrame start < divCeil N childSize := by
    simp only [childFromFrame, divCeil, childSize]
    omega
  have entries : ∀ i, i / 8 = start / 4096 → i < l.entryCount := by
    intro i same
    rw [cons.backed.entryCount_eq]
    simp only [entriesOf, childrenOf, alignUp, alignDown, divCeil, treeChildren, childSize]
    omega
  rw [lowerGet, Prog.assert_bind (show order ≤ treeOrder by
    simp only [treeOrder]
    omega)]
  dsimp only
  rw [Prog.assert_bind inside, Prog.assert_bind real]
  rcases Nat.lt_or_eq_of_le small with less | rfl
  · rw [if_neg (by simp only [hugeOrder]; omega)]
    exact run_treeSearch fun i same => run_getChild cons (entries i same) less
  · rw [if_pos (show 9 ≥ hugeOrder from le_refl 9)]
    simp only [childFromFrame, childSize, treeChildren, hugeOrder, Nat.sub_self, Nat.pow_zero,
      Nat.div_one, alignDown, Nat.mul_one]
    exact run_treeSearch fun i same => run_getHuge cons (entries i same)

theorem run_getAt (start : Nat) (cons : Consistent N l) {f : Nat} (reach : f < 2 ^ 63)
    (row : order ≤ 6 ∨ order = 9) :
    (∃ r, Prog.run LoOp.exec (lowerGet N start order (some f)) l = some (r, l) ∧ r.error ≠ .ok ∧
        ¬ (Valid N f order ∧ FreeBlock l f order)) ∨
      ∃ l', Prog.run LoOp.exec (lowerGet N start order (some f)) l = some (llfreeOk f 0, l') := by
  have pos : 0 < 2 ^ order := Nat.two_pow_pos order
  rw [lowerGet, Prog.assert_bind (show order ≤ treeOrder by
    simp only [treeOrder]
    omega)]
  by_cases valid : Valid N f order
  swap
  · have invalid := (invalidFrame_iff reach (show order ≤ 12 by omega)).mpr valid
    rw [lowerGetAt, if_pos invalid]
    exact Or.inl ⟨_, rfl, by simp, fun both => valid both.1⟩
  have real : f / 512 < l.childCount := by
    have fits := valid.1
    rw [cons.backed.childCount_eq]
    simp only [childrenOf, divCeil, childSize]
    omega
  have bound : f / 512 < l.entryCount := real.trans_le (childCount_le_entryCount l)
  have good : ¬ invalidFrame N f order = true := by simp [invalidFrame_of_valid valid]
  rw [lowerGetAt, if_neg good]
  dsimp only
  rcases row with small | rfl
  · rw [if_neg (by simp only [hugeOrder]; omega)]
    simp only [childFromFrame, childSize, childDecAt, Prog.step_bind, Prog.ret_bind]
    rw [run_childDec bound]
    by_cases room : (l.children (f / 512)).huge = false ∧ 2 ^ order ≤ (l.children (f / 512)).free
    swap
    · rw [if_neg room]
      refine Or.inl ⟨_, rfl, by simp, ?_⟩
      rintro ⟨-, free⟩
      exact room (free_of_block cons bound (by omega) free)
    rw [if_pos room, if_pos rfl]
    obtain ⟨-, count⟩ := cons.small _ bound room.1
    have toggle : ToggleExact (l.setChild (f / 512)
        ⟨(l.children (f / 512)).free - 2 ^ order, false⟩) (f / 512) (f % 512) order false :=
      (toggleExact_iff (by exact real) (Nat.mod_lt f (by omega))
        (block_in_child valid.2 (by omega)).1 (by omega)).mpr (Or.inl small)
    unfold ToggleExact at toggle
    split_ifs at toggle with clear
    · obtain ⟨l', run, -⟩ := toggle
      exact Or.inr ⟨l', by rw [Prog.run_bind_some run]; rfl⟩
    · left
      refine ⟨llfreeErr .memory, ?_, by simp, ?_⟩
      · rw [Prog.run_bind_some toggle, if_neg (by simp)]
        simp only [childIncAt, Prog.step_bind, Prog.ret_bind]
        rw [run_giveBack bound room.1 (by omega) room.2]
        rfl
      · rintro ⟨-, free⟩
        apply clear
        intro i less
        have bit := (free.2 (f + i) ⟨by omega, by omega⟩).2.2
        rwa [show f + i = f / 512 * 512 + f % 512 + i by omega] at bit
  · rw [if_pos (show 9 ≥ hugeOrder from le_refl 9)]
    simp only [childFromFrame, childSize, hugeOrder, Nat.sub_self, Nat.pow_zero, tryUpdateHugeN,
      tryUpdateHugeFrom, childCas, Prog.step_bind, Prog.ret_bind]
    rw [run_childCas (show f / 512 + 0 < l.entryCount from bound), Nat.add_zero]
    by_cases free : l.children (f / 512) = childNew 512 false
    · rw [if_pos free]
      exact Or.inr ⟨_, rfl⟩
    · rw [if_neg free]
      refine Or.inl ⟨_, rfl, by simp, ?_⟩
      rintro ⟨-, block⟩
      exact free (entry_of_block cons bound block)

def Sought (start : Nat) (target : Option Nat) (f : Nat) : Prop :=
  target = some f ∨ target = none ∧ f / 4096 = start / 4096

/-- A call that completes has taken the free block that it returns, or there is none where it looks
and it has changed nothing. -/
def GetExact (N start order : Nat) (target : Option Nat) (l : Lower) (r : Result) (l' : Lower) :
    Prop :=
  (∃ f, r = llfreeOk f 0 ∧ Valid N f order ∧ Took f order l l' ∧ Sought start target f) ∨
    (r.error ≠ .ok ∧ (target = none → r = llfreeErr .memory) ∧ l' = l ∧
      ∀ f, Valid N f order → Sought start target f → ¬ FreeBlock l f order)

theorem get_exact (cons : Consistent N l) (args : GetArgs N start target)
    (row : order ≤ 6 ∨ order = 9) :
    ∃ r l', Prog.run LoOp.exec (lowerGet N start order target) l = some (r, l') ∧
      Consistent N l' ∧ GetExact N start order target l r l' := by
  have small : order ≤ 9 := by omega
  have found : ∀ f l', Prog.run LoOp.exec (lowerGet N start order target) l =
      some (llfreeOk f 0, l') →
        Consistent N l' ∧ GetExact N start order target l (llfreeOk f 0) l' := by
    intro f l' run
    obtain ⟨cons', outcome⟩ := get_sound cons args small run
    rcases outcome with ⟨g, same, valid, took, hit, tree⟩ | ⟨either, -⟩
    · refine ⟨cons', Or.inl ⟨g, same, valid, took, ?_⟩⟩
      cases target with
      | none => exact Or.inr ⟨rfl, tree rfl⟩
      | some t => exact Or.inl (congrArg some (hit t rfl).symm)
    · rcases either with bad | ⟨bad, -⟩ <;> cases (Result.mk.inj bad).2.2
  cases target with
  | none =>
    rcases run_get cons (args.start rfl) small with ⟨run, absent⟩ | ⟨f, l', run, -⟩
    · refine ⟨llfreeErr .memory, l, run, cons, Or.inr ⟨by simp, fun _ => rfl, rfl, ?_⟩⟩
      rintro f - (bad | ⟨-, tree⟩)
      · cases bad
      · exact absent f tree
    · exact ⟨_, l', run, found f l' run⟩
  | some t =>
    rcases run_getAt start cons (args.target t rfl) row with
      ⟨r, run, bad, absent⟩ | ⟨l', run⟩
    · refine ⟨r, l, run, cons, Or.inr ⟨bad, (fun wrong => nomatch wrong), rfl, ?_⟩⟩
      rintro f valid (same | ⟨wrong, -⟩) free
      · cases same
        exact absent ⟨valid, free⟩
      · cases wrong
    · exact ⟨_, l', run, found t l' run⟩

/-- An untargeted call succeeds exactly when a child of the tree of `start` has a free block. It
takes one from the first such child in cyclic order, and otherwise changes nothing. -/
theorem get_complete (cons : Consistent N l) (inside : start < N) (small : order ≤ hugeOrder) :
    ∃ r l', Prog.run LoOp.exec (lowerGet N start order none) l = some (r, l') ∧
      (r.error = .ok ↔ ∃ f, f / treeSize = start / treeSize ∧ FreeBlock l f order) ∧
      (r.error = .ok → r = llfreeOk r.frame 0 ∧ r.frame / treeSize = start / treeSize ∧
        FreeBlock l r.frame order ∧ FirstChild l start order r.frame ∧ Took r.frame order l l') ∧
      (r.error ≠ .ok → r = llfreeErr .memory ∧ l' = l) := by
  rcases run_get cons inside small with ⟨run, absent⟩ | ⟨f, l', run, first⟩
  · refine ⟨_, _, run, ⟨by simp, ?_⟩, by simp, fun _ => ⟨rfl, rfl⟩⟩
    rintro ⟨f, tree, free⟩
    exact absurd free (absent f tree)
  · have args : GetArgs N start none := ⟨fun _ => inside, by simp⟩
    obtain ⟨-, outcome⟩ := get_sound cons args small run
    rcases outcome with ⟨g, same, valid, took, -, tree⟩ | ⟨either, -⟩
    · cases same
      have free : FreeBlock l f order := ⟨valid.2, took.free⟩
      exact ⟨_, l', run, ⟨fun _ => ⟨f, tree rfl, free⟩, fun _ => rfl⟩,
        fun _ => ⟨rfl, tree rfl, free, first, took⟩, fun error => absurd rfl error⟩
    · rcases either with bad | ⟨bad, -⟩
      · cases (Result.mk.inj bad).2.2
      · cases (Result.mk.inj bad).2.2

/-- A huge frame from the partial last child on: the search passes the padding and wraps to the
first child of the tree. -/
theorem get_complete_wraps :
    (Prog.run LoOp.exec (lowerGet 5000 4700 9 none) (lowerInit zeroed 5000 .free).2).map Prod.fst =
        some (llfreeOk 4096 0) ∧
      ∃ r l', Prog.run LoOp.exec (lowerGet 5000 4700 9 none) (lowerInit zeroed 5000 .free).2 =
          some (r, l') ∧
        (r.error = .ok ↔ ∃ f, f / treeSize = 4700 / treeSize ∧
          FreeBlock (lowerInit zeroed 5000 .free).2 f 9) ∧
        (r.error = .ok → r = llfreeOk r.frame 0 ∧ r.frame / treeSize = 4700 / treeSize ∧
          FreeBlock (lowerInit zeroed 5000 .free).2 r.frame 9 ∧
          FirstChild (lowerInit zeroed 5000 .free).2 4700 9 r.frame ∧
          Took r.frame 9 (lowerInit zeroed 5000 .free).2 l') ∧
        (r.error ≠ .ok → r = llfreeErr .memory ∧ l' = (lowerInit zeroed 5000 .free).2) :=
  ⟨by decide +kernel, get_complete (clear_consistent zeroed 5000 true) (by decide) (by decide)⟩

end LLFree.Lower.Search

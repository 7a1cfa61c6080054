/- module: LLFree/Upper/LocalPath
   digest: When a slot can use all frames of its own tree. -/

import LLFree.Upper.Attempts
import LLFree.Upper.Balance
import LLFree.Upper.Requests

set_option autoImplicit false
set_option relaxedAutoImplicit false

namespace LLFree.Upper.LocalPath

open LLFree.Atomic.Program LLFree.Code.Types LLFree.Code.Entries LLFree.Code.Lower
open LLFree.Code.Local LLFree.Code.Shared LLFree.Code.Llfree LLFree.Lower.GetPut
open LLFree.Lower.Quiet LLFree.Lower.FrameSet LLFree.Lower.Search LLFree.Upper.Slots
open LLFree.Upper.Sequential LLFree.Upper.Balance LLFree.Upper.Requests LLFree.Upper.Attempts

variable {K : Config} {s s' : Llfree Lower} {l : Lower} {u : Upper} {c i order : Nat}

def heldTree (u : Upper) (c i : Nat) : Nat := treeFromRow (u.slots c i).startRow

/-- `get_local` with `sync` and without a target allocates in the tree of the slot, and its two
counters pay for the block. -/
def ServesLocally (K : Config) (c i order : Nat) (s : Llfree Lower) : Prop :=
  ∃ r out s', Prog.run (UpOp.exec K) (getLocal c i order none true) s = some ((r, out), s') ∧
    r.error = .ok ∧ treeFromFrame r.frame = heldTree s.upper c i ∧
    (s'.upper.trees (heldTree s.upper c i)).free + (s'.upper.slots c i).free + 2 ^ order =
      (s.upper.trees (heldTree s.upper c i)).free + (s.upper.slots c i).free

/-- What the slot can make use of: its own frames, or those of both counters where the steal of
`sync_with_global` takes the global ones, which it does above the need only. -/
def Usable (c i order : Nat) (u : Upper) : Prop :=
  2 ^ order ≤ (u.slots c i).free ∨
    (u.trees (heldTree u c i)).reserved = true ∧
      2 ^ order < (u.slots c i).free + (u.trees (heldTree u c i)).free ∧
      (u.slots c i).free + (u.trees (heldTree u c i)).free ≤ treeSize

def BlockInTree (K : Config) (c i order : Nat) (s : Llfree Lower) : Prop :=
  ∃ f, Valid K.frames f order ∧ treeFromFrame f = heldTree s.upper c i ∧ FreeBlock s.lower f order

/-! ## The path -/

theorem lower_serves (cons : Consistent K.frames l) {row : Nat}
    (inside : frameFromRow row < K.frames) (legal : RowOrHuge order)
    (block : ∃ f, Valid K.frames f order ∧ treeFromFrame f = treeFromRow row ∧
      FreeBlock l f order) :
    ∃ f l', Prog.run LoOp.exec (lowerGet K.frames (frameFromRow row) order none) l =
      some (llfreeOk f 0, l') ∧ f / 4096 = treeFromRow row := by
  obtain ⟨r, l', run, -, exact⟩ := get_exact cons
    (⟨fun _ => inside, fun _ none => nomatch none⟩ : GetArgs K.frames (frameFromRow row) none) legal
  rcases exact with ⟨f, rfl, -, -, none | ⟨-, tree⟩⟩ | ⟨-, -, -, absent⟩
  · cases none
  · exact ⟨f, l', run, tree⟩
  · obtain ⟨f, valid, tree, free⟩ := block
    exact absurd free (absent f valid (Or.inr ⟨rfl, tree⟩))

section Path

variable (cons : Consistent K.frames l) (has : K.HasSlot c i)
  (ok : SlotOk K (u.slots c i)) (present : (u.slots c i).present = true) (legal : RowOrHuge order)
  (block : BlockInTree K c i order ⟨l, u⟩)
include cons has ok present legal block

theorem run_own (enough : 2 ^ order ≤ (u.slots c i).free)
    (miss : LocalResult → UpProg (Result × Option Nat)) :
    ∃ f l' u', Prog.run (UpOp.exec K) (getLocalWith c i order none miss) ⟨l, u⟩ =
        some ((llfreeOk f c, none), ⟨l', u'⟩) ∧ f / 4096 = heldTree u c i ∧
      Served c i (2 ^ order) u u' := by
  obtain ⟨f, l', done, tree⟩ := lower_serves cons (ok.frame present) legal block
  obtain ⟨u', run, served⟩ := run_getLocalWith has miss
    ⟨present, by simp, enough⟩ tree done
  exact ⟨f, l', u', run, tree, served⟩

theorem serves_own (enough : 2 ^ order ≤ (u.slots c i).free) :
    ServesLocally K c i order ⟨l, u⟩ := by
  obtain ⟨f, l', u', run, tree, served⟩ := run_own cons has ok present legal block enough _
  refine ⟨llfreeOk f c, none, ⟨l', u'⟩, run, rfl, tree, ?_⟩
  have free := served.free
  rw [served.trees]
  dsimp only
  omega

theorem serves_synced (few : (u.slots c i).free < 2 ^ order) (covers : Covers u c i (2 ^ order))
    (room : (u.slots c i).free + (u.trees (heldTree u c i)).free ≤ treeSize) :
    ServesLocally K c i order ⟨l, u⟩ := by
  have refuses : ¬ Holds (u.slots c i) (none.map treeFromFrame) (2 ^ order) := by
    rintro ⟨-, -, enough⟩
    omega
  have sync := run_sync_taken (l := l) present (ok.tree present) few has covers room
  have slot : (synced u c i).slots c i = { u.slots c i with
      free := (u.slots c i).free + (u.trees (heldTree u c i)).free } := setSlot_self _ c i _
  have held : heldTree (synced u c i) c i = heldTree u c i := by
    rw [heldTree, slot]
    rfl
  have tree : (synced u c i).trees (heldTree u c i) =
      { u.trees (heldTree u c i) with free := 0 } := Function.update_self ..
  have start : ((synced u c i).slots c i).startRow = (u.slots c i).startRow := by rw [slot]
  obtain ⟨f, l', u', run, tree', served⟩ := run_own (u := synced u c i) cons has
    (by rw [slot]; exact slotOk_row present (ok.frame present)) (by rw [slot]; exact present) legal
    (by rwa [BlockInTree, held])
    (by rw [slot]; have above := covers.2; simp only [heldTree] at above ⊢; omega)
    fun again => return localMiss again
  refine ⟨llfreeOk f c, none, ⟨l', u'⟩, ?_, rfl, tree'.trans held, ?_⟩
  · rw [run_getLocal_miss has present refuses sync, if_pos rfl]
    exact run
  · have free := served.free
    rw [served.trees, tree]
    rw [slot] at free
    dsimp only at free ⊢
    omega

theorem serves_iff : ServesLocally K c i order ⟨l, u⟩ ↔ Usable c i order u := by
  by_cases enough : 2 ^ order ≤ (u.slots c i).free
  · exact ⟨fun _ => Or.inl enough,
      fun _ => serves_own cons has ok present legal block enough⟩
  · have few : (u.slots c i).free < 2 ^ order := Nat.lt_of_not_le enough
    have refuses : ¬ Holds (u.slots c i) (none.map treeFromFrame) (2 ^ order) :=
      fun holds => enough holds.enough
    have inside := ok.tree present
    by_cases covers : Covers u c i (2 ^ order)
    · by_cases room : (u.slots c i).free + (u.trees (heldTree u c i)).free ≤ treeSize
      · have above := covers.2
        refine ⟨fun _ => Or.inr ⟨covers.1, ?_, room⟩,
          fun _ => serves_synced cons has ok present legal block few covers room⟩
        simp only [heldTree] at above ⊢
        omega
      · -- the counters exceed a whole tree: the assertion of the deposit fails
        refine ⟨?_, ?_⟩
        · rintro ⟨r, out, s', run, -⟩
          have stuck := run_sync_overflow (l := l) present inside few has covers room
          rw [getLocal, run_getLocalWith_miss has refuses,
            if_pos (show (true && (makeResult false c (u.slots c i)).present) = true from present),
            Prog.run_bind, stuck] at run
          cases run
        · rintro (bad | ⟨-, -, bad⟩)
          · exact absurd bad enough
          · exact absurd bad room
    · have sync := run_sync_refused (l := l) present inside few covers
      refine ⟨?_, ?_⟩
      · rintro ⟨r, out, s', run, ok, -⟩
        rw [run_getLocal_miss has present refuses sync, if_neg (by simp)] at run
        cases run
        cases ok
      · rintro (bad | ⟨reserved, above, -⟩)
        · exact absurd bad enough
        · refine absurd ⟨reserved, ?_⟩ covers
          simp only [heldTree] at above
          omega

end Path

/-! ## Reachable states -/

theorem steady_reached {mode : InitMode} (fresh : FreshMode mode) (init : Initialised K mode s)
    (run : History K RowCalls () s () s') : Steady K s' := by
  obtain ⟨buffers, init⟩ := init
  obtain ⟨rebuilt, lower⟩ := init_rebuilt init fresh.ne_none
  have reach : K.frames ≤ 2 ^ 63 := rebuilt.frames.2.trans (by decide)
  refine run.keeps (I := fun _ => Steady K) ⟨?_, ?_⟩ ?_
  · exact fresh_consistent ⟨buffers.lower, mode, fresh, lower⟩
  · intro c i has
    rw [rebuilt.slots c i has]
    exact slotOk_none
  · intro _ c r _ t t' steady row done
    exact call_steady reach row steady done

/-- In every reachable state the own path serves a block of the slot's tree exactly when its frames
are usable: those of the slot alone, or those of both counters when they are more than needed. -/
theorem own_tree_served {mode : InitMode} (fresh : FreshMode mode) (init : Initialised K mode s)
    (run : History K RowCalls () s () s') (has : K.HasSlot c i)
    (present : (s'.upper.slots c i).present = true) (legal : RowOrHuge order)
    (block : BlockInTree K c i order s') :
    ServesLocally K c i order s' ↔ Usable c i order s'.upper := by
  have steady := steady_reached fresh init run
  exact serves_iff steady.lower has (steady.slots c i has) present legal block

theorem usable_iff (accounted : Accounted K s) (has : K.HasSlot c i)
    (present : (s.upper.slots c i).present = true) :
    Usable c i order s.upper ↔ 2 ^ order ≤ (s.upper.slots c i).free ∨ 2 ^ order <
      (s.upper.slots c i).free + (s.upper.trees (heldTree s.upper c i)).free := by
  obtain ⟨reserved, room⟩ := accounted.slot has present
  apply or_congr_right
  constructor
  · rintro ⟨-, above, -⟩
    exact above
  · intro above
    exact ⟨reserved, above, room⟩

/-! ## A slot and a counter that meet the need exactly -/

private def twoTrees : Config := ⟨4097, llfreeClassingSimple 1⟩

-- The slot takes a whole tree and uses it up; one frame comes back to the entry.
private def usedUp : List Call :=
  List.replicate 8 (.get none ⟨9, 1, some 0⟩) ++ [.put 0 ⟨0, 1, none⟩]

private theorem usedUp_legal : ∀ c ∈ usedUp, ∀ t r, RowCalls () t c r () := by
  intro c member t r
  simp only [usedUp, List.mem_append, List.mem_replicate, List.mem_singleton] at member
  rcases member with ⟨-, rfl⟩ | rfl
  · exact Or.inr rfl
  · exact Or.inl (Nat.zero_le _)

private def lastFrame : Llfree Lower := afterAll twoTrees usedUp (initZeroed twoTrees .free)

private theorem lastFrame_block : BlockInTree twoTrees 1 0 0 lastFrame := by
  refine ⟨0, ⟨by decide, by decide⟩, by decide +kernel, by decide, ?_⟩
  intro g within
  obtain rfl : g = 0 := by
    have below := within.2
    omega
  decide +kernel

/-- The slot is empty and the counter is what is needed: the frame is there, and not found. -/
theorem own_tree_not_served : ∃ s s', Initialised twoTrees .free s ∧
    History twoTrees RowCalls () s () s' ∧ twoTrees.HasSlot 1 0 ∧
    (s'.upper.slots 1 0).present = true ∧ RowOrHuge 0 ∧ BlockInTree twoTrees 1 0 0 s' ∧
    2 ^ 0 ≤ (s'.upper.slots 1 0).free + (s'.upper.trees (heldTree s'.upper 1 0)).free ∧
    ¬ ServesLocally twoTrees 1 0 0 s' := by
  have fresh : Initialised twoTrees .free (initZeroed twoTrees .free) :=
    initZeroed_initialised (by decide)
  have run : History twoTrees RowCalls () (initZeroed twoTrees .free) () lastFrame :=
    History.calls (.start _ _) usedUp (by decide +kernel) usedUp_legal
  have has : twoTrees.HasSlot 1 0 := by decide
  have present : (lastFrame.upper.slots 1 0).present = true := by decide +kernel
  refine ⟨_, lastFrame, fresh, run, has, present, by decide, lastFrame_block, by decide +kernel, ?_⟩
  intro served
  have usable := (own_tree_served (Or.inl rfl) fresh run has present (by decide)
    lastFrame_block).mp served
  have slot : (lastFrame.upper.slots 1 0).free = 0 := by decide +kernel
  have counter : (lastFrame.upper.trees (heldTree lastFrame.upper 1 0)).free = 1 := by
    decide +kernel
  rw [Usable, slot, counter] at usable
  omega

/-- After the first allocation the slot has frames of its own. -/
theorem own_tree_served_first : ServesLocally twoTrees 1 0 0
    (afterAll twoTrees [.get none ⟨9, 1, some 0⟩] (initZeroed twoTrees .free)) := by
  refine (own_tree_served (Or.inl rfl) (initZeroed_initialised (by decide))
    (History.calls (.start _ _) _ (by decide +kernel) ?_) (by decide) (by decide +kernel)
    (by decide) ⟨512, ⟨by decide, by decide⟩, by decide +kernel, by decide, ?_⟩).mpr
    (Or.inl (by decide +kernel))
  · intro c member t r
    obtain rfl := List.mem_singleton.mp member
    exact Or.inr rfl
  · intro g within
    obtain rfl : g = 512 := by
      have above := within.1
      have below := within.2
      omega
    decide +kernel

end LLFree.Upper.LocalPath

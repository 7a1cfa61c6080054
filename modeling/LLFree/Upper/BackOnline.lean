/- module: LLFree/Upper/BackOnline
   digest: A tree comes back online exactly when its counter got nothing back in the meantime. -/

import LLFree.Upper.Converted
import LLFree.Upper.Offline
import LLFree.Upper.Puts

set_option autoImplicit false
set_option relaxedAutoImplicit false

namespace LLFree.Upper.BackOnline

open LLFree.Code.Types LLFree.Code.Entries LLFree.Code.Lower LLFree.Code.Shared
open LLFree.Atomic.Program LLFree.Lower.Quiet LLFree.Lower.FrameSet LLFree.Lower.FreeCount
open LLFree.Lower.Statistics LLFree.Upper.Ledger LLFree.Upper.Slots LLFree.Upper.Calls
open LLFree.Upper.Sequential LLFree.Upper.Changes LLFree.Upper.Converted LLFree.Upper.Offline
open LLFree.Upper.Puts LLFree.Upper.Requests

variable {K : Config} {s s' s₁ s₂ : Llfree Lower} {t n : Nat}

/-- Frees of blocks of tree `t` that succeed. What is remembered is how many frames the entry of the
tree got back; the rest went to a slot that holds the tree. -/
inductive PutBack (t : Nat) : Nat → Llfree Lower → Call → Option Result → Nat → Prop
  | slot (n : Nat) (s : Llfree Lower) (frame : Nat) (request : Request) (r : Result)
      (tree : treeFromFrame frame = t) (row : RowOrHuge request.order) (ok : r.error = .ok)
      (i : Nat)
      (held : ToSlot s.upper request t i) : PutBack t n s (.put frame request) (some r) n
  | tree (n : Nat) (s : Llfree Lower) (frame : Nat) (request : Request) (r : Result)
      (tree : treeFromFrame frame = t) (row : RowOrHuge request.order) (ok : r.error = .ok)
      (other : ∀ i, ¬ ToSlot s.upper request t i) :
      PutBack t n s (.put frame request) (some r) (n + 2 ^ request.order)

structure Emptied (K : Config) (t n : Nat) (s : Llfree Lower) : Prop where
  lower : Consistent K.frames s.lower
  idle : (s.upper.trees t).reserved = false
  counter : (s.upper.trees t).free = n

private theorem lower_put {f : Nat} {request : Request} {r : Result} {l' : Lower}
    (accepted : K.frames ≤ maxPages) (cons : Consistent K.frames s.lower)
    (row : RowOrHuge request.order) (checked : Checked K request (some f))
    (done : Prog.run LoOp.exec (lowerPut K.frames f request.order) s.lower = some (r, l')) :
    Consistent K.frames l' := by
  change K.frames ≤ 2 ^ 52 at accepted
  have fits := (checked.target f rfl).1
  have pos : 0 < 2 ^ request.order := Nat.two_pow_pos _
  obtain ⟨r', l'', run', cons', -⟩ := call_refines cons (.put f request.order) ⟨row, by omega⟩
  have same : some (r, l') = some (r', l'') := done.symm.trans run'
  obtain ⟨-, rfl⟩ := Prod.mk.inj (Option.some.inj same)
  exact cons'

private theorem emptied_put {c : Call} {a : Option Result} {m : Nat}
    (accepted : K.frames ≤ maxPages)
    (emptied : Emptied K t n s) (put : PutBack t n s c a m) (run : c.run K s = some (a, s')) :
    Emptied K t m s' := by
  cases put with
  | slot frame request r tree row ok i held =>
    subst tree
    obtain ⟨checked, ⟨r', done, -⟩, returned⟩ := put_done run ok
    have same : s'.upper.trees = s.upper.trees := by
      generalize s'.upper = v at returned
      cases returned with
      | slot j _ _ => rfl
      | tree other _ => exact absurd held (other i)
    refine ⟨lower_put accepted emptied.lower row checked done, ?_, ?_⟩
    · rw [same, emptied.idle]
    · rw [same, emptied.counter]
  | tree frame request r tree row ok other =>
    subst tree
    obtain ⟨checked, ⟨r', done, -⟩, returned⟩ := put_done run ok
    have entry : s'.upper.trees (treeFromFrame frame) =
        raised K (s.upper.trees (treeFromFrame frame)) (2 ^ request.order) := by
      generalize s'.upper = v at returned
      cases returned with
      | slot i held _ => exact absurd held (other i)
      | tree _ _ => rw [setTree_trees, Function.update_self]
    refine ⟨lower_put accepted emptied.lower row checked done, ?_, ?_⟩
    · rw [entry]
      exact emptied.idle
    · rw [entry, ← emptied.counter]
      rfl

private theorem emptied_offline {turns cls free new : Nat} {r : Result} (some : 0 < K.treesLen)
    (cons : Consistent K.frames s.lower)
    (run : (Call.changeTree (turns + 1) ⟨Option.some t, cls, free⟩ ⟨new, .offline⟩).run K s =
      Option.some (Option.some r, s₁)) (ok : r.error = .ok) :
    t < K.treesLen ∧ Emptied K t 0 s₁ := by
  obtain ⟨r', s', done, last⟩ := Prog.run_bind_eq_some.mp run
  cases last
  rcases run_changeTree_settled some turns ⟨Option.some t, cls, free⟩ ⟨new, .offline⟩ s with
    ⟨miss, -⟩ | ⟨v, hit, idx, tree, addressed, step, rfl⟩
  · rw [miss] at done
    cases done
    cases ok
  · rw [hit] at done
    cases done
    obtain rfl : idx = t := addressed.2 t rfl
    obtain ⟨-, rfl⟩ := changed_some addressed step
    refine ⟨addressed.1, cons, ?_, ?_⟩
    · rw [setTree_trees, Function.update_self]
      rfl
    · rw [setTree_trees, Function.update_self]
      rfl

def takeOnline (turns t : Nat) : Call :=
  .changeTree turns ⟨some t, classNone, 0⟩ ⟨classNone, .online⟩

/-- After a tree has gone offline and blocks of it were freed, it comes back online exactly when its
entry got no frame back, and then it counts the frames that are free below. Otherwise nothing
happens. -/
theorem online_answers {turns cls free new : Nat} {r : Result}
    (accepted : minPages ≤ K.frames ∧ K.frames ≤ maxPages) (cons : Consistent K.frames s.lower)
    (offline : (Call.changeTree (turns + 1) ⟨some t, cls, free⟩ ⟨new, .offline⟩).run K s =
      some (some r, s₁)) (ok : r.error = .ok) (puts : History K (PutBack t) 0 s₁ n s₂)
        (again : Nat) :
    ∃ r' s₃, (takeOnline (again + 1) t).run K s₂ = some (some r', s₃) ∧
      (r'.error = .ok ↔ n = 0) ∧
      (r'.error = .ok → s₃ = ⟨s₂.lower, s₂.upper.setTree t
        ⟨false, (s₂.upper.trees t).cls, treeFree (freeSet s₂.lower) t⟩⟩) ∧
      (r'.error ≠ .ok → r' = llfreeErr .memory ∧ s₃ = s₂ ∧ (s₂.upper.trees t).free = n) := by
  have trees : 0 < K.treesLen := by
    have small : 1 ≤ K.frames := Nat.le_trans (by decide) accepted.1
    simp only [Config.treesLen, divCeil, treeSize]
    omega
  obtain ⟨inside, start⟩ := emptied_offline trees cons offline ok
  have emptied : Emptied K t n s₂ := puts.keeps (I := fun m u => Emptied K t m u) start
    fun _ _ _ _ _ _ before put done => emptied_put accepted.2 before put done
  rcases run_changeTree_settled trees again ⟨some t, classNone, 0⟩ ⟨classNone, .online⟩ s₂ with
    ⟨run, refused⟩ | ⟨s₃, run, idx, tree, addressed, step, rfl⟩
  · refine ⟨_, s₂, Prog.run_bind_some run, ⟨by simp, ?_⟩, by simp,
      fun _ => ⟨rfl, rfl, emptied.counter⟩⟩
    rintro rfl
    have found : Matches K s₂ ⟨some t, classNone, 0⟩ ⟨classNone, .online⟩ t :=
      ⟨inside, by simp, emptied.idle, by simp, Nat.zero_le _, fun _ => emptied.counter⟩
    obtain ⟨tree, step⟩ := changed_matching found
    have none := refused (Nat.zero_le _) t ⟨inside, by simp⟩
    rw [step] at none
    cases none
  · obtain rfl : idx = t := addressed.2 t rfl
    obtain ⟨found, rfl⟩ := changed_some addressed step
    have zero : n = 0 := emptied.counter.symm.trans (found.empty rfl)
    have count : (lowerStatsAt s₂.lower (frameFromTree idx) treeOrder).freeFrames =
        treeFree (freeSet s₂.lower) idx := by
      rw [stats_tree_free emptied.lower (frameFromTree_lt inside) (frameFromTree_tree idx)]
      exact groupFree_eq emptied.lower inside
    refine ⟨_, _, Prog.run_bind_some run, iff_of_true rfl zero, fun _ => ?_,
      fun error => absurd rfl error⟩
    rw [converted, convertedTree, count]
    rfl

/-! ## One tree -/

def offlineAny : Call := .changeTree 1 ⟨some 0, classNone, 0⟩ ⟨classNone, .offline⟩

def soleTree : Config := ⟨4096, llfreeClassingSimple 1⟩

def frameTaken : Llfree Lower :=
  (Call.get (some 0) ⟨0, 0, none⟩).after soleTree (initZeroed soleTree .free)

private theorem frameTaken_run : (Call.get (some 0) ⟨0, 0, none⟩).run soleTree
    (initZeroed soleTree .free) = some (some (llfreeOk 0 0), frameTaken) :=
  Call.run_after (by decide +kernel)

private theorem frameTaken_parked : Parked (K := soleTree) (by decide) frameTaken 0 := by
  have init : Initialised soleTree .free (initZeroed soleTree .free) :=
    initZeroed_initialised (by decide)
  obtain ⟨trees, start⟩ := parked_init (by decide) (Or.inl rfl) init
  have plain : PlainCall (.get (some 0) ⟨0, 0, none⟩) (initZeroed soleTree .free) :=
    ⟨Or.inl (by decide), by simp⟩
  exact ⟨by simp, plain_sound plain_supported trees not_false start.sound plain frameTaken_run⟩

/-- The frame is freed while its tree is offline, and the tree stays offline. -/
theorem online_refused :
    ∃ s s₁ s₂ s₃, History soleTree RowCalls () (initZeroed soleTree .free) () s ∧
      AddsUp soleTree s ∧ (s.upper.trees 0).reserved = false ∧
      offlineAny.run soleTree s = some (some (llfreeOk 0 0), s₁) ∧
      (Call.put 0 ⟨0, 0, none⟩).run soleTree s₁ = some (some (llfreeOk 0 0), s₂) ∧
      (takeOnline 1 0).run soleTree s₂ = some (some (llfreeErr .memory), s₃) := by
  have parked := frameTaken_parked
  refine ⟨frameTaken, _, _, _, .call _ (.start () _) frameTaken_run (Or.inl (by decide)), ?_,
    by decide +kernel, Call.run_after (by decide +kernel), Call.run_after (by decide +kernel),
    Call.run_after (by decide +kernel)⟩
  refine ⟨fun t inside => ?_, fun t inside => ?_⟩
  · have balance := parked.balance inside
    rwa [counted_zero, Nat.add_zero] at balance
  · rw [parked.holders_card inside]
    split_ifs with reserved
    · simp [reserved]
    · simp [reserved]

/-- With no free in between the tree comes back online, with one it does not. -/
theorem online_answers_first :
    (∃ r s₃, (takeOnline 1 0).run soleTree (offlineAny.after soleTree frameTaken) =
      some (some r, s₃) ∧ r.error = .ok) ∧
    ∃ r s₃, (takeOnline 1 0).run soleTree ((Call.put 0 ⟨0, 0, none⟩).after soleTree
        (offlineAny.after soleTree frameTaken)) = some (some r, s₃) ∧ r.error ≠ .ok := by
  have cons : Consistent soleTree.frames frameTaken.lower := frameTaken_parked.sound.good
  have offline : offlineAny.run soleTree frameTaken =
      some (some (llfreeOk 0 0), offlineAny.after soleTree frameTaken) :=
    Call.run_after (by decide +kernel)
  constructor
  · obtain ⟨r, s₃, run, ok, -⟩ := online_answers (by decide) cons offline rfl (.start 0 _) 0
    exact ⟨r, s₃, run, ok.mpr rfl⟩
  · obtain ⟨r, s₃, run, ok, -⟩ := online_answers (by decide) cons offline rfl
      (.call (.put 0 ⟨0, 0, none⟩) (.start 0 _)
        (Call.run_after (r := some (llfreeOk 0 0)) (by decide +kernel))
        (.tree 0 _ 0 ⟨0, 0, none⟩ (llfreeOk 0 0) rfl (Or.inl (by decide)) rfl
          (fun i held => by cases held.1))) 0
    exact ⟨r, s₃, run, fun done => absurd (ok.mp done) (by decide)⟩

end LLFree.Upper.BackOnline

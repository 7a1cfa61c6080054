/- module: LLFree/Upper/Exclusive
   digest: No frame is handed out twice, unless an attempt at several huge frames is undone. -/

import LLFree.Lower.Groups
import LLFree.Upper.Frames

set_option autoImplicit false
set_option relaxedAutoImplicit false

namespace LLFree.Upper.Exclusive

open LLFree.Atomic.Program LLFree.Code.Types LLFree.Code.Entries LLFree.Code.Lower
open LLFree.Code.Shared LLFree.Lower.Holding LLFree.Lower.GetPut LLFree.Lower.Quiet
open LLFree.Lower.FrameSet LLFree.Lower.Groups LLFree.Upper.Slots LLFree.Upper.Sequential
open LLFree.Upper.Frames

/-! ## Calls of any order -/

def TreeCall : Call → Prop
  | .get _ request => request.order ≤ treeOrder
  | .put _ request => request.order ≤ treeOrder
  | _ => True

instance : (c : Call) → Decidable (TreeCall c)
  | .get .. => inferInstanceAs (Decidable (_ ≤ treeOrder))
  | .put .. => inferInstanceAs (Decidable (_ ≤ treeOrder))
  | .drain => isTrue trivial
  | .changeTree .. => isTrue trivial

def SparedStep : UpOp → Llfree Lower → Prop
  | .lower d, t => Spared d t.lower
  | _, _ => True

instance : (o : UpOp) → (t : Llfree Lower) → Decidable (SparedStep o t)
  | .lower d, t => inferInstanceAs (Decidable (Spared d t.lower))
  | .lowerStatsAt .., _ => isTrue trivial
  | .table _, _ => isTrue trivial

/-- No allocation of more than a huge frame within the call comes across a torn group. -/
def Unharmed (K : Config) (c : Call) (s : Llfree Lower) : Prop :=
  Prog.Along (UpOp.exec K) SparedStep (c.prog K) s

instance (K : Config) (c : Call) (s : Llfree Lower) : Decidable (Unharmed K c s) :=
  inferInstanceAs (Decidable (Prog.Along _ SparedStep _ _))

/-- The calls of the clients. -/
def SparedCall (K : Config) (c : Call) (s : Llfree Lower) : Prop := TreeCall c ∧ Unharmed K c s

def Apart (b c : Lent) : Prop :=
  ∀ g, ¬ (Within b.frame b.order g ∧ Within c.frame c.order g)

/-- A block for a request: aligned, in range, at the frame asked for, apart from all others. -/
structure Fresh (K : Config) (held : List Lent) (target : Option Nat) (b : Lent) : Prop where
  valid : Valid K.frames b.frame b.order
  target : ∀ f, target = some f → b.frame = f
  apart : ∀ c ∈ held, Apart b c

/-! ## What the clients hold -/

variable {K : Config} {l0 : Lower} {s s' : Llfree Lower} {held held' : List Lent}

def heldView (fits : Fits K) (cons : Consistent K.frames l0) : FrameView K Held where
  orders order := order ≤ 12
  guard := Spared
  inv l m := Backed K.frames l (m + allocated l0)
  taken := block
  gets _ _ _ _ _ _ _ small valid spared backed run :=
    get_held cons (reach_of_fits fits) small valid spared backed run

def lentBlocks (held : List Lent) : Held := (held.map fun b => block b.frame b.order).sum

theorem lentBlocks_cons (b : Lent) (held : List Lent) :
    lentBlocks (b :: held) = block b.frame b.order + lentBlocks held := by
  simp [lentBlocks]

theorem lentBlocks_erase {b : Lent} (own : b ∈ held) :
    lentBlocks held = block b.frame b.order + lentBlocks (held.erase b) := by
  have same : lentBlocks held = lentBlocks (b :: held.erase b) :=
    ((List.perm_cons_erase own).map _).sum_eq
  rw [same, lentBlocks_cons]

/-- The words are explained by the blocks of the clients and what was never free. -/
structure Backs (K : Config) (l0 : Lower) (held : List Lent) (s : Llfree Lower) : Prop where
  backed : Backed K.frames s.lower (lentBlocks held + allocated l0)
  valid : ∀ b ∈ held, b.order ≤ 12 ∧ Valid K.frames b.frame b.order

private theorem guarded_of_unharmed (fits : Fits K) (cons : Consistent K.frames l0) {c : Call}
    (unharmed : Unharmed K c s) : Guarded (heldView fits cons) c s := by
  have same : (heldView fits cons).Meets = SparedStep := by
    funext o t
    cases o <;> rfl
  rw [Guarded, same]
  exact unharmed

private theorem call_backs (fits : Fits K) (cons : Consistent K.frames l0) {c : Call}
    {r : Option Result} (client : ClientCall (SparedCall K) held s c r held')
    (backs : Backs K l0 held s) (run : c.run K s = some (r, s')) : Backs K l0 held' s' := by
  have inv : (heldView fits cons).inv s.lower (lentBlocks held) := backs.backed
  cases client with
  | get target request r ok =>
    have small : request.order ≤ 12 := ok.1
    rcases frames_get small (guarded_of_unharmed fits cons ok.2) inv run with
      ⟨got, valid, -, inv'⟩ | ⟨error, inv'⟩
    · rw [if_pos got]
      refine ⟨?_, fun b member => ?_⟩
      · rw [lentBlocks_cons]
        exact inv'
      · rcases List.mem_cons.mp member with rfl | old
        · exact ⟨small, valid⟩
        · exact backs.valid b old
    · rw [if_neg error]
      exact ⟨inv', backs.valid⟩
  | put b request r ok own same =>
    have rest : ∀ c ∈ held.erase b, c.order ≤ 12 ∧ Valid K.frames c.frame c.order :=
      fun c member => backs.valid c (List.mem_of_mem_erase member)
    rw [lentBlocks_erase own, ← same] at inv
    have puts : ∀ l r l' F, Valid K.frames b.frame request.order →
        (heldView fits cons).inv l (block b.frame request.order + F) →
        Prog.run LoOp.exec (lowerPut K.frames b.frame request.order) l = some (r, l') →
        (r.error = .ok ∧ (heldView fits cons).inv l' (0 + F)) ∨
          (r.error ≠ .ok ∧ (heldView fits cons).inv l' (block b.frame request.order + F)) := by
      intro l r l' F valid backed put
      have split : Backed K.frames l (0 + block b.frame request.order + (F + allocated l0)) := by
        rw [zero_add, ← add_assoc]
        exact backed
      obtain ⟨done, backed'⟩ := put_held ok.1 valid split put
      rw [← add_assoc] at backed'
      exact Or.inl ⟨done, backed'⟩
    rcases frames_put puts (guarded_of_unharmed fits cons ok.2) inv run with
      ⟨done, inv'⟩ | ⟨error, inv'⟩
    · rw [if_pos done]
      rw [zero_add] at inv'
      exact ⟨inv', rest⟩
    · rw [if_neg error]
      refine ⟨?_, backs.valid⟩
      rw [lentBlocks_erase own, ← same]
      exact inv'
  | drain =>
    refine ⟨?_, backs.valid⟩
    rw [drain_lower run]
    exact backs.backed

/-! ## Allocations -/

private theorem apart_of_backed {x y : Held} {l : Lower} {b c : Lent}
    (backed : Backed K.frames l (x + y)) (small : b.order ≤ 12)
    (valid : Valid K.frames b.frame b.order)
    (aligned : 2 ^ c.order ∣ c.frame)
    (mine : ∀ g, Covers (block b.frame b.order) g → Covers x g)
    (theirs : ∀ g, Covers (block c.frame c.order) g → Covers y g) : Apart b c := by
  intro g both
  have pos : 0 < 2 ^ b.order := Nat.two_pow_pos _
  have fits := valid.1
  have tree : b.frame / 4096 < divCeil K.frames 4096 := by
    simp only [divCeil]
    omega
  have inside := block_entries small valid.2 tree g both.1
  exact covers_once backed inside (mine g ((covers_block valid.2).mpr both.1))
    (theirs g ((covers_block aligned).mpr both.2))

private theorem fresh_of_get (fits : Fits K) (cons : Consistent K.frames l0)
    (backs : Backs K l0 held s) {target : Option Nat} {request : Request} {r : Result}
    (spared : SparedCall K (.get target request) s)
    (run : (Call.get target request).run K s = some (some r, s')) (ok : r.error = .ok) :
    Fresh K held target ⟨r.frame, request.order, r.cls⟩ := by
  have inv : (heldView fits cons).inv s.lower (lentBlocks held) := backs.backed
  have small : request.order ≤ 12 := spared.1
  rcases frames_get small (guarded_of_unharmed fits cons spared.2) inv run with
    ⟨-, valid, hit, inv'⟩ | ⟨error, -⟩
  · have backed : Backed K.frames s'.lower (block r.frame request.order +
        (lentBlocks held + allocated l0)) := by
      rw [← add_assoc]
      exact inv'
    refine ⟨valid, hit, fun c member => ?_⟩
    refine apart_of_backed backed small valid (backs.valid c member).2.2 (fun g covers => covers)
      fun g covers => ?_
    rw [lentBlocks_erase member]
    exact covers_add.mpr (Or.inl (covers_add.mpr (Or.inl covers)))
  · exact absurd ok error

/-- In every run whose calls come across no torn group, each allocation hands out a valid block
that nobody holds. -/
theorem blocks_exclusive (fits : Fits K) (init : Initialised K .free s)
    (run : History K (ClientCall (SparedCall K)) [] s held s') (target : Option Nat)
    (request : Request) (r : Result) (t : Llfree Lower)
    (spared : SparedCall K (.get target request) s')
    (get : (Call.get target request).run K s' = some (some r, t)) (ok : r.error = .ok) :
    Fresh K held target ⟨r.frame, request.order, r.cls⟩ := by
  obtain ⟨buffers, init⟩ := init
  obtain ⟨-, lower⟩ := init_rebuilt init (by simp)
  have cons : Consistent K.frames s.lower :=
    fresh_consistent ⟨buffers.lower, .free, Or.inl rfl, lower⟩
  have start : Backs K s.lower [] s := by
    refine ⟨?_, by simp⟩
    rw [lentBlocks, List.map_nil, List.sum_nil, zero_add]
    exact cons.backed
  have backs := run.keeps (I := fun held t => Backs K s.lower held t) start
    fun _ _ _ _ _ _ backs client done => call_backs fits cons client backs done
  exact fresh_of_get fits cons backs spared get ok

/-- Two blocks of two huge frames each. -/
theorem blocks_exclusive_two :
    Fresh ⟨4096, llfreeClassingSimple 1⟩ [⟨0, 10, 0⟩] none ⟨1024, 10, 0⟩ :=
  blocks_exclusive (by decide) (initZeroed_initialised (by decide))
    (.call (.get none ⟨10, 0, none⟩) (.start _ _) (Call.run_after (r := some (llfreeOk 0 0))
      (by decide +kernel)) (.get [] _ none ⟨10, 0, none⟩ (llfreeOk 0 0)
        ⟨by decide, by decide +kernel⟩))
    none ⟨10, 0, none⟩ (llfreeOk 1024 0) _ ⟨by decide, by decide +kernel⟩
    (Call.run_after (by decide +kernel)) rfl

/-- A huge frame that was taken by its number stands in the way of two huge frames, and the undo
sets it free while it is held: it is handed out again. -/
theorem blocks_not_exclusive :
    ∃ s held s' request r t, Initialised ⟨4096, llfreeClassingSimple 1⟩ .free s ∧
      History ⟨4096, llfreeClassingSimple 1⟩ (ClientCall fun c _ => TreeCall c) [] s held s' ∧
      TreeCall (.get none request) ∧
      (Call.get none request).run ⟨4096, llfreeClassingSimple 1⟩ s' = some (some r, t) ∧
      r.error = .ok ∧
      ¬ Fresh ⟨4096, llfreeClassingSimple 1⟩ held none ⟨r.frame, request.order, r.cls⟩ := by
  refine ⟨_, [⟨1024, 10, 0⟩, ⟨512, 9, 0⟩], _, ⟨9, 0, none⟩, llfreeOk 512 0, _,
    initZeroed_initialised (by decide),
    .call (.get none ⟨10, 0, none⟩)
      (.call (.get (some 512) ⟨9, 0, none⟩) (.start _ _)
        (Call.run_after (r := some (llfreeOk 512 0)) (by decide +kernel))
        (.get [] _ (some 512) ⟨9, 0, none⟩ (llfreeOk 512 0) (by decide)))
      (Call.run_after (r := some (llfreeOk 1024 0)) (by decide +kernel))
      (.get [⟨512, 9, 0⟩] _ none ⟨10, 0, none⟩ (llfreeOk 1024 0) (by decide)),
    by decide, Call.run_after (by decide +kernel), rfl, fun fresh => ?_⟩
  exact fresh.apart ⟨512, 9, 0⟩ (by simp) 512 ⟨⟨by decide, by decide⟩, ⟨by decide, by decide⟩⟩

end LLFree.Upper.Exclusive

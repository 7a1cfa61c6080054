/- module: LLFree/Upper/Frames
   digest: Which frames a call takes and gives back, whatever the trees and slots say. -/

import LLFree.Upper.Sequential
import LLFree.Upper.Taking

/-!
A view follows the frames of the lower allocator with resources of its own; allocations give
out the resource of one block, or nothing.
-/

set_option autoImplicit false
set_option relaxedAutoImplicit false

namespace LLFree.Upper.Frames

open LLFree.Atomic.Program LLFree.Atomic.Escrow LLFree.Code.Types LLFree.Code.Entries
open LLFree.Code.Lower LLFree.Code.Shared LLFree.Lower.GetPut LLFree.Upper.Sequential
open LLFree.Upper.Taking

/-- A way to follow the frames of the lower allocator, along runs that meet `guard`. -/
structure FrameView (K : Config) (M : Type) [AddCommMonoid M] where
  orders : Nat → Prop
  guard : LowerCall → Lower → Prop
  inv : Lower → M → Prop
  taken : Nat → Nat → M
  gets : ∀ start order target l r l' m, orders order →
    (∀ f, target = some f → Valid K.frames f order) → guard (.get start order target) l → inv l m →
    Prog.run LoOp.exec (lowerGet K.frames start order target) l = some (r, l') →
    (r.error = .ok ∧ Valid K.frames r.frame order ∧ (∀ f, target = some f → r.frame = f) ∧
        inv l' (m + taken r.frame order)) ∨
      (r.error ≠ .ok ∧ inv l' m)

variable {K : Config} {M α β : Type} [AddCommMonoid M] {V : FrameView K M}

def FrameView.Meets (V : FrameView K M) : UpOp → Llfree Lower → Prop
  | .lower c, s => V.guard c s.lower
  | _, _ => True

def frameAccounting (V : FrameView K M) :
    Accounting UpOp UpOp.Res (Llfree Lower) M Int where
  sys :=
    { next := fun o s r s' => V.Meets o s ∧ UpOp.exec K o s = some (r, s')
      fails := fun _ _ => True }
  inv s m := V.inv s.lower m
  amt := 0
  delta _ _ := 0
  mayAbort := True

theorem frame_runs (V : FrameView K M) :
    (frameAccounting V).sys.Runs V.Meets (UpOp.exec K) :=
  ⟨fun _ _ _ _ guard done => ⟨guard, done⟩, fun _ _ _ => trivial⟩

variable {m : M} {Q : α → M → Prop} {order : Nat} {target : Option Nat}

theorem frame_table {o : TableOp} {k : o.Res → UpProg α}
    (rest : ∀ r, (frameAccounting V).Ok (k r) m Q) :
    (frameAccounting V).Ok (.step (.table o) k) m Q := by
  refine ⟨trivial, fun s F inv => ⟨fun _ => trivial, ?_⟩⟩
  rintro r s' ⟨-, done⟩
  obtain ⟨x, -, same⟩ := Option.map_eq_some_iff.mp done
  obtain ⟨rfl, rfl⟩ := Prod.mk.inj same
  exact ⟨m, inv, rfl, rest x.1⟩

theorem frame_lowerGet {start : Nat} {k : Result → UpProg α} (orders : V.orders order)
    (valid : ∀ f, target = some f → Valid K.frames f order)
    (ok : ∀ r, r.error = .ok → Valid K.frames r.frame order → (∀ f, target = some f → r.frame = f) →
      (frameAccounting V).Ok (k r) (m + V.taken r.frame order) Q)
    (err : ∀ r, r.error ≠ .ok → (frameAccounting V).Ok (k r) m Q) :
    (frameAccounting V).Ok (.step (.lower (.get start order target)) k) m Q := by
  refine ⟨trivial, fun s F inv => ⟨fun _ => trivial, ?_⟩⟩
  rintro r s' ⟨guard, done⟩
  obtain ⟨x, run, same⟩ := Option.map_eq_some_iff.mp done
  obtain ⟨rfl, rfl⟩ := Prod.mk.inj same
  rcases V.gets start order target s.lower x.1 x.2 (m + F) orders valid guard inv run with
    ⟨error, fits, hit, inv'⟩ | ⟨error, inv'⟩
  · refine ⟨m + V.taken x.1.frame order, ?_, rfl, ok x.1 error fits hit⟩
    rwa [add_right_comm] at inv'
  · exact ⟨m, inv', rfl, err x.1 error⟩

theorem frame_blockwise (V : FrameView K M) :
    Blockwise K (frameAccounting V) (fun order _ => V.orders order) (· ≠ .ok) V.taken :=
  ⟨trivial, by simp, by simp, frame_table, frame_lowerGet⟩

theorem frame_lowerPut {f : Nat} {x y : M} {k : Result → UpProg α}
    (puts : ∀ l r l' F, Valid K.frames f order → V.inv l (x + F) →
      Prog.run LoOp.exec (lowerPut K.frames f order) l = some (r, l') →
      (r.error = .ok ∧ V.inv l' (y + F)) ∨ (r.error ≠ .ok ∧ V.inv l' (x + F)))
    (valid : Valid K.frames f order) (ok : ∀ r, r.error = .ok → (frameAccounting V).Ok (k r) y Q)
    (err : True → ∀ r, r.error ≠ .ok → (frameAccounting V).Ok (k r) x Q) :
    (frameAccounting V).Ok (.step (.lower (.put f order)) k) x Q := by
  refine ⟨trivial, fun s F inv => ⟨fun _ => trivial, ?_⟩⟩
  rintro r s' ⟨-, done⟩
  obtain ⟨z, run, same⟩ := Option.map_eq_some_iff.mp done
  obtain ⟨rfl, rfl⟩ := Prod.mk.inj same
  rcases puts s.lower z.1 z.2 F valid inv run with ⟨error, inv'⟩ | ⟨error, inv'⟩
  · exact ⟨y, inv', rfl, ok z.1 error⟩
  · exact ⟨x, inv', rfl, err trivial z.1 error⟩

/-! ## Complete calls -/

def Guarded (V : FrameView K M) (c : Call) (s : Llfree Lower) : Prop :=
  Prog.Along (UpOp.exec K) V.Meets (c.prog K) s

variable {s s' : Llfree Lower} {r : Result} {x y : M}

private theorem run_frames {c : Call} {a : Option Result} {Q : Option Result → M → Prop}
    (safe : (frameAccounting V).Ok (c.prog K) x Q) (guarded : Guarded V c s)
    (inv : V.inv s.lower (x + m)) (run : c.run K s = some (a, s')) :
    ∃ y, Q a y ∧ V.inv s'.lower (y + m) :=
  Accounting.run_sound (frame_runs V) safe inv guarded run

/-- A successful allocation hands out a valid block and its resource, any other call nothing. -/
theorem frames_get {request : Request} (orders : V.orders request.order)
    (guarded : Guarded V (.get target request) s) (inv : V.inv s.lower m)
    (run : (Call.get target request).run K s = some (some r, s')) :
    (r.error = .ok ∧ Valid K.frames r.frame request.order ∧ (∀ f, target = some f → r.frame = f) ∧
        V.inv s'.lower (V.taken r.frame request.order + m)) ∨
      (r.error ≠ .ok ∧ V.inv s'.lower m) := by
  have safe : (frameAccounting V).Ok ((Call.get target request).prog K) 0
      (fun a x => ∀ r, a = some r → GetTakes K (· ≠ .ok) V.taken request target r x) := by
    refine Accounting.safe_bind (takes_llfreeGet (frame_blockwise V) orders) fun r x takes =>
      ⟨trivial, ?_⟩
    rintro _ ⟨⟩
    exact takes
  rw [← zero_add m] at inv
  obtain ⟨y, takes, inv'⟩ := run_frames safe guarded inv run
  rcases takes r rfl with ⟨-, ⟨ok, valid, hit, rfl⟩ | ⟨error, rfl⟩⟩ | ⟨-, rfl, rfl⟩
  · exact Or.inl ⟨ok, valid, hit, inv'⟩
  · rw [zero_add] at inv'
    exact Or.inr ⟨error, inv'⟩
  · rw [zero_add] at inv'
    exact Or.inr ⟨by simp, inv'⟩

theorem frames_put {request : Request} {f : Nat}
    (puts : ∀ l r l' F, Valid K.frames f request.order → V.inv l (x + F) →
      Prog.run LoOp.exec (lowerPut K.frames f request.order) l = some (r, l') →
      (r.error = .ok ∧ V.inv l' (y + F)) ∨ (r.error ≠ .ok ∧ V.inv l' (x + F)))
    (guarded : Guarded V (.put f request) s) (inv : V.inv s.lower (x + m))
    (run : (Call.put f request).run K s = some (some r, s')) :
    (r.error = .ok ∧ V.inv s'.lower (y + m)) ∨ (r.error ≠ .ok ∧ V.inv s'.lower (x + m)) := by
  have safe : (frameAccounting V).Ok ((Call.put f request).prog K) x
      (fun a z => ∀ r, a = some r → (r.error = .ok ∧ z = y ∨ r.error ≠ .ok ∧ z = x)) := by
    refine Accounting.safe_bind (gives_llfreePut (frame_blockwise V) (frame_lowerPut puts))
      fun r z gives => ⟨trivial, ?_⟩
    rintro _ ⟨⟩
    rcases gives with ⟨-, ⟨rfl, rfl⟩ | ⟨-, error, rfl⟩⟩ | ⟨-, rfl, rfl⟩
    · exact Or.inl ⟨rfl, rfl⟩
    · exact Or.inr ⟨error, rfl⟩
    · exact Or.inr ⟨by simp, rfl⟩
  obtain ⟨z, gives, inv'⟩ := run_frames safe guarded inv run
  rcases gives r rfl with ⟨ok, rfl⟩ | ⟨error, rfl⟩
  · exact Or.inl ⟨ok, inv'⟩
  · exact Or.inr ⟨error, inv'⟩

-- The view that sees no allocation and no change.
private def stillView (K : Config) (l : Lower) : FrameView K Int where
  orders _ := False
  guard _ _ := True
  inv l' _ := l' = l
  taken _ _ := 0
  gets _ _ _ _ _ _ _ none := none.elim

theorem drain_lower {a : Option Result} (run : Call.drain.run K s = some (a, s')) :
    s'.lower = s.lower := by
  have safe : (frameAccounting (stillView K s.lower)).Ok (Call.drain.prog K) 0 (fun _ _ => True) :=
    neutral_bind (neutral_llfreeDrain (frame_blockwise _)) fun _ => ⟨trivial, trivial⟩
  have runs : (frameAccounting (stillView K s.lower)).sys.Runs (fun _ _ => True) (UpOp.exec K) := by
    refine ⟨fun o _ _ _ _ done => ⟨?_, done⟩, fun _ _ _ => trivial⟩
    cases o <;> trivial
  obtain ⟨y, -, same⟩ := Accounting.run_sound (F := 0) runs safe
    (show (stillView K s.lower).inv s.lower (0 + 0) from rfl) (Prog.along_true _ _) run
  exact same

end LLFree.Upper.Frames

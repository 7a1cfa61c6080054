/- module: LLFree/Upper/Tidied
   digest: Complete calls of any order keep the books, as long as no huge frame is taken back. -/

import LLFree.Lower.Completed
import LLFree.Upper.Requests

set_option autoImplicit false
set_option relaxedAutoImplicit false

namespace LLFree.Upper.Tidied

open LLFree.Atomic.Program LLFree.Atomic.Escrow LLFree.Atomic.Asking LLFree.Code.Types
open LLFree.Code.Entries LLFree.Code.Lower LLFree.Code.Shared LLFree.Code.Llfree
open LLFree.Lower.Quiet LLFree.Lower.FrameSet LLFree.Lower.Rollback LLFree.Lower.Completed
open LLFree.Upper.Ledger LLFree.Upper.Slots LLFree.Upper.Steps LLFree.Upper.Calls
open LLFree.Upper.Sequential LLFree.Upper.Requests

/-! ## Calls of any order -/

def TidyStep : UpOp → Llfree Lower → Prop
  | .lower d, t => Tidy d t.lower
  | _, _ => True

instance : (o : UpOp) → (t : Llfree Lower) → Decidable (TidyStep o t)
  | .lower d, t => inferInstanceAs (Decidable (Tidy d t.lower))
  | .lowerStatsAt .., _ => isTrue trivial
  | .table _, _ => isTrue trivial

/-- No step of the call has a huge frame to take back. -/
def TidyCall (K : Config) (c : Call) (s : Llfree Lower) : Prop :=
  Prog.Along (UpOp.exec K) TidyStep (c.prog K) s

instance (K : Config) (c : Call) (s : Llfree Lower) : Decidable (TidyCall K c s) :=
  inferInstanceAs (Decidable (Prog.Along _ TidyStep _ _))

def TidyCalls (K : Config) : Unit → Llfree Lower → Call → Option Result → Unit → Prop :=
  fun _ s c _ _ => TidyCall K c s

variable {K : Config} {P : Promise K} {fits : Fits K} {s s' : Llfree Lower} {m : Tickets} {α : Type}

def tidyModel (N : Nat) (reach : N ≤ 2 ^ 63) : LowerModel Lower N where
  next c l r l' := Tidy c l ∧ Prog.run LoOp.exec (c.prog N) l = some (r, l')
  fails _ _ := False
  stats frame order l := lowerStatsAt l frame order
  free := freeSet
  good := Consistent N
  orders order := order ≤ 12
  small _ := id
  runs _ _ _ _ := id
  moves c l r l' good asked next := by
    cases c with
    | get start order target =>
      exact completed_get good reach asked.2.1 asked.1 asked.2.2 next.1 next.2
    | put f order => exact completed_put good asked.1 asked.2 next.1 next.2

theorem tidy_next (reach : K.frames ≤ 2 ^ 63) (o : UpOp) (s : Llfree Lower) (r : o.Res)
    (s' : Llfree Lower) (tidy : TidyStep o s) (done : UpOp.exec K o s = some (r, s')) :
    (upperSys K (tidyModel K.frames reach)).next o s r s' := by
  cases o with
  | lower c =>
    obtain ⟨x, run, same⟩ := Option.map_eq_some_iff.mp done
    obtain ⟨rfl, rfl⟩ := Prod.mk.inj same
    exact ⟨x.2, ⟨tidy, run⟩, rfl⟩
  | lowerStatsAt frame order =>
    obtain ⟨rfl, rfl⟩ := Prod.mk.inj (Option.some.inj done)
    exact ⟨rfl, rfl⟩
  | table o =>
    obtain ⟨x, run, same⟩ := Option.map_eq_some_iff.mp done
    obtain ⟨rfl, rfl⟩ := Prod.mk.inj same
    exact ⟨x.2, run, rfl⟩

abbrev tidyWords (fits : Fits K) : LowerModel Lower K.frames :=
  tidyModel K.frames (reach_of_fits fits)

theorem run_tidy {p : UpProg α} {x : Tickets} {Q : α → Tickets → Prop} {a : α}
    (safe : (upperAccounting P (tidyWords fits)).Ok p x Q) (sound : Sound P (words fits) s (x + m))
    (tidy : Prog.Along (UpOp.exec K) TidyStep p s)
    (run : Prog.run (UpOp.exec K) p s = some (a, s')) :
    ∃ y, Q a y ∧ Sound P (words fits) s' (y + m) := by
  have inv : Sound P (tidyWords fits) s (x + m) := ⟨sound.good, sound.slots, sound.books⟩
  obtain ⟨y, post, inv'⟩ := Accounting.run_next (tidy_next (reach_of_fits fits)) safe inv tidy run
  exact ⟨y, post, inv'.good, inv'.slots, inv'.books⟩

/-! ## Calls -/

private theorem order_of_valid {request : Request} {frame : Option Nat}
    (valid : validateRequest K request frame = true) : request.order ≤ 12 := by
  by_contra big
  have large : request.order > treeOrder := not_le.mp big
  simp [validateRequest, large] at valid

def Spent (x : Tickets) : Prop := ∃ k n c, x = live k n c ∨ x = 0

private theorem safe_get {target : Option Nat} {request : Request} (support : Supported P)
    (some : 0 < K.treesLen) : (upperAccounting P (tidyWords fits)).Ok
      ((Call.get target request).prog K) 0 fun _ y => Spent y := by
  have spends : (upperAccounting P (tidyWords fits)).Ok (llfreeGet K target request) 0
      fun _ y => Spent y := by
    by_cases valid : validateRequest K request target = true
    · apply Accounting.safe_post (safe_llfreeGet fits some (fun on c => (support on).known)
        (order_of_valid valid))
      rintro r y (⟨-, rfl, -⟩ | ⟨-, rfl⟩)
      · exact ⟨_, _, _, Or.inl rfl⟩
      · exact ⟨0, 0, 0, Or.inr rfl⟩
    · simp only [llfreeGet,
        if_pos (show validateRequest K request target = false by simpa using valid)]
      exact ⟨trivial, 0, 0, 0, Or.inr rfl⟩
  apply Accounting.safe_bind spends
  intro r y spent
  exact ⟨trivial, spent⟩

private theorem safe_put {f : Nat} {request : Request} (support : Supported P)
    (mixed : ¬ P.segregated) : (upperAccounting P (tidyWords fits)).Ok
      ((Call.put f request).prog K) 0 fun _ y => Spent y := by
  have spends : (upperAccounting P (tidyWords fits)).Ok (llfreePut K f request) 0
      fun _ y => Spent y := by
    by_cases valid : validateRequest K request (some f) = true
    · apply Accounting.safe_post (safe_llfreePut (c := 0) (fun on c => (support on).known)
        (order_of_valid valid) (Or.inr ⟨mixed, rfl⟩))
      rintro r y (⟨-, rfl⟩ | ⟨-, rfl⟩) <;> exact ⟨0, 0, 0, Or.inr rfl⟩
    · simp only [llfreePut,
        if_pos (show validateRequest K request (some f) = false by simpa using valid)]
      exact ⟨trivial, 0, 0, 0, Or.inr rfl⟩
  apply Accounting.safe_bind spends
  intro r y spent
  exact ⟨trivial, spent⟩

private theorem safe_drain : (upperAccounting P (tidyWords fits)).Ok (Call.drain.prog K) 0
    fun _ y => Spent y := by
  apply Accounting.safe_bind safe_llfreeDrain
  rintro _ _ rfl
  exact ⟨trivial, 0, 0, 0, Or.inr rfl⟩

private theorem safe_call {c : Call} (support : Supported P) (mixed : ¬ P.segregated)
    (some : 0 < K.treesLen) (kept : ∀ turns matcher change, c ≠ .changeTree turns matcher change) :
    (upperAccounting P (tidyWords fits)).Ok (c.prog K) 0 fun _ y => Spent y := by
  cases c with
  | get target request => exact safe_get support some
  | put f request => exact safe_put support mixed
  | drain => exact safe_drain
  | changeTree turns matcher change => exact absurd rfl (kept turns matcher change)

theorem call_tidy {c : Call} {a : Option Result} (support : Supported P) (mixed : ¬ P.segregated)
    (some : 0 < K.treesLen) (kept : ∀ turns matcher change, c ≠ .changeTree turns matcher change)
    (sound : Sound P (words fits) s m) (tidy : TidyCall K c s)
    (run : c.run K s = Option.some (a, s')) : Sound P (words fits) s' m := by
  rw [← zero_add m] at sound
  obtain ⟨y, ⟨k, n, c, spent⟩, sound'⟩ :=
    run_tidy (safe_call support mixed some kept) sound tidy run
  exact forget_live sound' spent

theorem along_tidy {c : Call} (support : Supported P) (mixed : ¬ P.segregated)
    (some : 0 < K.treesLen) (kept : ∀ turns matcher change, c ≠ .changeTree turns matcher change)
    (sound : Sound P (words fits) s m) (tidy : TidyCall K c s) :
    Prog.Along (UpOp.exec K) (fun o t => (∃ x, Sound P (words fits) t (x + m)) ∧
      ∀ r t', UpOp.exec K o t = Option.some (r, t') → ∃ x, Sound P (words fits) t' (x + m))
      (c.prog K) s := by
  have inv : Sound P (tidyWords fits) s (0 + m) := by
    rw [zero_add]
    exact ⟨sound.good, sound.slots, sound.books⟩
  apply Prog.along_mono (Accounting.along_next (tidy_next (reach_of_fits fits))
    (safe_call support mixed some kept) inv tidy)
  rintro o t ⟨⟨x, before⟩, after⟩
  refine ⟨⟨x, before.good, before.slots, before.books⟩, fun r t' done => ?_⟩
  obtain ⟨y, last⟩ := after r t' done
  exact ⟨y, last.good, last.slots, last.books⟩

theorem row_tidy {c : Call} (reach : K.frames ≤ 2 ^ 63) (row : RowCall c s) (steady : Steady K s) :
    TidyCall K c s := by
  have along := Discipline.along_keeps (requests_serves reach fun _ legal => legal)
    (within_call row) steady
  apply Prog.along_mono along
  rintro o t ⟨asks, -⟩
  cases o with
  | lower d =>
    intro big
    cases d with
    | get start order target =>
      have row : RowOrHuge order := asks.1
      simp only [RowOrHuge, callOrder, atomicOrder, hugeOrder] at row big
      omega
    | put f order =>
      have row : RowOrHuge order := asks.2.1
      simp only [RowOrHuge, callOrder, atomicOrder, hugeOrder] at row big
      omega
  | lowerStatsAt frame order => trivial
  | table o => trivial

end LLFree.Upper.Tidied

/- module: LLFree/Upper/Effects
   digest: A complete allocation takes the block that it returns, and a failing one no frame. -/

import LLFree.Lower.Search
import LLFree.Upper.Frames

set_option autoImplicit false
set_option relaxedAutoImplicit false

namespace LLFree.Upper.Effects

open LLFree.Atomic.Program LLFree.Code.Types LLFree.Code.Entries LLFree.Code.Lower
open LLFree.Code.Shared LLFree.Lower.GetPut LLFree.Lower.Quiet LLFree.Lower.Search
open LLFree.Upper.Calls LLFree.Upper.Sequential LLFree.Upper.Frames

variable {K : Config} {s s' : Llfree Lower} {l l₀ : Lower} {target : Option Nat} {r : Result}

/-- The blocks taken since the lower allocator was `l₀`, followed up to the first one. -/
structure Since (K : Config) (l₀ l : Lower) (blocks : Multiset (Nat × Nat)) : Prop where
  cons : Consistent K.frames l
  same : blocks = 0 → l = l₀
  took : ∀ f order, blocks = {(f, order)} → Took f order l₀ l

private theorem since_gets (reach : K.frames ≤ 2 ^ 63) (l₀ : Lower) (start order : Nat)
    (target : Option Nat) (l : Lower) (r : Result) (l' : Lower) (blocks : Multiset (Nat × Nat))
    (row : RowOrHuge order) (valid : ∀ f, target = some f → Valid K.frames f order) (_ : True)
    (since : Since K l₀ l blocks)
    (run : Prog.run LoOp.exec (lowerGet K.frames start order target) l = some (r, l')) :
    (r.error = .ok ∧ Valid K.frames r.frame order ∧ (∀ f, target = some f → r.frame = f) ∧
        Since K l₀ l' (blocks + {(r.frame, order)})) ∨
      (r.error ≠ .ok ∧ Since K l₀ l' blocks) := by
  obtain ⟨cons, same, took⟩ := since
  have args : GetArgs K.frames start target := by
    refine ⟨?_, fun f hit => ?_⟩
    · rintro rfl
      exact start_of_run (rowOrHuge_small order row) run
    · have fits := (valid f hit).1
      have pos : 0 < 2 ^ order := Nat.two_pow_pos order
      omega
  obtain ⟨r', l'', run', cons', exact⟩ := get_exact cons args row
  rw [run'] at run
  cases run
  rcases exact with ⟨f, rfl, fits, taken, sought⟩ | ⟨error, -, rfl, -⟩
  · refine Or.inl ⟨rfl, fits, fun g hit => ?_, cons', fun none => ?_, fun g p one => ?_⟩
    · rcases sought with here | ⟨untargeted, -⟩
      · exact Option.some.inj (here.symm.trans hit)
      · cases untargeted.symm.trans hit
    · have card := congrArg Multiset.card none
      simp at card
    · have none : blocks = 0 := by
        have card := congrArg Multiset.card one
        simpa using card
      subst none
      rw [zero_add, Multiset.singleton_inj] at one
      cases one
      rw [← same rfl]
      exact taken
  · exact Or.inr ⟨error, cons', same, took⟩

def sinceView (K : Config) (reach : K.frames ≤ 2 ^ 63) (l₀ : Lower) :
    FrameView K (Multiset (Nat × Nat)) where
  orders := RowOrHuge
  guard _ _ := True
  inv := Since K l₀
  taken f order := {(f, order)}
  gets := since_gets reach l₀

theorem get_effect {request : Request} (reach : K.frames ≤ 2 ^ 63)
    (cons : Consistent K.frames s.lower) (row : RowOrHuge request.order)
    (run : (Call.get target request).run K s = some (some r, s')) :
    (r.error = .ok ∧ Valid K.frames r.frame request.order ∧ (∀ f, target = some f → r.frame = f) ∧
        Took r.frame request.order s.lower s'.lower) ∨
      (r.error ≠ .ok ∧ s'.lower = s.lower) := by
  have guarded : Guarded (sinceView K reach s.lower) (.get target request) s := by
    have same : (sinceView K reach s.lower).Meets = fun _ _ => True := by
      funext o t
      cases o <;> rfl
    rw [Guarded, same]
    exact Prog.along_true _ _
  have start : (sinceView K reach s.lower).inv s.lower 0 :=
    ⟨cons, fun _ => rfl, fun f order one => by simp at one⟩
  rcases frames_get row guarded start run with ⟨ok, valid, hit, since⟩ | ⟨error, since⟩
  · rw [add_zero] at since
    exact Or.inl ⟨ok, valid, hit, since.took r.frame request.order rfl⟩
  · exact Or.inr ⟨error, since.same rfl⟩

end LLFree.Upper.Effects

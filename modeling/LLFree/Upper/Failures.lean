/- module: LLFree/Upper/Failures
   digest: What an allocation that runs out of memory leaves behind. -/

import LLFree.Upper.Effects
import LLFree.Upper.Offline

set_option autoImplicit false
set_option relaxedAutoImplicit false

namespace LLFree.Upper.Failures

open LLFree.Atomic.Asking LLFree.Code.Types LLFree.Code.Entries LLFree.Code.Lower
open LLFree.Code.Trees LLFree.Code.Shared LLFree.Lower.GetPut LLFree.Lower.Quiet
open LLFree.Lower.FrameSet LLFree.Lower.FreeCount LLFree.Lower.Search LLFree.Upper.Ledger
open LLFree.Upper.Slots LLFree.Upper.Steps LLFree.Upper.Calls LLFree.Upper.Sequential
open LLFree.Upper.Conservation LLFree.Upper.Requests LLFree.Upper.Tidied LLFree.Upper.Effects
open LLFree.Upper.Offline

variable {K : Config} {fits : Fits K} {s s' s'' : Llfree Lower} {u u' : Upper} {c t n : Nat}
  {tree tree' : Tree}

/-! ## The class of an entry -/

/-- An update of an entry within a call of class `c`: the class stays, goes down to `c`, or is the
default class of a tree counted as entirely free. -/
def Recast (K : Config) (c : Nat) (tree tree' : Tree) : Prop :=
  tree'.cls = tree.cls ∨ tree'.cls = c ∧ c ≤ tree.cls ∨
    tree'.cls = K.defaultClass ∧ tree'.free = treeSize

theorem recast_same : Recast K c tree tree := Or.inl rfl

private theorem below_of_type (byClass : ByClass K.policy) (c target free : Nat)
    (type : (K.policy c target free).type = .match ∨ (K.policy c target free).type = .demote) :
    c ≤ target := by
  rw [byClass] at type
  split_ifs at type with above below
  · simp at type
  · omega
  · omega

theorem recast_steal (byClass : ByClass K.policy) {stolen : Nat}
    (step : treeSteal tree n c K.policy = some (tree', stolen)) : Recast K c tree tree' := by
  unfold treeSteal at step
  split_ifs at step
  have below := below_of_type byClass c tree.cls tree.free
  split at step <;> rename_i type <;> cases step
  · exact Or.inr (Or.inl ⟨rfl, below (Or.inl type)⟩)
  · exact Or.inr (Or.inl ⟨rfl, below (Or.inr type)⟩)
  · exact Or.inl rfl

theorem recast_reserveOrSteal (byClass : ByClass K.policy) {reserved : Bool} {target : Nat}
    (step : treeReserveOrSteal tree n K.policy c = some (tree', reserved, target)) :
    Recast K c tree tree' := by
  unfold treeReserveOrSteal at step
  split_ifs at step
  have below := below_of_type byClass c tree.cls tree.free
  split at step <;> rename_i type <;> cases step
  · exact Or.inr (Or.inl ⟨rfl, below (Or.inl type)⟩)
  · exact Or.inr (Or.inl ⟨rfl, below (Or.inr type)⟩)
  · exact Or.inl rfl

theorem recast_put (step : treePut tree n K.policy K.defaultClass = some tree') :
    tree'.cls = tree.cls ∨ tree'.cls = K.defaultClass ∧ tree'.free = treeSize := by
  unfold treePut at step
  dsimp only at step
  split_ifs at step with room full <;> cases step
  · exact Or.inr ⟨rfl, full.1⟩
  · exact Or.inl rfl

theorem recast_unreserve (byClass : ByClass K.policy)
    (step : treeUnreserveAdd tree n c K.policy K.defaultClass = some (some tree')) :
    Recast K c tree tree' := by
  unfold treeUnreserveAdd at step
  by_cases reserved : tree.reserved = true
  · by_cases type : (K.policy c tree.cls n).type = .demote
    · simp only [if_pos reserved, if_pos type, Option.map_eq_some_iff, Option.some.injEq,
        exists_eq_right] at step
      rcases recast_put step with same | full
      · exact Or.inr (Or.inl ⟨same, below_of_type byClass _ _ _ (Or.inr type)⟩)
      · exact Or.inr (Or.inr full)
    · simp only [if_pos reserved, if_neg type, Option.map_eq_some_iff, Option.some.injEq,
        exists_eq_right] at step
      rcases recast_put step with same | full
      · exact Or.inl same
      · exact Or.inr (Or.inr full)
  · rw [if_neg reserved] at step
    cases step

theorem recast_sync {min : Nat} (step : treeSyncSteal tree min = some tree') :
    Recast K c tree tree' := by
  unfold treeSyncSteal at step
  split_ifs at step
  cases step
  exact Or.inl rfl

def getScope (c : Nat) : Scope := ⟨fun d => d = c, RowOrHuge, False, False⟩

theorem table_recast (byClass : ByClass K.policy) {o : TableOp} {r : o.Res}
    (asks : tableAsks K (getScope c) o) (done : o.exec K u = some (r, u')) (t : Nat) :
    Recast K c (u.trees t) (u'.trees t) := by
  rcases table_entry done t with same | updates
  · rw [same]
    exact recast_same
  · cases o with
    | treesCas idx expected desired => exact asks.1.elim
    | treesSteal idx n d =>
      obtain rfl : d = c := asks.2
      obtain ⟨stolen, step⟩ := updates
      exact recast_steal byClass step
    | treesPut idx n => exact (recast_put updates).imp_right Or.inr
    | treesReserveOrSteal idx n d =>
      obtain rfl : d = c := asks.2
      obtain ⟨reserved, target, step⟩ := updates
      exact recast_reserveOrSteal byClass step
    | treesUnreserve idx n d =>
      obtain rfl : d = c := asks
      exact recast_unreserve byClass updates
    | treesSyncSteal idx min => exact recast_sync updates
    | _ => exact updates.elim

/-! ## The classes after a failing allocation -/

/-- Class `old` of tree `t` may have become `new` in a failing allocation of class `c`: it went
down to `c`, or all frames of the tree are free. -/
def Reclassed (K : Config) (l : Lower) (c t old new : Nat) : Prop :=
  new = old ∨ new = c ∧ c ≤ old ∨
    groupFree l (t * 8) = treeSize ∧ (new = c ∨ new = K.defaultClass)

def Fewer (l l' : Lower) : Prop :=
  (∀ g, IsFree l' g → IsFree l g) ∧ ∃ g, IsFree l g ∧ ¬ IsFree l' g

def Trying (K : Config) (c : Nat) (s s' : Llfree Lower) : Prop :=
  Fewer s.lower s'.lower ∨ s'.lower = s.lower ∧
    ∀ t < K.treesLen, Reclassed K s.lower c t (s.upper.trees t).cls (s'.upper.trees t).cls

theorem trying_start : Trying K c s s := Or.inr ⟨rfl, fun _ _ => Or.inl rfl⟩

private theorem reclassed_recast
    (free : tree'.free = treeSize → groupFree s.lower (t * 8) = treeSize)
    (recast : Recast K c tree tree') {old : Nat} (before : Reclassed K s.lower c t old tree.cls) :
    Reclassed K s.lower c t old tree'.cls := by
  rcases recast with same | ⟨down, le⟩ | ⟨back, full⟩
  · rwa [same]
  · rcases before with same | ⟨here, below⟩ | ⟨all, -⟩
    · exact Or.inr (Or.inl ⟨down, same ▸ le⟩)
    · exact Or.inr (Or.inl ⟨down, below⟩)
    · exact Or.inr (Or.inr ⟨all, Or.inl down⟩)
  · exact Or.inr (Or.inr ⟨free full, Or.inr back⟩)

theorem took_fewer {f order : Nat} {l₀ l l' : Lower} (took : Took f order l l')
    (before : l = l₀ ∨ Fewer l₀ l) : Fewer l₀ l' := by
  have pos : 0 < 2 ^ order := Nat.two_pow_pos order
  have first : Within f order f := ⟨le_refl f, by omega⟩
  have less : ∀ g, IsFree l' g → IsFree l g := by
    intro g free
    by_cases within : Within f order g
    · exact absurd free (took.taken g within)
    · exact (took.others g within).mp free
  rcases before with rfl | ⟨fewer, -⟩
  · exact ⟨less, f, took.free f first, took.taken f first⟩
  · exact ⟨fun g free => fewer g (less g free), f, fewer f (took.free f first), took.taken f first⟩

private theorem sound_full {x : Tickets} (sound : Sound (plainPromise K) (words fits) s x)
    (inside : t < K.treesLen) (full : (s.upper.trees t).free = treeSize) :
    groupFree s.lower (t * 8) = treeSize := by
  have balance := sound.books.balance t inside
  have bound := treeFree_le (freeSet s.lower) t
  have same := groupFree_eq sound.good inside
  change _ = treeFree (freeSet s.lower) t at balance
  simp only [treeSize] at full ⊢
  omega

theorem step_trying (byClass : ByClass K.policy) (reach : K.frames ≤ 2 ^ 63) {o : UpOp} {r : o.Res}
    {s₀ : Llfree Lower} (asks : (requests K (getScope c)).asks o) (steady : Steady K s)
    (sound : ∃ x, Sound (plainPromise K) (words fits) s' x) (trying : Trying K c s₀ s)
    (done : UpOp.exec K o s = some (r, s')) : Trying K c s₀ s' := by
  cases o with
  | lowerStatsAt frame order =>
    cases done
    exact trying
  | lower d =>
    obtain ⟨⟨r', l'⟩, run, same⟩ := Option.map_eq_some_iff.mp done
    cases same
    cases d with
    | put frame order => exact asks.1.elim
    | get start order target =>
      have args : GetArgs K.frames start target := by
        refine ⟨?_, fun f same => ?_⟩
        · rintro rfl
          exact start_of_run (rowOrHuge_small order asks.1) run
        · have fits := (asks.2 f same).1
          have pos : 0 < 2 ^ order := Nat.two_pow_pos order
          omega
      obtain ⟨r'', l'', run', -, exact⟩ := get_exact steady.lower args asks.1
      rw [LowerCall.prog, run'] at run
      cases run
      rcases exact with ⟨f, -, -, took, -⟩ | ⟨-, -, rfl, -⟩
      · exact Or.inl (took_fewer took (trying.symm.imp_left And.left))
      · exact trying
  | table o =>
    obtain ⟨⟨r', u'⟩, step, same⟩ := Option.map_eq_some_iff.mp done
    cases same
    rcases trying with less | ⟨same, classes⟩
    · exact Or.inl less
    · refine Or.inr ⟨same, fun t inside => ?_⟩
      obtain ⟨x, books⟩ := sound
      apply reclassed_recast _ (table_recast byClass asks step t) (classes t inside)
      intro full
      rw [← same]
      exact sound_full (s := ⟨s.lower, u'⟩) books inside full

/-- What a failing allocation leaves behind: the lower allocator and the frames of each tree are
as before, and classes have changed as described. -/
structure Spurned (K : Config) (c : Nat) (s s' : Llfree Lower) : Prop where
  lower : s'.lower = s.lower
  frames : ∀ t < K.treesLen,
    (s'.upper.trees t).free + ∑ p ∈ holders K s'.upper t, (s'.upper.slots p.1 p.2).free =
      (s.upper.trees t).free + ∑ p ∈ holders K s.upper t, (s.upper.slots p.1 p.2).free
  classes : ∀ t < K.treesLen, Reclassed K s.lower c t (s.upper.trees t).cls (s'.upper.trees t).cls

theorem get_spurned {target : Option Nat} {request : Request} {r : Result} {E : Tickets}
    (byClass : ByClass K.policy) (some : 0 < K.treesLen) (parked : Parked fits s E)
    (row : RowOrHuge request.order)
    (run : (Call.get target request).run K s = Option.some (Option.some r, s'))
    (failed : r.error ≠ .ok) : Spurned K request.cls s s' := by
  have reach := reach_of_fits fits
  have steady : Steady K s := ⟨parked.sound.good, parked.sound.slots⟩
  have tidy := row_tidy (c := .get target request) reach row steady
  have lower : s'.lower = s.lower := by
    rcases get_effect reach parked.sound.good row run with ⟨ok, -⟩ | ⟨-, same⟩
    · exact absurd ok failed
    · exact same
  refine ⟨lower, fun t inside => ?_, ?_⟩
  · have sound' := call_tidy plain_supported not_false some (by simp) parked.sound tidy run
    have before := parked.balance inside
    have after := (show Parked fits s' E from ⟨parked.credits, sound'⟩).balance inside
    rw [lower] at after
    omega
  · have within : Within K (getScope request.cls) ((Call.get target request).prog K) :=
      Discipline.keeps_bind (within_llfreeGet row fun _ => rfl) fun _ _ => trivial
    have along := along_and
      (Discipline.along_keeps (requests_serves reach fun _ legal => legal) within steady)
      (along_tidy plain_supported not_false some (by simp) parked.sound tidy)
    have trying := run_along (I := Trying K request.cls s) along
      (fun o t a t' held trying step => step_trying byClass reach held.1.1 held.1.2
        (by obtain ⟨y, sound⟩ := held.2.2 a t' step; exact ⟨y + E, sound⟩) trying step)
      trying_start run
    rcases trying with ⟨-, g, free, taken⟩ | ⟨-, classes⟩
    · rw [lower] at taken
      exact absurd free taken
    · exact classes

/-! ## Any sequence of calls -/

/-- An allocation that runs out of memory leaves the lower allocator and the frames of each tree
as they were; the class of a tree may have gone down to its own class, and an entirely free tree
may have that class or the default class afterwards. -/
theorem failed_get_keeps {mode : InitMode} (standard : Standard K) (fits : Fits K)
    (fresh : FreshMode mode) (init : Initialised K mode s)
    (run : History K (TidyCalls K) () s () s') (target : Option Nat) (request : Request)
    {r : Result}
    (row : RowOrHuge request.order)
    (get : (Call.get target request).run K s' = some (some r, s'')) (failed : r.error = .memory) :
    Spurned K request.cls s' s'' := by
  obtain ⟨some, E, parked⟩ := parked_reached fits fresh init run
  exact get_spurned standard.byClass some parked row get (by simp [failed])

def firstTaken : Llfree Lower :=
  afterAll ⟨4096, llfreeClassingSimple 1⟩ [.get (some 0) ⟨0, 1, none⟩]
    (initZeroed ⟨4096, llfreeClassingSimple 1⟩ .free)

/-- Frame 0 cannot be taken for class 0 as well. -/
theorem failed_get_keeps_taken : Spurned ⟨4096, llfreeClassingSimple 1⟩ 0 firstTaken
    ((Call.get (some 0) ⟨0, 0, none⟩).after ⟨4096, llfreeClassingSimple 1⟩ firstTaken) :=
  failed_get_keeps ⟨1, le_refl 1, Or.inl rfl⟩ (by decide) (Or.inl rfl)
    (initZeroed_initialised (by decide))
    (.call (.get (some 0) ⟨0, 1, none⟩) (.start () _)
      (Call.run_after (r := some (llfreeOk 0 1)) (by decide +kernel))
      (show TidyCall _ _ _ by decide +kernel))
    (some 0) ⟨0, 0, none⟩ (Or.inl (by decide))
    (Call.run_after (r := some (llfreeErr .memory)) (by decide +kernel)) rfl

def slotConfused : Llfree Lower :=
  afterAll oversized ((List.range 8).map (fun i => .get (some (512 * i)) ⟨9, 1, none⟩) ++
    [.get none ⟨9, 1, some 0⟩]) oversizedFree

/-- A failing allocation leaves its class behind; and where slots confuse trees, it loses the
frames of a slot. -/
theorem failed_get_reclassifies :
    (∃ s s' t, Initialised ⟨4096, llfreeClassingSimple 1⟩ .free s ∧
      History ⟨4096, llfreeClassingSimple 1⟩ RowCalls () s () s' ∧
      (Call.get (some 0) ⟨0, 0, none⟩).run ⟨4096, llfreeClassingSimple 1⟩ s' =
        some (some (llfreeErr .memory), t) ∧
      (t.upper.trees 0).cls ≠ (s'.upper.trees 0).cls) ∧
    ∃ s s' t, Initialised oversized .free s ∧ History oversized RowCalls () s () s' ∧
      (Call.get (some 0) ⟨0, 0, none⟩).run oversized s' = some (some (llfreeErr .memory), t) ∧
      (t.upper.trees 0).free + ∑ p ∈ holders oversized t.upper 0, (t.upper.slots p.1 p.2).free ≠
        (s'.upper.trees 0).free + ∑ p ∈ holders oversized s'.upper 0,
          (s'.upper.slots p.1 p.2).free := by
  constructor
  · refine ⟨_, firstTaken, _, initZeroed_initialised (by decide),
      .calls (.start () _) _ (by decide +kernel) ?_, Call.run_after (by decide +kernel),
      by decide +kernel⟩
    intro c member _ _
    obtain rfl := List.mem_singleton.mp member
    exact Or.inl (by decide)
  · refine ⟨_, slotConfused, _, oversizedFree_initialised,
      .calls (.start () _) _ (by decide +kernel) ?_, Call.run_after (by decide +kernel),
      by decide +kernel⟩
    intro c member _ _
    rcases List.mem_append.mp member with huge | last
    · obtain ⟨i, -, rfl⟩ := List.mem_map.mp huge
      exact Or.inr rfl
    · obtain rfl := List.mem_singleton.mp last
      exact Or.inr rfl

end LLFree.Upper.Failures

/- module: LLFree/Upper/Offline
   digest: The books after any complete calls: frames taken offline are parked. -/

import LLFree.Upper.Changes
import LLFree.Upper.Conservation
import LLFree.Upper.Effects
import LLFree.Upper.Tidied

/-!
A tree that goes offline loses its counter while its frames stay free below. The books go on
counting these frames, as credits that no call holds; a tree that comes online gets them back.
-/

set_option autoImplicit false
set_option relaxedAutoImplicit false

namespace LLFree.Upper.Offline

open LLFree.Atomic.Asking LLFree.Code.Types LLFree.Code.Entries LLFree.Code.Lower
open LLFree.Code.Trees LLFree.Code.Shared LLFree.Code.Llfree LLFree.Lower.Quiet
open LLFree.Lower.FrameSet LLFree.Lower.FreeCount LLFree.Lower.Statistics LLFree.Upper.Ledger
open LLFree.Upper.Moves LLFree.Upper.Slots LLFree.Upper.Steps LLFree.Upper.Calls
open LLFree.Upper.Sequential LLFree.Upper.Balance LLFree.Upper.Conservation LLFree.Upper.Requests
open LLFree.Upper.Tidied LLFree.Upper.Changes LLFree.Upper.Effects

variable {K : Config} {fits : Fits K} {s s' : Llfree Lower} {E : Tickets} {t : Nat}

/-- The books agree with the slots and the frames that are parked. -/
structure Parked (fits : Fits K) (s : Llfree Lower) (E : Tickets) : Prop where
  credits : ∀ k ∈ E, k.kind = .credit
  sound : Sound (plainPromise K) (words fits) s E

theorem owners_credits (credits : ∀ k ∈ E, k.kind = .credit) (t : Nat) : owners t E = 0 := by
  apply tally_elsewhere
  intro k member both
  rw [credits k member] at both
  cases both.2

theorem Parked.balance (parked : Parked fits s E) (inside : t < K.treesLen) :
    (s.upper.trees t).free + ∑ p ∈ holders K s.upper t, (s.upper.slots p.1 p.2).free +
      counted t E = groupFree s.lower (t * 8) :=
  (tree_frames parked.sound inside).trans (groupFree_eq parked.sound.good inside).symm

theorem Parked.holders_card (parked : Parked fits s E) (inside : t < K.treesLen) :
    (holders K s.upper t).card = if (s.upper.trees t).reserved then 1 else 0 := by
  have owned := tree_owners parked.sound inside
  rw [owners_credits parked.credits, add_zero] at owned
  rw [owned]
  cases (s.upper.trees t).reserved <;> rfl

/-! ## Moves of an entry -/

private theorem plain_move {tree tree' : Tree} {x x' : Tickets} (before : ∀ k ∈ x, k.tree = t)
    (after : ∀ k ∈ x', k.tree = t) (credits : ∀ k ∈ x + x', k.kind = .credit)
    (balance : tree'.free + counted t x' = tree.free + counted t x)
    (reserved : tree'.reserved = tree.reserved) :
    Move (plainPromise K) t tree tree' x x' := by
  have none : ∀ y ≤ x + x', owners t y = 0 ∧ alive t y = 0 := by
    intro y le
    have kind := fun k member => credits k (Multiset.mem_of_le le member)
    refine ⟨owners_credits kind t, tally_elsewhere ?_⟩
    intro k member both
    rw [kind k member] at both
    cases both.2
  obtain ⟨owners, alive⟩ := none x (Multiset.le_add_right x x')
  obtain ⟨owners', alive'⟩ := none x' (Multiset.le_add_left x' x)
  exact ⟨before, after, balance, by rw [owners, owners', reserved], by rw [alive, alive'],
    False.elim, False.elim, False.elim⟩

private theorem park (parked : Parked fits s E) (inside : t < K.treesLen) {tree : Tree}
    {x x' F : Tickets} (split : E = x + F) (after : ∀ k ∈ x' + F, k.kind = .credit)
    (move : Move (plainPromise K) t (s.upper.trees t) tree x x') :
    Parked fits { s with upper := s.upper.setTree t tree } (x' + F) := by
  refine ⟨after, ?_⟩
  have sound : Sound (plainPromise K) (words fits) s (0 + x + F) := by
    rw [zero_add, ← split]
    exact parked.sound
  have moved := sound.tree inside move
  rwa [zero_add] at moved

/-- A tree without a reservation and with an empty counter has all its free frames parked. -/
theorem Parked.all_parked (parked : Parked fits s E) (inside : t < K.treesLen)
    (idle : (s.upper.trees t).reserved = false) (empty : (s.upper.trees t).free = 0) :
    counted t E = groupFree s.lower (t * 8) := by
  have balance := parked.balance inside
  have card := parked.holders_card inside
  rw [idle] at card
  have none : holders K s.upper t = ∅ := Finset.card_eq_zero.mp card
  rw [none, Finset.sum_empty, empty] at balance
  omega

theorem split_tree (t : Nat) (E : Tickets) :
    E = E.filter (·.tree = t) + E.filter (¬ ·.tree = t) ∧
      counted t (E.filter (·.tree = t)) = counted t E ∧
      ∀ idx, idx ≠ t → counted idx (E.filter (¬ ·.tree = t)) = counted idx E := by
  have split := (Multiset.filter_add_not (·.tree = t) E).symm
  have here : ∀ k ∈ E.filter (·.tree = t), k.tree = t := fun k member =>
    (Multiset.mem_filter.mp member).2
  refine ⟨split, ?_, fun idx other => ?_⟩
  · have rest : counted t (E.filter (¬ ·.tree = t)) = 0 :=
      tally_elsewhere fun k member both => (Multiset.mem_filter.mp member).2 both.1
    have total := congrArg (counted t) split
    rw [counted_add, rest, add_zero] at total
    exact total.symm
  · have total := congrArg (counted idx) split
    rw [counted_add, (totals_elsewhere here other).1, zero_add] at total
    exact total.symm

/-- A change of one entry parks the frames of an offline tree and gives those of an online tree
back. -/
theorem parked_exchanged {matcher : TreeMatch} {change : TreeChange} (parked : Parked fits s E)
    (exchanged : Exchanged K matcher change s s') :
    ∃ E', Parked fits s' E' ∧ ∀ idx, (change.operation = .online →
      s'.upper.trees idx = s.upper.trees idx) → counted idx E ≤ counted idx E' := by
  obtain ⟨t, tree, ⟨inside, -⟩, step, rfl⟩ := exchanged
  obtain ⟨idle, -, -, empty, same⟩ := treeChange_cases step
  have reserved : tree.reserved = (s.upper.trees t).reserved := by rw [same, idle]
  cases operation : change.operation with
  | none =>
    refine ⟨0 + E, park parked inside (zero_add E).symm (by simpa using parked.credits)
      (plain_move (by simp) (by simp) (by simp) (by simp [same, operation]) reserved), ?_⟩
    intro idx _
    rw [zero_add]
  | offline =>
    refine ⟨credit t (s.upper.trees t).free 0 + E, park parked inside (zero_add E).symm ?_
      (plain_move (by simp) (by simp) (by simp) ?_ reserved), ?_⟩
    · intro k member
      rcases Multiset.mem_add.mp member with new | old
      · rw [mem_credit.mp new]
      · exact parked.credits k old
    · simp [same, operation]
    · intro idx _
      rw [counted_add]
      exact Nat.le_add_left _ _
  | online =>
    have none := empty operation
    obtain ⟨split, here, elsewhere⟩ := split_tree t E
    have all : tree.free = counted t E := by
      rw [parked.all_parked inside idle none, same, operation, onlineFrames, if_pos operation]
      exact stats_tree_free parked.sound.good (frameFromTree_lt inside) (frameFromTree_tree t)
    refine ⟨0 + E.filter (¬ ·.tree = t), park parked inside split ?_ (plain_move ?_ (by simp) ?_ ?_
      reserved), ?_⟩
    · intro k member
      rw [zero_add] at member
      exact parked.credits k (Multiset.mem_filter.mp member).1
    · exact fun k member => (Multiset.mem_filter.mp member).2
    · intro k member
      rw [add_zero] at member
      exact parked.credits k (Multiset.mem_filter.mp member).1
    · rw [counted_zero, add_zero, here, none, zero_add, all]
    · intro idx kept
      rw [zero_add]
      by_cases other : idx = t
      · subst other
        have counter := congrArg Tree.free (kept rfl)
        simp only [setTree_trees, Function.update_self, none] at counter
        omega
      · rw [elsewhere idx other]

/-! ## Complete calls -/

/-- The call does not bring tree `t` online: it is no such call, or it leaves the entry alone. -/
def Spares (t : Nat) (c : Call) (s s' : Llfree Lower) : Prop :=
  ∀ turns matcher change, c = .changeTree turns matcher change → change.operation = .online →
    s'.upper.trees t = s.upper.trees t

theorem plain_supported : Supported (plainPromise K) := False.elim

/-- After any complete call the books agree again, and parked frames stay parked until their tree
comes online. -/
theorem parked_call {c : Call} {a : Option Result} (some : 0 < K.treesLen) (tidy : TidyCall K c s)
    (parked : Parked fits s E) (run : c.run K s = Option.some (a, s')) :
    ∃ E', Parked fits s' E' ∧ ∀ t, Spares t c s s' → counted t E ≤ counted t E' := by
  have keeps : (∀ turns matcher change, c ≠ .changeTree turns matcher change) →
      ∃ E', Parked fits s' E' ∧ ∀ t, Spares t c s s' → counted t E ≤ counted t E' := fun kept =>
    ⟨E, ⟨parked.credits, call_tidy plain_supported not_false some kept parked.sound tidy run⟩,
      fun _ _ => le_refl _⟩
  cases c with
  | get frame request => exact keeps (by simp)
  | put frame request => exact keeps (by simp)
  | drain => exact keeps (by simp)
  | changeTree turns matcher change =>
    rcases call_change some run with rfl | exchanged
    · exact ⟨E, parked, fun _ _ => le_refl _⟩
    · obtain ⟨E', parked', counts⟩ := parked_exchanged parked exchanged
      exact ⟨E', parked', fun t spares => counts t (spares turns matcher change rfl)⟩

theorem parked_init {mode : InitMode} (fits : Fits K) (fresh : FreshMode mode)
    (init : Initialised K mode s) : 0 < K.treesLen ∧ Parked fits s 0 := by
  obtain ⟨rebuilt, sound⟩ := sound_init (plainPromise K) fits fresh init
  exact ⟨treesLen_pos rebuilt, by simp, sound⟩

theorem parked_reached {mode : InitMode} (fits : Fits K) (fresh : FreshMode mode)
    (init : Initialised K mode s) (run : History K (TidyCalls K) () s () s') :
    0 < K.treesLen ∧ ∃ E, Parked fits s' E := by
  obtain ⟨some, start⟩ := parked_init fits fresh init
  refine ⟨some, run.keeps (I := fun _ t => ∃ E, Parked fits t E) ⟨0, start⟩ ?_⟩
  rintro _ c r _ t t' ⟨E, parked⟩ tidy done
  obtain ⟨E', parked', -⟩ := parked_call some tidy parked done
  exact ⟨E', parked'⟩

/-! ## A tree that is shut -/

/-- Tree `t` is out of reach: it counts no frames, no slot has it, and all its frames are free. -/
structure Shut (K : Config) (t : Nat) (s : Llfree Lower) : Prop where
  counter : (s.upper.trees t).free = 0
  idle : (s.upper.trees t).reserved = false
  unheld : holders K s.upper t = ∅
  free : ∀ g, g / treeSize = t → IsFree s.lower g

def AllParked (fits : Fits K) (t : Nat) (s : Llfree Lower) : Prop :=
  (∃ E, Parked fits s E ∧ treeSize ≤ counted t E) ∧ (s.upper.trees t).reserved = false

private theorem sound_empty {x : Tickets} (sound : Sound (plainPromise K) (words fits) s (x + E))
    (inside : t < K.treesLen) (all : treeSize ≤ counted t E) :
    (s.upper.trees t).free = 0 ∧ treeFree (freeSet s.lower) t = treeSize := by
  have balance := sound.books.balance t inside
  have bound := treeFree_le (freeSet s.lower) t
  rw [counted_add, counted_add] at balance
  change _ = treeFree (freeSet s.lower) t at balance
  simp only [treeSize] at all ⊢
  omega

theorem shut_of_parked (inside : t < K.treesLen) (parked : AllParked fits t s) : Shut K t s := by
  obtain ⟨⟨E, books, all⟩, idle⟩ := parked
  have sound : Sound (plainPromise K) (words fits) s (0 + E) := by
    rw [zero_add]
    exact books.sound
  obtain ⟨counter, full⟩ := sound_empty sound inside all
  have card := books.holders_card inside
  rw [idle] at card
  exact ⟨counter, idle, Finset.card_eq_zero.mp card, fun g here => treeFree_full full here⟩

private theorem stays_idle {o : UpOp} {r : o.Res} {x : Tickets} {S : Scope}
    (inside : t < K.treesLen) (all : treeSize ≤ counted t E) (asks : (requests K S).asks o)
    (sound : Sound (plainPromise K) (words fits) s (x + E)) (done : UpOp.exec K o s = some (r, s'))
    (idle : (s.upper.trees t).reserved = false) : (s'.upper.trees t).reserved = false := by
  cases o with
  | lower d =>
    obtain ⟨⟨r', l'⟩, -, same⟩ := Option.map_eq_some_iff.mp done
    cases same
    exact idle
  | lowerStatsAt frame order =>
    cases done
    exact idle
  | table o =>
    obtain ⟨⟨r', u'⟩, step, same⟩ := Option.map_eq_some_iff.mp done
    cases same
    rcases table_entry step t with same | updates
    · rwa [same]
    · have empty := (sound_empty sound inside all).1
      cases o with
      | treesCas idx expected desired =>
        obtain ⟨rfl, here⟩ := updates
        rw [here, asks.2]
        exact idle
      | treesSteal idx n c =>
        obtain ⟨order, -, rfl⟩ := asks.1
        obtain ⟨stolen, step⟩ := updates
        have pos : 0 < 2 ^ order := Nat.two_pow_pos order
        rw [treeSteal, if_pos (by omega)] at step
        cases step
      | treesPut idx n =>
        rw [treePut_reserved updates]
        exact idle
      | treesReserveOrSteal idx n c =>
        obtain ⟨order, -, rfl⟩ := asks.1
        obtain ⟨reserved, target, step⟩ := updates
        have pos : 0 < 2 ^ order := Nat.two_pow_pos order
        rw [treeReserveOrSteal, if_pos (Or.inr (by omega))] at step
        cases step
      | treesUnreserve idx n c =>
        simp [Updates, treeUnreserveAdd, idle] at updates
      | treesSyncSteal idx min =>
        simp [Updates, treeSyncSteal, idle] at updates
      | _ => exact updates.elim

theorem call_shut {c : Call} {a : Option Result} (inside : t < K.treesLen) (row : RowCall c s)
    (parked : AllParked fits t s) (run : c.run K s = some (a, s')) (spares : Spares t c s s') :
    AllParked fits t s' := by
  obtain ⟨⟨E, books, all⟩, idle⟩ := parked
  have some : 0 < K.treesLen := by omega
  have reach := reach_of_fits fits
  have steady : Steady K s := ⟨books.sound.good, books.sound.slots⟩
  have tidy := row_tidy reach row steady
  obtain ⟨E', books', counts⟩ := parked_call some tidy books run
  refine ⟨⟨E', books', all.trans (counts t spares)⟩, ?_⟩
  have keeps : (∀ turns matcher change, c ≠ .changeTree turns matcher change) →
      (s'.upper.trees t).reserved = false := by
    intro kept
    have along := along_and
      (Discipline.along_keeps (requests_serves reach fun _ legal => legal) (within_call row) steady)
      (along_tidy plain_supported not_false some kept books.sound tidy)
    apply run_along (I := fun u => (u.upper.trees t).reserved = false) along _ idle run
    intro o u r u' held idle done
    obtain ⟨x, sound⟩ := held.2.1
    exact stays_idle inside all held.1.1 sound done idle
  cases c with
  | get frame request => exact keeps (by simp)
  | put frame request => exact keeps (by simp)
  | drain => exact keeps (by simp)
  | changeTree turns matcher change =>
    rcases call_change some run with rfl | ⟨idx, tree, -, step, rfl⟩
    · exact idle
    · by_cases here : t = idx
      · subst here
        rw [setTree_trees, Function.update_self]
        rw [(treeChange_cases step).2.2.2.2]
      · rw [setTree_trees, Function.update_of_ne here]
        exact idle

theorem offline_parks {turns : Nat} {matcher : TreeMatch} {change : TreeChange} {a : Option Result}
    (some : 0 < K.treesLen) (parked : Parked fits s E) (whole : matcher.free = treeSize)
    (offline : change.operation = .offline)
    (run : (Call.changeTree turns matcher change).run K s = Option.some (a, s'))
    (hit : s'.upper.trees t ≠ s.upper.trees t) : t < K.treesLen ∧ AllParked fits t s' := by
  rcases call_change some run with rfl | exchanged
  · exact absurd rfl hit
  · obtain ⟨E', parked', -⟩ := parked_exchanged parked exchanged
    obtain ⟨idx, tree, ⟨inside, -⟩, step, rfl⟩ := exchanged
    have here : t = idx := by
      by_contra other
      rw [setTree_trees, Function.update_of_ne other] at hit
      exact hit rfl
    subst here
    obtain ⟨-, -, enough, -, same⟩ := treeChange_cases step
    have entry : (s.upper.setTree t tree).trees t = tree := by
      rw [setTree_trees, Function.update_self]
    have idle : tree.reserved = false := by rw [same]
    have empty : tree.free = 0 := by rw [same, offline]
    have counts := parked'.all_parked inside (by rw [entry, idle]) (by rw [entry, empty])
    have balance := parked.balance inside
    refine ⟨inside, ⟨E', parked', ?_⟩, by rw [entry, idle]⟩
    rw [counts]
    change treeSize ≤ groupFree s.lower (t * 8)
    omega

/-- Calls of row orders or of a huge frame that do not bring tree `t` online. -/
def SparingCalls (K : Config) (t : Nat) :
    Unit → Llfree Lower → Call → Option Result → Unit → Prop :=
  fun _ s c _ _ => RowCall c s ∧ Spares t c s (c.after K s)

private theorem after_run {c : Call} {a : Option Result} (run : c.run K s = some (a, s')) :
    c.after K s = s' := by
  rw [Call.after, run]
  rfl

/-- A tree taken offline with all its frames free stays shut, and no allocation returns one of its
frames, whatever complete calls follow, as long as none brings it online. -/
theorem offline_shut {mode : InitMode} {s₀ s₁ s₂ s₃ : Llfree Lower} {turns : Nat}
    {matcher : TreeMatch} {change : TreeChange} {a : Option Result} (fits : Fits K)
    (fresh : FreshMode mode) (init : Initialised K mode s₀)
    (before : History K (TidyCalls K) () s₀ () s₁) (whole : matcher.free = treeSize)
    (offline : change.operation = .offline)
    (run : (Call.changeTree turns matcher change).run K s₁ = some (a, s₂))
    (hit : s₂.upper.trees t ≠ s₁.upper.trees t)
    (later : History K (SparingCalls K t) () s₂ () s₃) :
    Shut K t s₃ ∧ ∀ target request r s₄, RowOrHuge request.order →
      (Call.get target request).run K s₃ = some (some r, s₄) → r.error = .ok →
        r.frame / treeSize ≠ t := by
  obtain ⟨some, E, parked⟩ := parked_reached fits fresh init before
  obtain ⟨inside, start⟩ := offline_parks some parked whole offline run hit
  have always : AllParked fits t s₃ := by
    refine later.keeps (I := fun _ u => AllParked fits t u) start ?_
    rintro _ c r _ u u' kept ⟨row, spares⟩ done
    rw [after_run done] at spares
    exact call_shut inside row kept done spares
  refine ⟨shut_of_parked inside always, fun target request r s₄ row get ok here => ?_⟩
  have shut := shut_of_parked inside (call_shut inside (c := .get target request) row always get
    (by intro _ _ _ same; cases same))
  obtain ⟨⟨F, books, -⟩, -⟩ := always
  rcases get_effect (reach_of_fits fits) books.sound.good row get with ⟨-, -, -, took⟩ | ⟨failed, -⟩
  · have pos : 0 < 2 ^ request.order := Nat.two_pow_pos _
    exact took.taken r.frame ⟨le_refl _, by omega⟩ (shut.free r.frame here)
  · exact failed ok

def takeOffline : Call := .changeTree 1 ⟨some 0, classNone, treeSize⟩ ⟨classNone, .offline⟩

/-- With tree 0 of two offline, a frame comes from the other tree. -/
theorem offline_shut_first :
    Shut ⟨8192, llfreeClassingSimple 1⟩ 0 (afterAll ⟨8192, llfreeClassingSimple 1⟩
      [takeOffline, .get none ⟨0, 1, none⟩] (initZeroed ⟨8192, llfreeClassingSimple 1⟩ .free)) :=
  (offline_shut (by decide) (Or.inl rfl) (initZeroed_initialised (by decide)) (.start () _) rfl rfl
    (Call.run_after (c := takeOffline) (r := some (llfreeOk 0 0)) (by decide +kernel))
    (by decide +kernel)
    (.call (.get none ⟨0, 1, none⟩) (.start () _)
      (Call.run_after (r := some (llfreeOk 4096 1)) (by decide +kernel))
      ⟨Or.inl (by decide), by intro _ _ _ same; cases same⟩)).1

/-- Each counter and its slots make up the free frames of the tree, and exactly the reserved trees
have a slot, one each. -/
structure AddsUp (K : Config) (s : Llfree Lower) : Prop where
  balance : ∀ t < K.treesLen, (s.upper.trees t).free +
    ∑ p ∈ holders K s.upper t, (s.upper.slots p.1 p.2).free = groupFree s.lower (t * treeChildren)
  owned : ∀ t < K.treesLen, ((s.upper.trees t).reserved = true ↔ (holders K s.upper t).card = 1)

theorem addsUp_of_rebuilt (rebuilt : Rebuilt K s) : AddsUp K s := by
  have none : ∀ t, holders K s.upper t = ∅ := by
    apply holders_empty
    intro c i has
    rw [rebuilt.slots c i has]
    rfl
  refine ⟨fun t inside => ?_, fun t inside => ?_⟩
  · rw [none t, rebuilt.trees t inside, Finset.sum_empty, Nat.add_zero]
  · rw [none t, rebuilt.trees t inside]
    simp

/-- Where slots confuse trees, an allocation returns a frame of the tree that is offline. -/
theorem offline_not_shut :
    ∃ s₀ s₁ s₂ s₃ s₄ r, Initialised oversized .free s₀ ∧ History oversized RowCalls () s₀ () s₁ ∧
      AddsUp oversized s₁ ∧
      (Call.changeTree 1 ⟨some 0, classNone, treeSize⟩ ⟨classNone, .offline⟩).run oversized s₁ =
        some (some (llfreeOk 0 0), s₂) ∧
      s₂.upper.trees 0 ≠ s₁.upper.trees 0 ∧
      History oversized (SparingCalls oversized 0) () s₂ () s₃ ∧
      (Call.get none ⟨0, 0, some 0⟩).run oversized s₃ = some (some r, s₄) ∧
      r.error = .ok ∧ r.frame / treeSize = 0 := by
  obtain ⟨buffers, init⟩ := oversizedFree_initialised
  refine ⟨oversizedFree, oversizedFree, _, _, _, llfreeOk 0 0, ⟨buffers, init⟩, .start () _,
    addsUp_of_rebuilt (init_rebuilt init (by simp)).1, Call.run_after (by decide +kernel),
    by decide +kernel,
    .call (.get none ⟨0, 0, some 0⟩) (.start () _)
      (Call.run_after (r := some (llfreeOk (2 ^ 41) 0)) (by decide +kernel))
        ⟨Or.inl (by decide), ?_⟩,
    Call.run_after (by decide +kernel), rfl, rfl⟩
  intro _ _ _ same
  cases same

end LLFree.Upper.Offline

/- module: LLFree/Upper/Moves
   digest: Every update of an entry, a slot or the set of free frames is a move in the books. -/

import LLFree.Upper.Ledger

set_option autoImplicit false
set_option relaxedAutoImplicit false

namespace LLFree.Upper.Moves

open LLFree.Code.Types LLFree.Code.Trees LLFree.Code.Shared LLFree.Lower.FrameSet
open LLFree.Lower.FreeCount LLFree.Upper.Ledger

variable {K : Config} {P : Promise K} {t n c cls target : Nat} {tree tree' : Tree}

/-! ## Entries -/

theorem capped_iff {m : Tickets} {d : Nat} (none : ∀ k ∈ m, k.kind ≠ .owner) :
    Capped tree t m d ↔ tree.cls ≤ d :=
  or_iff_left fun ⟨k, member, kind, _⟩ => none k member kind

theorem move_steal (known : P.configured → cls < K.numClasses) (pos : 0 < n)
    (bound : tree.free ≤ treeSize) (step : treeSteal tree n cls K.policy = some (tree', c)) :
    Move P t tree tree' 0 (credit t n c) ∧ (P.segregated → c ≤ cls) := by
  simp only [treeSteal] at step
  by_cases few : tree.free < n
  · simp [few] at step
  · rw [if_neg few] at step
    have order := fun on => P.by_class on cls tree.cls tree.free
    have lower : P.segregated → tree'.cls ≤ tree.cls ∧ tree'.cls ≤ c ∧ c ≤ cls := by
      intro on
      have type := order on
      split at step <;> simp only [Option.some.injEq, Prod.mk.injEq, reduceCtorEq] at step <;>
        obtain ⟨rfl, rfl⟩ := step <;> rename_i kind <;> rw [kind] at type <;>
        split_ifs at type <;> simp only at * <;> omega
    have value : tree'.free + n = tree.free ∧ tree'.reserved = tree.reserved ∧
        (tree'.cls = cls ∨ tree'.cls = tree.cls) := by
      split at step <;> simp only [Option.some.injEq, Prod.mk.injEq, reduceCtorEq] at step <;>
        obtain ⟨rfl, rfl⟩ := step <;> exact ⟨Nat.sub_add_cancel (by omega), rfl, by simp⟩
    obtain ⟨free, reserved, class'⟩ := value
    refine ⟨⟨by simp, by simp, by simp [free], by simp [reserved], by simp, fun on => Or.inr ?_,
      fun on old _ => ⟨?_, by simp⟩, fun on _ full => ?_⟩, fun on => (lower on).2.2⟩
    · obtain ⟨le, cap, -⟩ := lower on
      refine ⟨fun d old => Or.inl ?_, fun k member _ _ => Or.inl ?_⟩
      · have old := (capped_iff (by simp)).mp old
        omega
      · rw [mem_credit] at member
        subst member
        exact cap
    · rcases class' with same | same <;> rw [same]
      · exact known on
      · exact old
    · simp only [treeSize] at full bound
      omega

theorem treePut_eq (tree : Tree) (policy : PolicyFn) (d : Nat) (fits : tree.free + n ≤ treeSize) :
    ∃ tree', treePut tree n policy d = some tree' ∧ tree'.free = tree.free + n ∧
      tree'.reserved = tree.reserved ∧
      tree'.cls = if tree.free + n = treeSize ∧ (policy tree.cls d (tree.free + n)).type ≠ .invalid
        then d else tree.cls := by
  simp only [treePut, fits, if_true]
  split_ifs with full
  · exact ⟨_, rfl, rfl, rfl, rfl⟩
  · exact ⟨_, rfl, rfl, rfl, rfl⟩

theorem treePut_reserved {d : Nat} {policy : PolicyFn}
    (step : treePut tree n policy d = some tree') : tree'.reserved = tree.reserved := by
  unfold treePut at step
  dsimp only at step
  split_ifs at step <;> cases step <;> rfl

theorem move_put (step : treePut tree n K.policy K.defaultClass = some tree') :
    Move P t tree tree' (credit t n c) 0 := by
  have fits : tree.free + n ≤ treeSize := by
    by_contra beyond
    simp [treePut, beyond] at step
  obtain ⟨new, value, free, reserved, same⟩ := treePut_eq tree K.policy K.defaultClass fits
  rw [step, Option.some.injEq] at value
  subst value
  refine ⟨by simp, by simp, by simp [free], by simp [reserved], by simp, fun on => ?_,
    fun on old _ => ⟨?_, by simp⟩, fun on _ full => ?_⟩
  · by_cases full : tree.free + n = treeSize
    · exact Or.inl (free.trans full)
    · rw [if_neg (fun both => full both.1)] at same
      refine Or.inr ⟨fun d old => Or.inl ?_, by simp⟩
      rw [same]
      exact (capped_iff (by simp)).mp old
  · rw [same]
    split_ifs
    · exact P.default_known on
    · exact old
  · rw [same, if_pos ⟨free.symm.trans full, P.never_invalid on _ _ _⟩]

theorem move_reserve (known : P.configured → cls < K.numClasses)
    (step : treeReserveOrSteal tree n K.policy cls = some (tree', true, target)) :
    Move P t tree tree' 0 (owner t tree.free target) ∧ target = cls ∧ n ≤ tree.free := by
  simp only [treeReserveOrSteal] at step
  by_cases refused : tree.reserved ∨ tree.free < n
  · simp [refused] at step
  · rw [if_neg refused] at step
    obtain ⟨idle, room⟩ := not_or.mp refused
    have order := fun on => P.by_class on cls tree.cls tree.free
    have value : tree' = ⟨true, cls, 0⟩ ∧ target = cls ∧
        ((K.policy cls tree.cls tree.free).type = .match ∨
          (K.policy cls tree.cls tree.free).type = .demote) := by
      split at step <;> simp only [Option.some.injEq, Prod.mk.injEq, reduceCtorEq, and_false,
        false_and] at step <;> obtain ⟨rfl, -, rfl⟩ := step <;> rename_i kind <;>
        exact ⟨rfl, rfl, by simp [kind]⟩
    obtain ⟨rfl, rfl, kind⟩ := value
    refine ⟨⟨by simp, by simp, by simp, by simp [idle], by simp,
      fun on => Or.inr ⟨fun d old => ?_, ?_⟩,
      fun on _ _ => ⟨known on, by simpa using known on⟩, fun on _ full => ?_⟩, rfl, by omega⟩
    · have type := order on
      have old := (capped_iff (by simp)).mp old
      refine Or.inl (le_trans ?_ old)
      rcases kind with kind | kind <;> rw [kind] at type <;> split_ifs at type <;> simp only <;>
          omega
    · simp
    · cases full

theorem move_reserveSteal (pos : 0 < n) (bound : tree.free ≤ treeSize)
    (step : treeReserveOrSteal tree n K.policy cls = some (tree', false, target)) :
    Move P t tree tree' 0 (credit t n target) ∧ (P.segregated → target ≤ cls) ∧
      target = tree.cls := by
  simp only [treeReserveOrSteal] at step
  by_cases refused : tree.reserved ∨ tree.free < n
  · simp [refused] at step
  · rw [if_neg refused] at step
    obtain ⟨idle, room⟩ := not_or.mp refused
    have order := fun on => P.by_class on cls tree.cls tree.free
    have value : tree' = { tree with free := tree.free - n } ∧ target = tree.cls ∧
        (K.policy cls tree.cls tree.free).type = .steal := by
      split at step <;> simp only [Option.some.injEq, Prod.mk.injEq, reduceCtorEq, and_false,
        false_and] at step
      obtain ⟨rfl, -, rfl⟩ := step
      rename_i kind
      exact ⟨rfl, rfl, kind⟩
    obtain ⟨rfl, rfl, kind⟩ := value
    refine ⟨⟨by simp, by simp, ?_, by simp, by simp, fun on => Or.inr ⟨fun d old => ?_, ?_⟩,
      fun on old _ => ⟨old, by simp⟩, fun on _ full => ?_⟩, fun on => ?_, rfl⟩
    · simp
      omega
    · exact Or.inl ((capped_iff (by simp)).mp old)
    · intro k member _ _
      rw [mem_credit] at member
      subst member
      exact Or.inl (le_refl _)
    · simp only [treeSize] at full bound
      omega
    · have type := order on
      rw [kind] at type
      split_ifs at type
      omega

theorem move_unreserve {f : Nat}
    (step : treeUnreserveAdd tree f c K.policy K.defaultClass = some (some tree')) :
    Move P t tree tree' (owner t f c) 0 := by
  by_cases reserved : tree.reserved
  swap
  · simp [treeUnreserveAdd, reserved] at step
  simp only [treeUnreserveAdd, reserved, if_true, Option.map_eq_some_iff, Option.some.injEq,
    exists_eq_right] at step
  generalize merged_eq : (if (K.policy c tree.cls f).type = .demote then
      ({ tree with reserved := false, cls := c } : Tree)
    else { tree with reserved := false }) = merged at step
  have shape : merged.free = tree.free ∧ merged.reserved = false ∧
      (merged.cls = c ∨ merged.cls = tree.cls) ∧
      (P.segregated → merged.cls ≤ c ∧ merged.cls ≤ tree.cls) := by
    have order := fun on => P.by_class on c tree.cls f
    subst merged_eq
    split_ifs with kind
    · refine ⟨rfl, rfl, Or.inl rfl, fun on => ?_⟩
      have type := order on
      rw [kind] at type
      split_ifs at type
      simp only
      omega
    · refine ⟨rfl, rfl, Or.inr rfl, fun on => ?_⟩
      have type := order on
      simp only
      split_ifs at type <;> first | omega | exact absurd type kind
  obtain ⟨free, idle, class', lower⟩ := shape
  have fits : merged.free + f ≤ treeSize := by
    by_contra beyond
    simp [treePut, beyond] at step
  obtain ⟨new, value, free', idle', same⟩ := treePut_eq merged K.policy K.defaultClass fits
  rw [step, Option.some.injEq] at value
  subst value
  refine ⟨by simp, by simp, by simp [free, free'], by simp [idle, idle', reserved], by simp,
    fun on => ?_, fun on old own => ⟨?_, by simp⟩, fun on _ full => ?_⟩
  · by_cases full : merged.free + f = treeSize
    · exact Or.inl (free'.trans full)
    · rw [if_neg (fun both => full both.1)] at same
      refine Or.inr ⟨fun d old => Or.inl ?_, by simp⟩
      rw [same]
      obtain ⟨low, high⟩ := lower on
      rcases old with entry | ⟨k, member, -, -, le⟩
      · omega
      · rw [mem_owner] at member
        subst member
        exact low.trans le
  · rw [same]
    split_ifs
    · exact P.default_known on
    · rcases class' with this | this <;> rw [this]
      · exact own ⟨.owner, t, f, c⟩ (by simp) rfl
      · exact old
  · rw [same, if_pos ⟨free'.symm.trans full, P.never_invalid on _ _ _⟩]

theorem move_sync {min : Nat} (step : treeSyncSteal tree min = some tree') :
    Move P t tree tree' 0 (credit t tree.free tree.cls) := by
  simp only [treeSyncSteal] at step
  split_ifs at step with holds
  rw [Option.some.injEq] at step
  subst step
  refine ⟨by simp, by simp, by simp, by simp, by simp, fun on => Or.inr ⟨fun d old => ?_, ?_⟩,
    fun on old _ => ⟨old, by simp⟩, fun on _ full => ?_⟩
  · exact Or.inl ((capped_iff (by simp)).mp old)
  · intro k member _ _
    rw [mem_credit] at member
    subst member
    exact Or.inl (le_refl _)
  · cases full

theorem move_change {d e min : Nat} (mixed : ¬ P.segregated) (used : ¬ P.pristine)
    (known : P.configured → e ≠ classNone → e < K.numClasses)
    (step : treeChange tree d min e .none 0 = some tree') : Move P t tree tree' 0 0 := by
  simp only [treeChange] at step
  split_ifs at step with reserved other few named
  all_goals
    obtain rfl := Option.some.inj step
    refine ⟨by simp, by simp, rfl, by simp, rfl, fun on => absurd on mixed, fun on old _ => ?_,
      fun on => absurd on used⟩
  · exact ⟨(storeClass_le e).trans_lt (known on named), by simp⟩
  · exact ⟨old, by simp⟩

/-! ## Slots -/

theorem move_split {f : Nat} (fits : n ≤ f) :
    Move P t tree tree (owner t f c) (owner t (f - n) c + credit t n c) := by
  refine ⟨by simp, by simp, ?_, by simp, by simp, fun on => Or.inr ⟨fun d old => ?_, ?_⟩,
    fun on old own => ⟨old, ?_⟩, fun on old => old⟩
  · simp
    omega
  · rcases old with entry | ⟨k, member, -, -, le⟩
    · exact Or.inl entry
    · rw [mem_owner] at member
      subst member
      exact Or.inr ⟨⟨.owner, t, f - n, c⟩, by simp, rfl, rfl, le⟩
  · intro k member some free
    simp only [Multiset.mem_add, mem_owner, mem_credit] at member
    rcases member with rfl | rfl
    · exact absurd rfl free
    · exact Or.inr ⟨⟨.owner, t, f - n, c⟩, by simp, rfl, rfl, le_refl _⟩
  · intro k member kind
    simp only [Multiset.mem_add, mem_owner, mem_credit] at member
    rcases member with rfl | rfl
    · exact own ⟨.owner, t, f, c⟩ (by simp) rfl
    · cases kind

theorem move_merge {f d : Nat} :
    Move P t tree tree (owner t f c + credit t n d) (owner t (f + n) c) := by
  refine ⟨by simp, by simp, by simp, by simp, by simp,
    fun on => Or.inr ⟨fun e old => ?_, by simp⟩, fun on old own => ⟨old, ?_⟩, fun on old => old⟩
  · rcases old with entry | ⟨k, member, kind, -, le⟩
    · exact Or.inl entry
    · simp only [Multiset.mem_add, mem_owner, mem_credit] at member
      rcases member with rfl | rfl
      · exact Or.inr ⟨⟨.owner, t, f + n, c⟩, by simp, rfl, rfl, le⟩
      · cases kind
  · intro k member kind
    rw [mem_owner] at member
    subst member
    exact own ⟨.owner, t, f, c⟩ (by simp) rfl

theorem move_reclass {f d : Nat} (lower : P.segregated → d ≤ c)
    (known : P.configured → d < K.numClasses) :
    Move P t tree tree (owner t f c) (owner t f d) := by
  refine ⟨by simp, by simp, by simp, by simp, by simp, fun on => Or.inr ⟨fun e old => ?_, by simp⟩,
    fun on old _ => ⟨old, by simpa using known on⟩, fun on old => old⟩
  rcases old with entry | ⟨k, member, -, -, le⟩
  · exact Or.inl entry
  · rw [mem_owner] at member
    subst member
    exact Or.inr ⟨⟨.owner, t, f, d⟩, by simp, rfl, rfl, (lower on).trans le⟩

variable {trees : Nat → Tree} {S : Set Nat} {x x' F : Tickets}

theorem exchange (books : Books P trees S (x + F)) (inside : t < K.treesLen)
    (move : Move P t (trees t) (trees t) x x') : Books P trees S (x' + F) := by
  have moved := books.move inside rfl move
  rwa [Function.update_eq_self] at moved

/-! ## Frames -/

theorem drop_live (books : Books P trees S (live t n c + F)) : Books P trees S F := by
  refine ⟨fun k member => books.inside k (Multiset.mem_add.mpr (Or.inr member)),
    fun s bound => ?_, fun s bound => ?_, fun on s bound => ?_, fun on k member some free => ?_,
    fun on => ⟨(books.known on).1, fun k member => (books.known on).2 k
      (Multiset.mem_add.mpr (Or.inr member))⟩, books.full⟩
  · simpa using books.balance s bound
  · simpa using books.owned s bound
  · have room := books.room on s bound
    rw [alive_add] at room
    omega
  · refine (books.capped on k (Multiset.mem_add.mpr (Or.inr member)) some free).imp_right ?_
    rintro ⟨j, mem, kind, rest⟩
    refine ⟨j, (Multiset.mem_add.mp mem).resolve_left fun mine => ?_, kind, rest⟩
    rw [mem_live] at mine
    subst mine
    cases kind

private theorem books_frames {S' : Set Nat} (books : Books P trees S (x + F))
    (before : ∀ k ∈ x, k.tree = t ∧ k.kind ≠ .owner)
    (after : ∀ k ∈ x', k.tree = t ∧ k.kind ≠ .owner)
    (inside : t < K.treesLen)
    (elsewhere : ∀ s, s ≠ t → treeFree S' s = treeFree S s)
    (count : treeFree S' t + counted t x = treeFree S t + counted t x')
    (room : P.segregated → treeFree S' t + alive t x' = treeFree S t + alive t x)
    (capped : P.segregated → ∀ k ∈ x', 0 < k.amount → Capped (trees t) t (x + F) k.cls) :
    Books P trees S' (x' + F) := by
  have owned : ∀ s (y : Tickets), (∀ k ∈ y, k.tree = t ∧ k.kind ≠ .owner) → owners s y = 0 := by
    intro s y none
    rw [owners, tally]
    refine Multiset.sum_eq_zero fun v member => ?_
    obtain ⟨k, mem, rfl⟩ := Multiset.mem_map.mp member
    exact if_neg fun both => (none k mem).2 both.2
  have carry : ∀ s (tree : Tree) d, Capped tree s (x + F) d → Capped tree s (x' + F) d := by
    intro s tree d old
    refine old.imp_right ?_
    rintro ⟨j, mem, kind, rest⟩
    exact ⟨j, Multiset.mem_add.mpr (Or.inr ((Multiset.mem_add.mp mem).resolve_left fun mine =>
      (before j mine).2 kind)), kind, rest⟩
  refine ⟨fun k member => ?_, fun s bound => ?_, fun s bound => ?_, fun on s bound => ?_,
    fun on k member some free => ?_, fun on => ⟨(books.known on).1, fun k member kind => ?_⟩,
    books.full⟩
  · rcases Multiset.mem_add.mp member with mine | others
    · rw [(after k mine).1]
      exact inside
    · exact books.inside k (Multiset.mem_add.mpr (Or.inr others))
  · have old := books.balance s bound
    rw [counted_add] at old ⊢
    by_cases same : s = t
    · subst same
      omega
    · rw [(totals_elsewhere (fun k mem => (before k mem).1) same).1] at old
      rw [(totals_elsewhere (fun k mem => (after k mem).1) same).1, elsewhere s same]
      exact old
  · have old := books.owned s bound
    rw [owners_add, owned s x before] at old
    rw [owners_add, owned s x' after]
    exact old
  · have old := books.room on s bound
    rw [alive_add] at old ⊢
    by_cases same : s = t
    · subst same
      have total := room on
      omega
    · rw [(totals_elsewhere (fun k mem => (before k mem).1) same).2.2] at old
      rw [(totals_elsewhere (fun k mem => (after k mem).1) same).2.2, elsewhere s same]
      exact old
  · rcases Multiset.mem_add.mp member with mine | others
    · have cap := carry t _ _ (capped on k mine some)
      rwa [(after k mine).1]
    · exact carry _ _ _ (books.capped on k (Multiset.mem_add.mpr (Or.inr others)) some free)
  · refine (books.known on).2 k (Multiset.mem_add.mpr (Or.inr ?_)) kind
    exact (Multiset.mem_add.mp member).resolve_left fun mine => (after k mine).2 kind

theorem books_take {f order : Nat} (books : Books P trees S (credit t (2 ^ order) c + F))
    (inside : t < K.treesLen) (aligned : 2 ^ order ∣ f) (small : order ≤ 12) (here : f / 4096 = t)
    (free : blockSet f order ⊆ S) :
    Books P trees (S \ blockSet f order) (live t (2 ^ order) c + F) := by
  have take := fun s => treeFree_take (t := s) aligned small free
  refine books_frames books (by simp) (by simp) inside (fun s other => ?_) ?_ (fun on => ?_)
    fun on k member some => ?_
  · have total := take s
    rw [if_neg (fun same => other (same.symm.trans here))] at total
    exact total
  · have total := take t
    rw [if_pos here] at total
    simp
    omega
  · have total := take t
    rw [if_pos here] at total
    simp
    omega
  · have member := mem_live.mp member
    subst member
    exact books.capped on ⟨.credit, t, 2 ^ order, c⟩ (by simp) some (by simp)

theorem books_give {f order : Nat} (books : Books P trees S (x + F))
    (own : x = live t (2 ^ order) c ∨ ¬ P.segregated ∧ x = 0)
    (inside : t < K.treesLen) (aligned : 2 ^ order ∣ f) (small : order ≤ 12) (here : f / 4096 = t)
    (taken : blockSet f order ∩ S = ∅) :
    Books P trees (S ∪ blockSet f order) (credit t (2 ^ order) c + F) := by
  have give := fun s => treeFree_give (t := s) aligned small taken
  have shape : (∀ k ∈ x, k.tree = t ∧ k.kind ≠ .owner) ∧ counted t x = 0 := by
    rcases own with rfl | ⟨-, rfl⟩ <;> simp
  refine books_frames books shape.1 (by simp) inside (fun s other => ?_) ?_ (fun on => ?_)
    fun on k member some => ?_
  · rw [give s, if_neg (fun same => other (same.symm.trans here)), Nat.add_zero]
  · rw [give t, if_pos here, shape.2, counted_credit, if_pos rfl]
    omega
  · obtain rfl := own.resolve_right fun none => none.1 on
    rw [give t, if_pos here, alive_credit, alive_live, if_pos rfl]
    omega
  · obtain rfl := own.resolve_right fun none => none.1 on
    have member := mem_credit.mp member
    subst member
    exact books.capped on ⟨.live, t, 2 ^ order, c⟩ (by simp) some (by simp)

end LLFree.Upper.Moves

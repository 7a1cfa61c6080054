/- module: LLFree/Upper/AtRest
   digest: The allocator whenever no call is in progress, however the calls before interleaved. -/

import LLFree.Upper.Midway
import LLFree.Upper.Pristine

set_option autoImplicit false
set_option relaxedAutoImplicit false

namespace LLFree.Upper.AtRest

open LLFree.Code.Types LLFree.Code.Entries LLFree.Code.Shared LLFree.Lower.Holding
open LLFree.Lower.FrameSet LLFree.Upper.Ledger LLFree.Upper.Slots LLFree.Upper.Steps
open LLFree.Upper.Sequential LLFree.Upper.Balance LLFree.Upper.Segregation LLFree.Upper.Frames
open LLFree.Upper.Pristine LLFree.Upper.Blocks LLFree.Upper.Overwritten LLFree.Upper.Lending
open LLFree.Upper.Layers LLFree.Upper.Concurrent LLFree.Upper.Lives LLFree.Upper.Midway

variable {K : Config} {W : Drift K} {P : Promise K} {ι : Type} [Fintype ι] [DecidableEq ι]
  {s : Llfree Lower} {h : ι → Client} {T : StackThreads ι} {base : Leftover K.frames}
  {U : LendingThreads ι}
  {d : ι → Held} {m : ι → Tickets} {n : ι → Loans}

/-! ## Counters -/

/-- What holds between the calls of a life that began with memory `s` and clients `h`. -/
structure Settled (K : Config) (s : Llfree Lower) (h : ι → Client) (T : StackThreads ι) : Prop where
  entries : EntriesMatch K.frames T.mem.lower
  accounted : Accounted K T.mem
  /-- No frame is lost, and none is free while it is held. -/
  free : freeSet T.mem.lower = circulating s h \ heldFrames T.data

private theorem forget_lives {fits : Fits K} {t : Llfree Lower} {x : Tickets}
    (lives : ∀ k ∈ x, k.kind = .live) (sound : Sound P (words fits) t x) :
    Sound P (words fits) t 0 := by
  induction x using Multiset.induction_on with
  | empty => exact sound
  | cons k x ih =>
    obtain ⟨kind, tree, amount, cls⟩ := k
    obtain rfl : kind = .live := lives _ (Multiset.mem_cons_self _ x)
    refine ih (fun k member => lives k (Multiset.mem_cons_of_mem member)) ?_
    rw [← Multiset.singleton_add] at sound
    exact forget_live sound (Or.inl rfl)

omit [DecidableEq ι] in
theorem sound_of_rest (fits : Fits K) (behind : Behind W P base T U d m n) (idle : AllIdle T) :
    Sound P (words fits) T.mem 0 := by
  refine forget_lives (fun k member => ?_) (rest_of_behind fits behind idle).2
  obtain ⟨i, -, own⟩ := Multiset.mem_sum.mp member
  exact lentTickets_live own

omit [DecidableEq ι] in
theorem free_of_rest (fits : Fits K) (rooted : Rooted P base s h)
    (behind : Behind W P base T U d m n) (idle : AllIdle T) :
    freeSet T.mem.lower = circulating s h \ heldFrames T.data := by
  have free : freeSet T.mem.lower = freeOf K.frames base.frames (allLoans T.data) :=
    free_eq_of_explained (rest_of_behind fits behind idle).1
  rw [free, circulating_eq rooted]
  ext g
  simp only [Set.mem_sdiff, mem_heldFrames, not_exists, not_and]
  exact ⟨fun ⟨below, clear, out⟩ => ⟨⟨below, clear⟩, out⟩,
    fun ⟨⟨below, clear⟩, out⟩ => ⟨below, clear, out⟩⟩

/-- Whenever all clients are idle, in any life and after any interleaving: entries match their
bitfields, all counters add up, the allocator passes its own validation, and the free frames are
those that circulate and are not held. -/
theorem rest_settled (numbered : Numbered K) (fits : Fits K) (life : Life W s h)
    (reach : StackReaches W s h T) (idle : AllIdle T) : Settled K s h T := by
  have support : Supported (numberedPromise numbered) := fun _ => numbered
  obtain ⟨base, rooted⟩ := lives_rooted fits support False.elim id life
  obtain ⟨U, d, m, n, -, behind⟩ :=
    stack_behind fits (lives_some life) support False.elim rooted reach
  have sound := sound_of_rest fits behind idle
  exact ⟨entriesMatch_of_consistent sound.good, accounted_of_sound sound trivial,
    free_of_rest fits rooted behind idle⟩

/-- One of two clients has allocated a frame. -/
theorem rest_settled_one : ∃ T : StackThreads (Fin 2), T.thread 0 = .ret ⟨[⟨0, 0, 0⟩], 0⟩ ∧
    Settled oneTree (initZeroed oneTree .free)
      (newcomers (Fin 2)) T := by
  obtain ⟨T, reach, zero, one, -⟩ := one_client oneTreeDrift
  exact ⟨T, zero, rest_settled ⟨by decide, by decide⟩ (by decide)
    (.first .free _ (Or.inl rfl) (initZeroed_initialised (by decide))) reach
    (Fin.forall_fin_two.mpr ⟨⟨_, zero⟩, ⟨_, one⟩⟩)⟩

/-! ## Classes -/

private theorem classes_of_behind (segregated : P.segregated) (behind : Behind W P base T U d m n)
    {i : ι} {b : Lent} (own : b ∈ (T.data i).lent) :
    effectiveClass K T.mem.upper (treeFromFrame b.frame) ≤ b.cls ∨
      (T.mem.upper.trees (treeFromFrame b.frame)).reserved = true ∧
        holders K T.mem.upper (treeFromFrame b.frame) = ∅ ∧
        ∃ j, ∃ k ∈ m j, k.kind = .owner := by
  have sound : Sound P (blocksModel K.frames base.frames) U.mem (∑ j, m j + 0) :=
    behind.booked.books.inv
  rw [add_zero] at sound
  have upper : T.mem.upper = U.mem.upper := behind.sim.rel.upper
  obtain ⟨-, -, z, tickets⟩ := behind_data behind i
  have mine : (⟨.live, b.frame / 4096, 2 ^ b.order, b.cls⟩ : Ticket) ∈
      slotTickets K U.mem.upper + ∑ j, m j := by
    refine Multiset.mem_add.mpr (Or.inr (Multiset.mem_sum.mpr ⟨i, Finset.mem_univ i, ?_⟩))
    rw [tickets, lentTickets_erase own]
    simp
  rw [upper, effectiveClass, Finset.fold_min_le]
  rcases sound.books.capped segregated _ mine (Nat.two_pow_pos b.order) (by simp) with
    entry | ⟨k, member, kind, tree, le⟩
  · exact Or.inl (Or.inl entry)
  · rcases Multiset.mem_add.mp member with slot | call
    · obtain ⟨p, inside, ticket⟩ := Multiset.mem_sum.mp slot
      by_cases present : (U.mem.upper.slots p.1 p.2).present = true
      · rw [slotTicket_present present, mem_owner] at ticket
        subst ticket
        exact Or.inl (Or.inr ⟨p, mem_holders.mpr ⟨mem_slotIds.mp inside, present, tree⟩, le⟩)
      · simp [slotTicket, present] at ticket
    · have one : 1 ≤ owners (b.frame / 4096) (∑ j, m j) := by
        have count :=
          le_tally (f := fun k => if k.tree = b.frame / 4096 ∧ k.kind = .owner then 1 else 0) call
        rwa [if_pos ⟨tree, kind⟩] at count
      have total : (holders K U.mem.upper (b.frame / 4096)).card + owners (b.frame / 4096)
          (∑ j, m j) = (U.mem.upper.trees (b.frame / 4096)).reserved.toNat :=
        tree_owners sound (sound.books.inside _ mine)
      have le_one := Bool.toNat_le (U.mem.upper.trees (b.frame / 4096)).reserved
      obtain ⟨j, -, here⟩ := Multiset.mem_sum.mp call
      refine Or.inr ⟨Bool.toNat_eq_one.mp ?_, Finset.card_eq_zero.mp ?_, j, k, here, kind⟩
      · change (U.mem.upper.trees (b.frame / 4096)).reserved.toNat = 1
        omega
      · change (holders K U.mem.upper (b.frame / 4096)).card = 0
        omega

/-- Under the classings of the library, at every moment of any interleaving: a block lies in a tree
whose effective class is at most the class the block was handed out for, unless a call in progress
holds the reservation of that tree. At rest no call does. -/
theorem classes_segregated {mode : InitMode} (standard : Standard K) (fits : Fits K)
    (fresh : FreshMode mode) (init : Initialised K mode s)
    (reach : StackReaches W s (newcomers ι) T) :
    (∀ i, ∀ b ∈ (T.data i).lent, effectiveClass K T.mem.upper (treeFromFrame b.frame) ≤ b.cls ∨
      (T.mem.upper.trees (treeFromFrame b.frame)).reserved = true ∧
        holders K T.mem.upper (treeFromFrame b.frame) = ∅) ∧
    (AllIdle T → ∀ i, ∀ b ∈ (T.data i).lent,
      effectiveClass K T.mem.upper (treeFromFrame b.frame) ≤ b.cls) := by
  obtain ⟨rebuilt, sound⟩ := sound_init (segregatedPromise standard) fits fresh init
  have support : Supported (segregatedPromise standard) := False.elim
  obtain ⟨U, d, m, n, -, behind⟩ := stack_behind fits (treesLen_pos rebuilt) support
    False.elim (rooted_rebuilt (segregatedPromise standard) fits rebuilt sound.good) reach
  refine ⟨fun i b own => ?_, fun idle i b own => ?_⟩
  · rcases classes_of_behind trivial behind own with low | ⟨reserved, free, -⟩
    · exact Or.inl low
    · exact Or.inr ⟨reserved, free⟩
  · rcases classes_of_behind trivial behind own with low | ⟨-, -, j, k, member, kind⟩
    · exact low
    · obtain ⟨g, quiet⟩ := idle j
      rw [(behind_idle behind quiet).2.2] at member
      rw [lentTickets_live member] at kind
      cases kind

/-- The frame is in a tree of the class that the client asked for. -/
theorem classes_segregated_one : ∃ T : StackThreads (Fin 2), T.thread 0 = .ret ⟨[⟨0, 0, 0⟩], 0⟩ ∧
    effectiveClass oneTree T.mem.upper 0 ≤ 0 := by
  obtain ⟨T, reach, zero, one, -⟩ := one_client oneTreeDrift
  refine ⟨T, zero, ?_⟩
  refine (classes_segregated ⟨1, le_refl 1, Or.inl rfl⟩ (by decide) (Or.inl rfl)
    (initZeroed_initialised (by decide)) reach).2 (Fin.forall_fin_two.mpr ⟨⟨_, zero⟩, ⟨_, one⟩⟩)
    0 ⟨0, 0, 0⟩ ?_
  rw [data_idle zero]
  exact List.mem_cons_self

/-! ## Everything freed -/

/-- When all clients are idle and hold nothing, a drain leaves the allocator as it was after
initialisation, however their calls interleaved. -/
theorem freed_pristine_midway (standard : Standard K) (fits : Fits K) (whole : treeSize ∣ K.frames)
    (init : Initialised K .free s) (reach : StackReaches (exact K) s (newcomers ι) T)
    (idle : ∀ i, T.thread i = .ret ⟨[], 0⟩) :
    ∃ t, Call.drain.run K T.mem = some (none, t) ∧ SameState K s t := by
  obtain ⟨rebuilt, start⟩ := sound_init (pristinePromise standard) fits (Or.inl rfl) init
  have rooted : Rooted (pristinePromise standard) (.ofConsistent start.good) s (newcomers ι) :=
    rooted_rebuilt _ fits rebuilt start.good
  have support : Supported (pristinePromise standard) := False.elim
  obtain ⟨U, d, m, n, -, behind⟩ := stack_behind fits (treesLen_pos rebuilt) support
    (fun _ => exact_exact K) rooted reach
  have quiet : AllIdle T := fun i => ⟨_, idle i⟩
  obtain ⟨t, drained, sound⟩ := run_drain (sound_of_rest fits behind quiet)
  have none : ∀ (h : ι → Client), (∀ i, (h i).lent = []) → heldFrames h = ∅ := by
    refine fun h nothing => Set.eq_empty_of_forall_notMem ?_
    rintro g ⟨i, b, own, -⟩
    rw [nothing i] at own
    cases own
  have same : freeSet t.lower = freeSet s.lower := by
    rw [drain_lower drained, free_of_rest fits rooted behind quiet, circulating,
      none _ fun _ => rfl, none _ fun i => by rw [data_idle (idle i)], Set.union_empty,
      Set.sdiff_empty]
  obtain ⟨buffers, init⟩ := init
  obtain ⟨-, lower⟩ := init_rebuilt init (by simp)
  have all : freeSet s.lower = {g | g < K.frames} := by
    rw [← (Prod.mk.inj lower).2]
    exact init_free buffers.lower K.frames
  exact ⟨t, drained, same_of_free trivial whole start sound rebuilt.slots (drain_slots drained)
    (fun g less => all.ge less) fun g less => same.ge (all.ge less)⟩

/-- The frame is freed again. -/
theorem freed_pristine_midway_one : ∃ (T : StackThreads (Fin 2)) (t : Llfree Lower),
    Call.drain.run oneTree T.mem = some (none, t) ∧
      SameState oneTree (initZeroed oneTree .free) t := by
  obtain ⟨T, reach, zero, one, mem⟩ := one_client (exact oneTree)
  obtain ⟨U, more, -, thread, -⟩ := Solo.solo_put (W := exact oneTree) (T := T)
    ⟨0, 0, 0⟩ ⟨0, 0, some 0⟩ (by decide) zero List.mem_cons_self rfl
    (by rw [mem]; decide +kernel) (Call.run_after (r := some (llfreeOk 0 0)) (by
      rw [mem]
      decide +kernel))
  obtain ⟨t, drained, same⟩ := freed_pristine_midway ⟨1, le_refl 1, Or.inl rfl⟩ (by decide) ⟨1, rfl⟩
    (initZeroed_initialised (by decide)) (reach.trans more)
      (Fin.forall_fin_two.mpr ⟨by rw [thread]; rfl, by
      rw [thread, Function.update_of_ne (by decide)]
      exact one⟩)
  exact ⟨U, t, drained, same⟩

end LLFree.Upper.AtRest

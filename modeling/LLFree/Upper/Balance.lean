/- module: LLFree/Upper/Balance
   digest: After any sequence of complete calls the counters add up and every reserved tree
   has one slot. -/

import LLFree.Lower.Statistics
import LLFree.Upper.Sequential

set_option autoImplicit false
set_option relaxedAutoImplicit false

namespace LLFree.Upper.Balance

open LLFree.Code.Types LLFree.Code.Entries LLFree.Code.Lower LLFree.Code.Local LLFree.Code.Shared
open LLFree.Code.Llfree LLFree.Code.Setup LLFree.Lower.FreeCount LLFree.Lower.Statistics
open LLFree.Upper.Ledger LLFree.Upper.Slots LLFree.Upper.Steps LLFree.Upper.Calls
open LLFree.Upper.Sequential

/-! ## What holds between calls -/

/-- Counters and reservations of an allocator with no call in progress. -/
structure Accounted (K : Config) (s : Llfree Lower) : Prop where
  /-- The counter of a tree and those of its slots add up to the counters of its children. -/
  balance : ∀ t < K.treesLen, (s.upper.trees t).free +
    ∑ p ∈ holders K s.upper t, (s.upper.slots p.1 p.2).free = groupFree s.lower (t * treeChildren)
  /-- A reserved tree has one slot, any other tree has none. -/
  owned : ∀ t < K.treesLen, (holders K s.upper t).card = if (s.upper.trees t).reserved then 1 else 0
  rows : ∀ c i, K.HasSlot c i → (s.upper.slots c i).present = true →
    treeFromRow (s.upper.slots c i).startRow < K.treesLen ∧
      frameFromRow (s.upper.slots c i).startRow < K.frames
  classes : ∀ t < K.treesLen, (s.upper.trees t).cls < K.numClasses
  validate : llfreeValidate K s = true

variable {K : Config} {fits : Fits K} {s : Llfree Lower} {t : Nat}

/-! ## Tickets of the slots, slot by slot -/

private theorem counted_slot (c : Nat) (r : Reserved) : counted t (slotTicket c r) =
    if r.present = true ∧ treeFromRow r.startRow = t then r.free else 0 := by
  cases present : r.present <;> simp [slotTicket, present]

private theorem owners_slot (c : Nat) (r : Reserved) : owners t (slotTicket c r) =
    if r.present = true ∧ treeFromRow r.startRow = t then 1 else 0 := by
  cases present : r.present <;> simp [slotTicket, present]

theorem counted_slots (u : Upper) :
    counted t (slotTickets K u) = ∑ p ∈ holders K u t, (u.slots p.1 p.2).free := by
  rw [slotTickets, counted_sum, holders, Finset.sum_filter]
  exact Finset.sum_congr rfl fun p _ => counted_slot p.1 _

theorem owners_slots (u : Upper) : owners t (slotTickets K u) = (holders K u t).card := by
  rw [slotTickets, owners_sum, holders, Finset.card_filter]
  exact Finset.sum_congr rfl fun p _ => owners_slot p.1 _

private theorem nodup_allSlots : (allSlots K).Nodup := by
  refine List.nodup_flatMap.mpr ⟨fun c _ => ?_, ?_⟩
  · exact List.Nodup.map (fun i j same => (Prod.mk.inj same).2) List.nodup_range
  · refine List.Pairwise.imp ?_ List.nodup_range
    intro c d other p one two
    obtain ⟨i, -, rfl⟩ := List.mem_map.mp one
    obtain ⟨j, -, same⟩ := List.mem_map.mp two
    exact other (Prod.mk.inj same).1.symm

/-! ## From the books to the counters -/

theorem tree_frames {L : Type} {low : LowerModel L K.frames} {P : Promise K} {u : Llfree L}
    {E : Tickets} (sound : Sound P low u E) (inside : t < K.treesLen) :
    (u.upper.trees t).free + ∑ p ∈ holders K u.upper t, (u.upper.slots p.1 p.2).free + counted t E =
      treeFree (low.free u.lower) t := by
  have balance := sound.books.balance t inside
  rw [counted_add, counted_slots] at balance
  rw [add_assoc, balance]

theorem tree_owners {L : Type} {low : LowerModel L K.frames} {P : Promise K} {u : Llfree L}
    {E : Tickets} (sound : Sound P low u E) (inside : t < K.treesLen) :
    (holders K u.upper t).card + owners t E = (u.upper.trees t).reserved.toNat := by
  have owned := sound.books.owned t inside
  rwa [owners_add, owners_slots] at owned

theorem counters {P : Promise K} (sound : Sound P (words fits) s 0) (inside : t < K.treesLen) :
    (s.upper.trees t).free + ∑ p ∈ holders K s.upper t, (s.upper.slots p.1 p.2).free =
      groupFree s.lower (t * 8) :=
  (tree_frames sound inside).trans (groupFree_eq sound.good inside).symm

theorem holders_card {P : Promise K} (sound : Sound P (words fits) s 0)
    (inside : t < K.treesLen) :
    (holders K s.upper t).card = if (s.upper.trees t).reserved then 1 else 0 := by
  have owned : (holders K s.upper t).card = _ := tree_owners sound inside
  rw [owned]
  cases (s.upper.trees t).reserved <;> rfl

theorem idle_holders {P : Promise K} (sound : Sound P (words fits) s 0) (inside : t < K.treesLen)
    (idle : (s.upper.trees t).reserved = false) : holders K s.upper t = ∅ := by
  have card := holders_card sound inside
  rw [idle] at card
  exact Finset.card_eq_zero.mp card

theorem idle_counter {P : Promise K} (sound : Sound P (words fits) s 0) (inside : t < K.treesLen)
    (idle : (s.upper.trees t).reserved = false) :
    (s.upper.trees t).free = groupFree s.lower (t * 8) := by
  have total := counters sound inside
  rwa [idle_holders sound inside idle, Finset.sum_empty, add_zero] at total

/-! ## Validation -/

private theorem present_sum (u : Upper)
    (tree : ∀ c i, K.HasSlot c i → (u.slots c i).present = true →
      treeFromRow (u.slots c i).startRow < K.treesLen) :
    (llLocalStats K u).freeFrames =
      ∑ t ∈ Finset.range K.treesLen, ∑ p ∈ holders K u t, (u.slots p.1 p.2).free := by
  have list := List.sum_toFinset (fun p : Nat × Nat => (u.slots p.1 p.2).free)
    ((nodup_allSlots (K := K)).filter fun p : Nat × Nat => (u.slots p.1 p.2).present)
  rw [List.toFinset_filter] at list
  have fibers := Finset.sum_fiberwise_of_maps_to (t := Finset.range K.treesLen)
    (s := (slotIds K).filter fun p => (u.slots p.1 p.2).present = true)
    (g := fun p => treeFromRow (u.slots p.1 p.2).startRow) (fun p member => by
      obtain ⟨has, present⟩ := Finset.mem_filter.mp member
      exact Finset.mem_range.mpr (tree _ _ (mem_slotIds.mp has) present))
    fun p => (u.slots p.1 p.2).free
  calc (llLocalStats K u).freeFrames = _ := list.symm
    _ = _ := fibers.symm
    _ = _ := by simp only [holders, Finset.filter_filter]

private theorem sum_frames {P : Promise K} (sound : Sound P (words fits) s 0) :
    (lowerStats s.lower).freeFrames = (llfreeTreeStats K s.upper).freeFrames := by
  have slots := present_sum s.upper fun c i has => (sound.slots c i has).tree
  simp only [llfreeTreeStats, slots, treesStats, range_sum]
  rw [stats_groups sound.good, add_comm, ← Finset.sum_add_distrib]
  exact Finset.sum_congr rfl fun t member => (counters sound (Finset.mem_range.mp member)).symm

private theorem free_le {P : Promise K} (sound : Sound P (words fits) s 0)
    (inside : t < K.treesLen) :
    groupFree s.lower (t * 8) ≤ treeSize := by
  rw [groupFree_eq sound.good inside]
  exact treeFree_le _ t

private theorem validateEntry_true {P : Promise K} (sound : Sound P (words fits) s 0)
    (configured : P.configured) (inside : t < K.treesLen) : validateEntry K s t = true := by
  have total := counters sound inside
  have le := free_le sound inside
  have cls := (sound.books.known configured).1 t inside
  have stats := stats_tree_free sound.good (frameFromTree_lt inside) (frameFromTree_tree t)
  have bound : (s.upper.trees t).free ≤ treeSize := by omega
  simp only [validateEntry, stats, Bool.and_eq_true, Bool.or_eq_true, decide_eq_true_eq, beq_iff_eq]
  refine ⟨⟨bound, cls⟩, ?_⟩
  cases reserved : (s.upper.trees t).reserved with
  | true => exact Or.inl rfl
  | false => exact Or.inr (idle_counter sound inside reserved).symm

private theorem validateTree_true {P : Promise K} (sound : Sound P (words fits) s 0)
    (configured : P.configured) {c i : Nat} (has : K.HasSlot c i)
    (present : (s.upper.slots c i).present = true) :
    validateTree K s (s.upper.slots c i) = true := by
  have ok := sound.slots c i has
  have inside := ok.tree present
  have member : (c, i) ∈ holders K s.upper (treeFromRow (s.upper.slots c i).startRow) :=
    mem_holders.mpr ⟨has, present, rfl⟩
  have total := counters sound inside
  have card := holders_card sound inside
  have le := free_le sound inside
  have cls := (sound.books.known configured).1 _ inside
  have stats := stats_tree_free (t := treeFromRow (s.upper.slots c i).startRow) sound.good
    (ok.frame present) rfl
  have pos := Finset.card_pos.mpr ⟨_, member⟩
  have reserved : (s.upper.trees (treeFromRow (s.upper.slots c i).startRow)).reserved = true := by
    by_contra idle
    rw [if_neg idle] at card
    omega
  rw [if_pos reserved] at card
  obtain ⟨p, alone⟩ := Finset.card_eq_one.mp card
  rw [alone, Finset.mem_singleton] at member
  rw [alone, ← member, Finset.sum_singleton] at total
  dsimp only at total
  have bound : (s.upper.trees (treeFromRow (s.upper.slots c i).startRow)).free +
      (s.upper.slots c i).free ≤ treeSize := by omega
  simp only [validateTree, stats, Bool.and_eq_true, decide_eq_true_eq, beq_iff_eq]
  exact ⟨⟨⟨⟨inside, reserved⟩, cls⟩, bound⟩, total⟩

theorem accounted_of_sound {P : Promise K} (sound : Sound P (words fits) s 0)
    (configured : P.configured) : Accounted K s := by
  refine ⟨fun t inside => counters sound inside, fun t inside => holders_card sound inside,
    fun c i has present =>
      ⟨(sound.slots c i has).tree present, (sound.slots c i has).frame present⟩,
    (sound.books.known configured).1, ?_⟩
  simp only [llfreeValidate, Bool.and_eq_true, beq_iff_eq, List.all_eq_true, List.mem_range]
  refine ⟨⟨sum_frames sound, fun t inside => validateEntry_true sound configured inside⟩, ?_⟩
  rintro ⟨c, i⟩ member
  have has := mem_allSlots.mp member
  simp only [Bool.or_eq_true, Bool.not_eq_true', decide_eq_true_eq]
  cases present : (s.upper.slots c i).present with
  | false =>
    have empty := sound.slots c i has
    rw [SlotOk, present, if_neg (by simp)] at empty
    rw [empty]
    exact ⟨Nat.zero_le _, Or.inl rfl⟩
  | true =>
    have valid := validateTree_true sound configured has present
    refine ⟨?_, Or.inr valid⟩
    simp only [validateTree, Bool.and_eq_true, decide_eq_true_eq] at valid
    have bound := valid.1.2
    omega

theorem Accounted.slot (accounted : Accounted K s) {c i : Nat} (has : K.HasSlot c i)
    (present : (s.upper.slots c i).present = true) :
    (s.upper.trees (treeFromRow (s.upper.slots c i).startRow)).reserved = true ∧
      (s.upper.slots c i).free +
        (s.upper.trees (treeFromRow (s.upper.slots c i).startRow)).free ≤ treeSize := by
  have valid := accounted.validate
  simp only [llfreeValidate, Bool.and_eq_true, List.all_eq_true] at valid
  have slot := valid.2 (c, i) (mem_allSlots.mpr has)
  simp only [Bool.and_eq_true, Bool.or_eq_true, Bool.not_eq_true', present, reduceCtorEq, false_or,
    validateTree, decide_eq_true_eq] at slot
  obtain ⟨-, ⟨⟨⟨-, reserved⟩, -⟩, room⟩, -⟩ := slot
  rw [add_comm] at room
  exact ⟨reserved, room⟩

/-! ## Runs -/

def numberedPromise (numbered : Numbered K) : Promise K where
  configured := True
  segregated := False
  pristine := False
  default_known _ := numbered.default
  by_class := unordered
  never_invalid := unmatched

/-- Calls of row orders or of a huge frame, on any frame, and changes of the class of a tree to a
configured one or none. A change gives up after any positive number of turns. -/
inductive AnyCall (K : Config) : Call → Prop
  | get (frame : Option Nat) (request : Request) (row : RowOrHuge request.order) :
      AnyCall K (.get frame request)
  | put (frame : Nat) (request : Request) (row : RowOrHuge request.order) :
      AnyCall K (.put frame request)
  | drain : AnyCall K .drain
  | changeTree (turns : Nat) (matcher : TreeMatch) (change : TreeChange)
      (operation : change.operation = .none)
      (known : change.cls ≠ classNone → change.cls < K.numClasses) :
      AnyCall K (.changeTree (turns + 1) matcher change)

def Anytime (allowed : Call → Prop) : Unit → Llfree Lower → Call → Option Result → Unit → Prop :=
  fun _ _ c _ _ => allowed c

private theorem call_sound (numbered : Numbered K) (some : 0 < K.treesLen) {c : Call}
    (allowed : AnyCall K c) (sound : Sound (numberedPromise numbered) (words fits) s 0) :
    ∃ r s', c.run K s = Option.some (r, s') ∧
      Sound (numberedPromise numbered) (words fits) s' 0 := by
  have support : Supported (numberedPromise numbered) := fun _ => numbered
  cases allowed with
  | get frame request row =>
    exact plain_total support some not_false sound ⟨row, by simp⟩
  | put frame request row =>
    exact plain_total support some not_false sound ⟨row, by simp⟩
  | drain => exact plain_total support some not_false sound ⟨trivial, by simp⟩
  | changeTree turns matcher change operation known =>
    obtain ⟨r, s', run, sound'⟩ := run_changeTree turns matcher some
      ⟨not_false, not_false, operation, fun _ => known⟩ sound
    exact ⟨r, s', run, sound'⟩

theorem sound_reached {mode : InitMode} {s' : Llfree Lower} (numbered : Numbered K) (fits : Fits K)
    (fresh : FreshMode mode) (init : Initialised K mode s)
    (run : History K (Anytime (AnyCall K)) () s () s') :
    0 < K.treesLen ∧ Sound (numberedPromise numbered) (words fits) s' 0 := by
  obtain ⟨rebuilt, start⟩ := sound_init (numberedPromise numbered) fits fresh init
  have some := treesLen_pos rebuilt
  refine ⟨some,
    run.keeps (I := fun _ t => Sound (numberedPromise numbered) (words fits) t 0) start ?_⟩
  intro _ c r _ t t' sound allowed done
  obtain ⟨r', t'', done', sound'⟩ := call_sound numbered some allowed sound
  rw [done] at done'
  obtain ⟨-, rfl⟩ := Prod.mk.inj (Option.some.inj done')
  exact sound'

/-- After any sequence of complete calls the counters and reservations are in order, and the
next call completes: none of its assertions fails. -/
theorem calls_accounted {mode : InitMode} {s' : Llfree Lower} (numbered : Numbered K)
    (fits : Fits K) (fresh : FreshMode mode) (init : Initialised K mode s)
    (run : History K (Anytime (AnyCall K)) () s () s') :
    Accounted K s' ∧ ∀ c, AnyCall K c → ∃ r s'', c.run K s' = some (r, s'') ∧ Accounted K s'' := by
  obtain ⟨some, sound⟩ := sound_reached numbered fits fresh init run
  refine ⟨accounted_of_sound sound trivial, fun c allowed => ?_⟩
  obtain ⟨r, s'', done, sound'⟩ := call_sound numbered some allowed sound
  exact ⟨r, s'', done, accounted_of_sound sound' trivial⟩

/-- One tree for two classes, one slot each: after an allocation. -/
theorem calls_accounted_tree :
    Accounted ⟨4096, llfreeClassingSimple 1⟩ ((Call.get none ⟨0, 0, some 0⟩).after
      ⟨4096, llfreeClassingSimple 1⟩ (initZeroed ⟨4096, llfreeClassingSimple 1⟩ .free)) :=
  (calls_accounted ⟨by decide, by decide⟩ (by decide) (Or.inl rfl)
    (initZeroed_initialised (by decide))
    (.call (.get none ⟨0, 0, some 0⟩) (.start _ _) (Call.run_after (r := some (llfreeOk 0 0))
      (by decide +kernel)) (.get none ⟨0, 0, some 0⟩ (by decide)))).1

end LLFree.Upper.Balance

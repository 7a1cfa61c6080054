/- module: LLFree/Upper/Midway
   digest: Counters, reservations and free frames while calls are in progress, and at rest. -/

import LLFree.Upper.Lives

set_option autoImplicit false
set_option relaxedAutoImplicit false

namespace LLFree.Upper.Midway

open LLFree.Atomic.Pool LLFree.Atomic.Refinement LLFree.Code.Types LLFree.Code.Entries
open LLFree.Code.Shared LLFree.Code.Stack LLFree.Lower.Holding LLFree.Lower.GetPut
open LLFree.Lower.FrameSet LLFree.Lower.FreeCount LLFree.Upper.Ledger LLFree.Upper.Slots
open LLFree.Upper.Steps LLFree.Upper.Sequential LLFree.Upper.Balance LLFree.Upper.Conservation
open LLFree.Upper.Segregation LLFree.Upper.Blocks LLFree.Upper.Overwritten LLFree.Upper.Lending
open LLFree.Upper.Layers LLFree.Upper.Concurrent LLFree.Upper.Lives

variable {K : Config} {W : Drift K} {P : Promise K} {ι : Type} {s : Llfree Lower} {h : ι → Client}
  {T : StackThreads ι} {base : Leftover K.frames}

/-! ## Frames in circulation -/

def heldFrames (h : ι → Client) : Set Nat :=
  {g | ∃ i, ∃ b ∈ (h i).lent, Within b.frame b.order g}

/-- The frames that are free or held at the beginning of a life. -/
def circulating (s : Llfree Lower) (h : ι → Client) : Set Nat := freeSet s.lower ∪ heldFrames h

variable [Fintype ι]

theorem mem_heldFrames {g : Nat} :
    g ∈ heldFrames h ↔ ∃ b ∈ allLoans h, Within b.1 b.2 g := by
  constructor
  · rintro ⟨i, b, own, within⟩
    exact ⟨_, Multiset.mem_sum.mpr ⟨i, Finset.mem_univ i, mem_loansOf own⟩, within⟩
  · rintro ⟨b, out, within⟩
    obtain ⟨i, -, own⟩ := Multiset.mem_sum.mp out
    obtain ⟨c, mine, rfl⟩ := List.mem_map.mp (Multiset.mem_coe.mp own)
    exact ⟨i, c, mine, within⟩

theorem circulating_eq (rooted : Rooted P base s h) :
    circulating s h = {g | g < K.frames ∧ g ∉ base.frames} := by
  have free : freeSet s.lower = freeOf K.frames base.frames (allLoans h) :=
    free_eq_of_explained rooted.explained
  have separate : Separate K.frames base.frames (allLoans h) := rooted.explained.separate
  ext g
  rw [circulating, Set.mem_union, free, mem_heldFrames]
  constructor
  · rintro (⟨below, clear, -⟩ | ⟨b, own, within⟩)
    · exact ⟨below, clear⟩
    · exact ⟨within.2.trans_le (separate.valid b own).1, separate.clear b own g within⟩
  · rintro ⟨below, clear⟩
    by_cases held : ∃ b ∈ allLoans h, Within b.1 b.2 g
    · exact Or.inr held
    · exact Or.inl ⟨below, clear, fun b own within => held ⟨b, own, within⟩⟩

/-! ## While calls are in progress -/

/-- What holds at every moment of a life that began with memory `s` and clients `h`. -/
structure InOrder (K : Config) (s : Llfree Lower) (h : ι → Client) (T : StackThreads ι) :
    Prop where
  /-- The counters of a tree and its slot promise no frame twice, and none that is held. -/
  counters : ∀ t < K.treesLen, (T.mem.upper.trees t).free +
    ∑ p ∈ holders K T.mem.upper t, (T.mem.upper.slots p.1 p.2).free ≤
      treeFree (circulating s h \ heldFrames T.data) t
  /-- No slot holds a tree that is not marked reserved, and no two slots hold the same tree. -/
  owners : ∀ t < K.treesLen,
    (holders K T.mem.upper t).card ≤ (T.mem.upper.trees t).reserved.toNat
  rows : ∀ c i, K.HasSlot c i → (T.mem.upper.slots c i).present = true →
    treeFromRow (T.mem.upper.slots c i).startRow < K.treesLen ∧
      frameFromRow (T.mem.upper.slots c i).startRow < K.frames
  /-- What the words mark as free was free or held at the beginning, and nobody holds it. -/
  free : freeSet T.mem.lower ⊆ circulating s h \ heldFrames T.data
  held : heldFrames T.data ⊆ circulating s h

variable [DecidableEq ι] {U : LendingThreads ι} {d : ι → Held} {m : ι → Tickets} {n : ι → Loans}

theorem held_out (behind : Behind W P base T U d m n) {g : Nat} (held : g ∈ heldFrames T.data) :
    ∃ b ∈ U.mem.lower, Within b.1 b.2 g := by
  obtain ⟨i, b, mine, within⟩ := held
  obtain ⟨-, ⟨y, own⟩, -⟩ := behind_data behind i
  refine ⟨(b.frame, b.order), ?_, within⟩
  rw [(behind_loans behind).1]
  refine Multiset.mem_sum.mpr ⟨i, Finset.mem_univ i, ?_⟩
  rw [own]
  exact Multiset.mem_add.mpr (Or.inr (mem_loansOf mine))

theorem free_circulates (rooted : Rooted P base s h) (behind : Behind W P base T U d m n) :
    freeOf K.frames base.frames U.mem.lower ⊆ circulating s h \ heldFrames T.data := by
  rintro g ⟨below, clear, out⟩
  refine ⟨?_, fun held => ?_⟩
  · rw [circulating_eq rooted]
    exact ⟨below, clear⟩
  · obtain ⟨b, own, within⟩ := held_out behind held
    exact out b own within

theorem midway_of_behind (rooted : Rooted P base s h) (behind : Behind W P base T U d m n) :
    InOrder K s h T := by
  have sound : Sound P (blocksModel K.frames base.frames) U.mem (∑ i, m i + 0) :=
    behind.booked.books.inv
  have upper : T.mem.upper = U.mem.upper := behind.sim.rel.upper
  obtain ⟨same, separate⟩ := behind_loans behind
  have inside := free_circulates rooted behind
  refine ⟨fun t less => ?_, fun t less => ?_, fun c i has present => ?_, ?_, fun g held => ?_⟩
  · have total : _ + _ = treeFree (freeOf K.frames base.frames U.mem.lower) t :=
      tree_frames sound less
    rw [upper]
    exact (Nat.le_of_add_right_le total.le).trans (treeFree_mono inside t)
  · have total := tree_owners sound less
    rw [upper]
    exact Nat.le_of_add_right_le total.le
  · have ok := sound.slots c i has
    rw [upper] at present ⊢
    exact ⟨ok.tree present, ok.frame present⟩
  · exact (free_of_explained behind.sim.rel).trans inside
  · obtain ⟨b, own, within⟩ := held_out behind held
    rw [same] at own
    rw [circulating_eq rooted]
    exact ⟨within.2.trans_le (separate.valid b own).1, separate.clear b own g within⟩

/-- The counters never promise a frame that is held, and each reserved tree has at most one
slot, at every access of every interleaving in every life. -/
theorem counters_midway (fits : Fits K) (life : Life W s h) (reach : StackReaches W s h T) :
    InOrder K s h T := by
  have support : Supported (plainPromise K) := False.elim
  obtain ⟨base, rooted⟩ := lives_rooted fits support False.elim id life
  obtain ⟨U, d, m, n, -, behind⟩ :=
    stack_behind fits (lives_some life) support False.elim rooted reach
  exact midway_of_behind rooted behind

/-- One client holds a frame. The other one has lowered the counters for the next frame, whose bit
it has not set. -/
theorem counters_midway_taken : (midway (0 : Fin 2) 1).thread 0 = .ret ⟨[⟨0, 0, 0⟩], 0⟩ ∧
    (∀ g, (midway (0 : Fin 2) 1).thread 1 ≠ .ret g) ∧
    ((midway (0 : Fin 2) 1).mem.upper.trees 0).free = 4094 ∧
    ((midway (0 : Fin 2) 1).mem.lower.children 0).free = 510 ∧
      bitSet (midway (0 : Fin 2) 1).mem.lower 1 = false ∧
    InOrder oneTree (initZeroed oneTree .free) (newcomers (Fin 2)) (midway 0 1) :=
  ⟨rfl, fun _ idle => (by cases idle), by decide +kernel, by decide +kernel, by decide +kernel,
    counters_midway (by decide) (.first .free _ (Or.inl rfl) (initZeroed_initialised (by decide)))
      (midway_reached oneTreeDrift)⟩

/-! ## At rest -/

def AllIdle {Op : Type} {Res : Op → Type} {S D H : Type} (T : Threads Op Res S D H ι) : Prop :=
  ∀ i, ∃ g, T.thread i = .ret g

omit [Fintype ι] [DecidableEq ι] in
theorem data_idle {i : ι} {g : Client} (idle : T.thread i = .ret g) : T.data i = g := by
  rw [Threads.data, idle]

omit [DecidableEq ι] in
theorem rest_of_behind (fits : Fits K) (behind : Behind W P base T U d m n) (idle : AllIdle T) :
    Explained K base T.mem ⟨allLoans T.data, T.mem.upper⟩ 0 ∧
      Sound P (words fits) T.mem (∑ i, lentTickets (T.data i).lent) := by
  have exact : ∀ i, d i = 0 ∧ n i = loansOf (T.data i).lent ∧
      m i = lentTickets (T.data i).lent := by
    intro i
    obtain ⟨g, quiet⟩ := idle i
    rw [data_idle quiet]
    exact behind_idle behind quiet
  have rel : Explained K base T.mem U.mem (∑ i, d i) := behind.sim.rel
  rw [Finset.sum_eq_zero fun i _ => (exact i).1] at rel
  have loans : U.mem.lower = allLoans T.data := by
    rw [(behind_loans behind).1]
    exact Finset.sum_congr rfl fun i _ => (exact i).2.1
  have sound : Sound P (blocksModel K.frames base.frames) U.mem (∑ i, m i + 0) :=
    behind.booked.books.inv
  rw [add_zero, Finset.sum_congr rfl fun i _ => (exact i).2.2] at sound
  refine ⟨⟨rfl, ?_, ?_⟩, sound_transfer sound (consistent_of_explained rel) rel.upper
    (free_eq_of_explained rel)⟩
  · rw [← loans]
    exact rel.backed
  · rw [← loans]
    exact rel.separate

end LLFree.Upper.Midway

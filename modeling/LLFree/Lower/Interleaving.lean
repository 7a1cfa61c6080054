/- module: LLFree/Lower/Interleaving
   digest: Any number of threads allocate and free on the lower allocator at the same time. -/

import LLFree.Atomic.Pool
import LLFree.Lower.FrameSet
import Mathlib.Algebra.BigOperators.Pi

set_option autoImplicit false
set_option relaxedAutoImplicit false

namespace LLFree.Lower.Interleaving

open LLFree.Atomic.Escrow LLFree.Atomic.Pool LLFree.Code.Types LLFree.Code.Entries
open LLFree.Code.Lower LLFree.Lower.Holding LLFree.Lower.Holding.Held LLFree.Lower.Steps
open LLFree.Lower.GetPut LLFree.Lower.Quiet LLFree.Lower.FrameSet

/-- A thread's own record: the blocks it obtained and holds, and how many of its puts did not
return success. -/
structure Owner where
  blocks : List (Nat × Nat)
  refused : Nat

namespace Owner

def received (self : Owner) (r : Result) (order : Nat) : Owner :=
  if r.error = .ok then { self with blocks := (r.frame, order) :: self.blocks } else self

def without (self : Owner) (b : Nat × Nat) : Owner :=
  { self with blocks := self.blocks.erase b }

def released (self : Owner) (r : Result) : Owner :=
  if r.error = .ok then self else { self with refused := self.refused + 1 }

end Owner

/-- The calls of a thread: an untargeted get, or a put of a block it holds with the order of
its get. -/
inductive ThreadCall (N : Nat) : Owner → Owner → LoProg Owner → Prop
  | get (h : Owner) (start order : Nat) (inside : start < N) (small : order ≤ hugeOrder) :
      ThreadCall N h h (lowerGet N start order none >>= fun r => .ret (h.received r order))
  | put (h : Owner) (f order : Nat) (own : (f, order) ∈ h.blocks) :
      ThreadCall N h (h.without (f, order))
        (lowerPut N f order >>= fun r => .ret ((h.without (f, order)).released r))

variable {ι : Type} [Fintype ι] [DecidableEq ι]

abbrev LowerThreads (ι : Type) := Threads LoOp LoOp.Res Lower (Nat → Int) Owner ι

/-- The pools that some interleaving reaches from an allocator of `N` free frames, with idle
threads that hold nothing. -/
def LowerReaches (N : Nat) (buffers : Lower) (P : LowerThreads ι) : Prop :=
  Reaches (Sys.ofExec LoOp.exec) lagDelta (ThreadCall N)
    (Threads.idle (lowerInit buffers N .free).2 fun _ => ⟨[], 0⟩) P

/-! ## The resources of a thread -/

def blocksHeld (blocks : List (Nat × Nat)) : Held := (blocks.map fun b => block b.1 b.2).sum

def InTrees (N : Nat) (b : Nat × Nat) : Prop :=
  2 ^ b.2 ∣ b.1 ∧ b.2 ≤ 9 ∧ b.1 / 4096 < divCeil N 4096

def Sound (N : Nat) (h : Owner) : Prop := h.refused = 0 ∧ ∀ b ∈ h.blocks, InTrees N b

def ownerBacking (N : Nat) : Backing Owner Held where
  held h m := Sound N h ∧ m = blocksHeld h.blocks
  keeps h m := Sound N h ∧ ∃ y, m = blocksHeld h.blocks + y

variable {N : Nat} {l : Lower}

theorem blocksHeld_cons (b : Nat × Nat) (blocks : List (Nat × Nat)) :
    blocksHeld (b :: blocks) = block b.1 b.2 + blocksHeld blocks := by
  simp [blocksHeld]

theorem blocksHeld_erase {b : Nat × Nat} {blocks : List (Nat × Nat)} (member : b ∈ blocks) :
    blocksHeld blocks = blocksHeld (blocks.erase b) + block b.1 b.2 := by
  have perm := List.perm_cons_erase member
  have same : blocksHeld blocks = blocksHeld (b :: blocks.erase b) := (perm.map _).sum_eq
  rw [same, blocksHeld_cons, add_comm]

private theorem lag_block {b : Nat × Nat} (small : b.2 ≤ 9) : lag (block b.1 b.2) = 0 := by
  by_cases huge : b.2 = 9
  · rw [huge, block_huge]
    simp
  · rw [block_small (by omega)]
    simp

private theorem lag_blocksHeld {blocks : List (Nat × Nat)} (small : ∀ b ∈ blocks, b.2 ≤ 9) :
    lag (blocksHeld blocks) = 0 := by
  induction blocks with
  | nil => simp [blocksHeld]
  | cons b blocks ih =>
    rw [blocksHeld_cons, map_add, lag_block (small b List.mem_cons_self),
      ih fun x member => small x (List.mem_cons_of_mem b member), add_zero]

theorem covers_blocksHeld {blocks : List (Nat × Nat)} {b : Nat × Nat} {g : Nat}
    (member : b ∈ blocks)
    (aligned : 2 ^ b.2 ∣ b.1) (within : Within b.1 b.2 g) : Covers (blocksHeld blocks) g := by
  rw [blocksHeld_erase member]
  exact covers_add.mpr (Or.inr ((covers_block aligned).mpr within))

private theorem thread_calls {l0 : Lower} (cons : Consistent N l0) :
    Calls (lowerAccounting N False) (ownerBacking N) (allocated l0) (ThreadCall N) := by
  refine ⟨fun h k p m s F held (inv : Backed N s _) call => ?_, fun h m held => ?_⟩
  · obtain ⟨⟨fine, shapes⟩, rfl⟩ := held
    cases call with
    | get start order inside small =>
      have safe : (lowerAccounting N False).Safe ((ownerBacking N).keeps h)
          (lowerGet N start order none) (blocksHeld h.blocks) _ :=
        safe_lowerGet inside small fun f y _ _ _ => ⟨⟨fine, shapes⟩, y, rfl⟩
      refine Accounting.safe_bind (Accounting.safe_ends safe) ?_
      rintro r x ⟨⟨f, aligned, near, rfl, rfl⟩ | ⟨rfl, rfl⟩, keep⟩
      · have tree : f / 4096 < divCeil N 4096 := by
          simp only [divCeil]
          omega
        refine ⟨keep, ⟨fine, fun b member => ?_⟩, ?_⟩
        · rcases List.mem_cons.mp member with rfl | old
          · exact ⟨aligned, small, tree⟩
          · exact shapes b old
        · rw [add_comm]
          exact (blocksHeld_cons (f, order) h.blocks).symm
      · exact ⟨keep, ⟨fine, shapes⟩, rfl⟩
    | put f order own =>
      have shape := shapes _ own
      have valid := valid_of_covered cons (by rwa [← add_assoc] at inv) shape.1
        (shape.2.1.trans (by omega)) shape.2.2 fun g within =>
          covers_add.mpr (Or.inl (covers_blocksHeld own shape.1 within))
      have rest : Sound N (h.without (f, order)) :=
        ⟨fine, fun b member => shapes b (List.mem_of_mem_erase member)⟩
      have frees : Frees f order (block f order) 0 := by
        by_cases huge : order = 9
        · subst huge
          rw [block_huge]
          exact Frees.huge rfl
        · have small : order < 9 := by
            have le := shape.2.1
            change order ≤ 9 at le
            omega
          rw [block_small small]
          exact Frees.bits small
      have safe : (lowerAccounting N False).Safe ((ownerBacking N).keeps (h.without (f, order)))
          (lowerPut N f order) (blocksHeld (h.blocks.erase (f, order)) + block f order) _ :=
        safe_lowerPut valid frees fun y _ _ => ⟨rest, y, rfl⟩
      rw [blocksHeld_erase own]
      refine Accounting.safe_bind (Accounting.safe_ends safe) ?_
      rintro r x ⟨⟨rfl, rfl⟩, keep⟩
      exact ⟨keep, rest, add_zero _⟩
  · obtain ⟨⟨-, shapes⟩, rfl⟩ := held
    exact lag_blocksHeld fun b member => (shapes b member).2.1

/-! ## Every reachable pool -/

def Apart (b c : Nat × Nat) : Prop := ∀ g, ¬ (Within b.1 b.2 g ∧ Within c.1 c.2 g)

private theorem apart_of_held {F : Held} {blocks : List (Nat × Nat)}
    (inv : Backed N l (blocksHeld blocks + F)) (shapes : ∀ b ∈ blocks, InTrees N b) :
    blocks.Pairwise Apart := by
  induction blocks generalizing F with
  | nil => exact List.Pairwise.nil
  | cons b blocks ih =>
    rw [blocksHeld_cons, add_assoc] at inv
    have rest : ∀ c ∈ blocks, InTrees N c :=
      fun c member => shapes c (List.mem_cons_of_mem b member)
    have next : Backed N l (blocksHeld blocks + (block b.1 b.2 + F)) := by
      rwa [← add_assoc, add_comm (blocksHeld blocks), add_assoc]
    refine List.Pairwise.cons (fun c member g both => ?_) (ih next rest)
    obtain ⟨aligned, small, tree⟩ := shapes b List.mem_cons_self
    have inside := block_entries (small.trans (by omega)) aligned tree g both.1
    refine covers_once inv inside ((covers_block aligned).mpr both.1) ?_
    exact covers_add.mpr (Or.inl (covers_blocksHeld member (rest c member).1 both.2))

structure ThreadsSafe (N : Nat) (P : LowerThreads ι) : Prop where
  /-- The blocks that a thread holds are aligned and in range. -/
  valid : ∀ i, ∀ b ∈ (P.data i).blocks, Valid N b.1 b.2
  /-- No thread holds a frame twice, and no two threads hold the same frame. -/
  own : ∀ i, (P.data i).blocks.Pairwise Apart
  others : ∀ i j, i ≠ j → ∀ b ∈ (P.data i).blocks, ∀ c ∈ (P.data j).blocks, Apart b c
  /-- The counter of a child and the amounts in flight add up to its zero bits. -/
  counters : ∀ c < P.mem.childCount, (P.mem.children c).huge = false →
    ((P.mem.children c).free : Int) + ∑ i, P.ledger i c = childSize - fieldCountOnes P.mem c
  /-- Every put returned success. -/
  puts : ∀ i, (P.data i).refused = 0
  /-- No thread stands at a failed assertion, or before an access that fails. -/
  assertions : ∀ i, P.thread i ≠ .abort ∧
    ∀ o k, P.thread i = .step o k → LoOp.exec o P.mem ≠ none
  /-- With no call in progress the counter of a child is the number of its zero bits. -/
  idle : (∀ i, ∃ h, P.thread i = .ret h) → ∀ c < P.mem.childCount,
    (P.mem.children c).huge = false →
      (P.mem.children c).free = childSize - fieldCountOnes P.mem c

private theorem sum_two (m : ι → Held) {i j : ι} (other : i ≠ j) :
    ∃ F, ∑ x, m x = m i + (m j + F) := by
  refine ⟨∑ x ∈ (Finset.univ.erase i).erase j, m x, ?_⟩
  rw [Finset.add_sum_erase _ _ (Finset.mem_erase.mpr ⟨other.symm, Finset.mem_univ j⟩),
    Finset.add_sum_erase _ _ (Finset.mem_univ i)]

private theorem lag_allocated (l : Lower) : lag (allocated l) = 0 := by
  funext c
  change (0 : Int) - 64 * ((if (l.children c).huge then ({0} : Multiset Nat) else 0).sum : Nat) = 0
  split_ifs <;> simp

omit [DecidableEq ι] in
private theorem counters_of_balanced {l0 : Lower} {P : LowerThreads ι} {m : ι → Held}
    (balanced : Balanced (lowerAccounting N False) (ownerBacking N) (allocated l0) P m) {c : Nat}
    (real : c < P.mem.childCount) (small : (P.mem.children c).huge = false) :
    ((P.mem.children c).free : Int) + ∑ i, P.ledger i c = 512 - fieldCountOnes P.mem c := by
  have inv : Backed N P.mem (∑ i, m i + allocated l0) := balanced.inv
  have held := inv.small c (real.trans_le (childCount_le_entryCount P.mem)) small
  have count := held.count
  have total : lag (∑ i, m i + allocated l0) c = ∑ i, P.ledger i c := by
    rw [map_add, lag_allocated, add_zero, map_sum, Finset.sum_apply]
    exact Finset.sum_congr rfl fun i _ => congrFun (balanced.ledger i) c
  have credit : lag (∑ i, m i + allocated l0) c = (∑ i, m i + allocated l0).credit c := by
    simp [lag_apply, held.none]
  rw [← total, credit]
  omega

/-- Safety of the lower allocator under interleaving. -/
theorem threads_safe {buffers : Lower} {P : LowerThreads ι} (reach : LowerReaches N buffers P) :
    ThreadsSafe N P := by
  have cons : Consistent N (lowerInit buffers N .free).2 := clear_consistent buffers N true
  have calls := thread_calls cons
  have keep : ∀ h x, (ownerBacking N).held h x → (ownerBacking N).keeps h x :=
    fun h x held => ⟨held.1, 0, by rw [add_zero]; exact held.2⟩
  have start : Balanced (lowerAccounting N False) (ownerBacking N)
      (allocated (lowerInit buffers N .free).2)
      (Threads.idle (lowerInit buffers N .free).2 fun _ : ι => ⟨[], 0⟩) fun _ => 0 := by
    refine balanced_idle calls ?_ (fun i => ?_) fun i => keep _ _ ?_
    · rw [Finset.sum_const_zero, zero_add]
      exact cons.backed
    · exact ⟨⟨rfl, by simp⟩, rfl⟩
    · exact ⟨⟨rfl, by simp⟩, rfl⟩
  obtain ⟨m, balanced⟩ := balanced_reaches calls start reach
  have inv : Backed N P.mem (∑ i, m i + allocated (lowerInit buffers N .free).2) := balanced.inv
  have data : ∀ i, Sound N (P.data i) ∧ ∃ y, m i = blocksHeld (P.data i).blocks + y := fun i =>
    balanced_data (fun stuck => stuck) balanced keep i
  have alone : ∀ i, ∃ F, Backed N P.mem (blocksHeld (P.data i).blocks +
      (F + allocated (lowerInit buffers N .free).2)) := by
    intro i
    obtain ⟨-, y, own⟩ := data i
    refine ⟨y + ∑ j ∈ Finset.univ.erase i, m j, ?_⟩
    rw [← Finset.add_sum_erase _ _ (Finset.mem_univ i), own] at inv
    simpa only [add_assoc] using inv
  refine ⟨fun i b member => ?_, fun i => ?_, fun i j other b mine c theirs g both => ?_,
    fun c real small => counters_of_balanced balanced real small, fun i => (data i).1.1,
    fun i => balanced_no_fault (fun stuck => stuck) balanced i, fun quiet c real small => ?_⟩
  · obtain ⟨F, backed⟩ := alone i
    have shape := (data i).1.2 b member
    refine valid_of_covered cons (by rwa [← add_assoc] at backed) shape.1
      (shape.2.1.trans (by omega)) shape.2.2 fun g within => ?_
    exact covers_add.mpr (Or.inl (covers_blocksHeld member shape.1 within))
  · obtain ⟨F, backed⟩ := alone i
    exact apart_of_held backed (data i).1.2
  · obtain ⟨⟨-, shapes⟩, y, own⟩ := data i
    obtain ⟨⟨-, shapes'⟩, y', own'⟩ := data j
    obtain ⟨F, split⟩ := sum_two m other
    obtain ⟨aligned, small, tree⟩ := shapes b mine
    rw [split, own, own', add_assoc] at inv
    refine covers_once inv (block_entries (small.trans (by omega)) aligned tree g both.1) ?_ ?_
    · exact covers_add.mpr (Or.inl (covers_blocksHeld mine aligned both.1))
    · refine covers_add.mpr (Or.inl (covers_add.mpr (Or.inl (covers_add.mpr (Or.inl ?_)))))
      exact covers_blocksHeld theirs (shapes' c theirs).1 both.2
  · have none : ∀ i, P.ledger i c = 0 := by
      intro i
      obtain ⟨h, idle⟩ := quiet i
      have zero := calls.free h (m i) (balanced_ret balanced idle)
      rw [← balanced.ledger i, zero]
      rfl
    have total := counters_of_balanced balanced real small
    have le := fieldCountOnes_le P.mem c
    simp only [none, Finset.sum_const_zero, add_zero] at total
    simp only [childSize]
    omega

/-! ## Two threads -/

omit [Fintype ι] in
private theorem reaches_acts {P P' : LowerThreads ι} (reach : LowerReaches N zeroed P)
    (step : Step (Sys.ofExec LoOp.exec) lagDelta (ThreadCall N) P P') (schedule : List ι)
    (ready : P'.allReady LoOp.exec lagDelta (fun _ _ => True) (fun _ _ _ => True) schedule = true) :
    LowerReaches N zeroed (P'.acts LoOp.exec lagDelta schedule) := by
  have acts : Relation.ReflTransGen (GuardedStep (Sys.ofExec LoOp.exec) lagDelta (ThreadCall N)
      fun _ _ _ => True) P' (P'.acts LoOp.exec lagDelta schedule) :=
    acts_steps (fun _ _ _ _ _ done => done) ready
  exact (reach.tail step).trans (Relation.ReflTransGen.mono (fun _ _ => GuardedStep.step) _ _ acts)

-- Thread `i` allocates 2^`order` frames.
private def getBy (P : LowerThreads (Fin 2)) (i : Fin 2) (h : Owner) (order : Nat) :
    LowerThreads (Fin 2) :=
  P.enter i h (lowerGet 600 0 order none >>= fun r => .ret (h.received r order))

private def oneBlock : LowerThreads (Fin 2) :=
  (getBy (Threads.idle (lowerInit zeroed 600 .free).2 fun _ => ⟨[], 0⟩) 0 ⟨[], 0⟩ 0).acts LoOp.exec
    lagDelta [0, 0]

private def twoBlocks : LowerThreads (Fin 2) :=
  (getBy oneBlock 0 ⟨[(0, 0)], 0⟩ 1).acts LoOp.exec lagDelta [0, 0]

-- Thread 1 has taken 8 frames from the counter.
private def counted : LowerThreads (Fin 2) :=
  (getBy twoBlocks 1 ⟨[], 0⟩ 3).acts LoOp.exec lagDelta [1]

private def cleared : LowerThreads (Fin 2) :=
  (counted.enter 0 ⟨[(2, 1)], 0⟩
    (lowerPut 600 0 0 >>= fun r => .ret (Owner.released ⟨[(2, 1)], 0⟩ r))).acts LoOp.exec lagDelta
      [0, 0]

/-- One thread holds a block and frees another, one allocates: both are between the counter and the
bitfield. -/
theorem threads_safe_midway : ∃ P : LowerThreads (Fin 2), ThreadsSafe 600 P ∧
    (P.data 0).blocks = [(2, 1)] ∧ P.ledger 0 0 = 1 ∧ P.ledger 1 0 = 8 := by
  have one : LowerReaches 600 zeroed oneBlock :=
    reaches_acts .refl (.start _ 0 _ _ _ rfl (.get ⟨[], 0⟩ 0 0 (by decide) (by decide))) [0, 0]
      (by decide +kernel)
  have two : LowerReaches 600 zeroed twoBlocks :=
    reaches_acts one (.start _ 0 _ _ _ rfl (.get ⟨[(0, 0)], 0⟩ 0 1 (by decide) (by decide))) [0, 0]
      (by decide +kernel)
  have taken : LowerReaches 600 zeroed counted :=
    reaches_acts two (.start _ 1 _ _ _ rfl (.get ⟨[], 0⟩ 0 3 (by decide) (by decide))) [1]
      (by decide +kernel)
  have freed : LowerReaches 600 zeroed cleared :=
    reaches_acts taken (.start _ 0 _ _ _ rfl (.put ⟨[(2, 1), (0, 0)], 0⟩ 0 0 (by decide))) [0, 0]
      (by decide +kernel)
  exact ⟨cleared, threads_safe freed, rfl, by decide +kernel, by decide +kernel⟩

end LLFree.Lower.Interleaving

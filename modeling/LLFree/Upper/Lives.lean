/- module: LLFree/Upper/Lives
   digest: Clients that outlive the allocator: crashes in the middle of calls, and recovery. -/

import LLFree.Upper.Concurrent
import LLFree.Upper.Recovery
import LLFree.Upper.Solo
import Mathlib.Algebra.Order.BigOperators.Group.Finset
import Mathlib.Algebra.Order.Group.Multiset

/-!
A crash cuts off whatever calls are in progress. The words of the lower allocator survive it,
trees and slots are rebuilt, and the clients remember blocks that they held. This may happen any
number of times.
-/

set_option autoImplicit false
set_option relaxedAutoImplicit false

namespace LLFree.Upper.Lives

open LLFree.Atomic.Pool LLFree.Code.Types LLFree.Code.Entries LLFree.Code.Lower LLFree.Code.Shared
open LLFree.Code.Setup LLFree.Code.Stack LLFree.Code.Llfree LLFree.Lower.Holding
open LLFree.Lower.Holding.Held LLFree.Lower.GetPut
open LLFree.Lower.Quiet LLFree.Lower.FrameSet LLFree.Lower.Crash LLFree.Upper.Ledger
open LLFree.Upper.Slots LLFree.Upper.Steps LLFree.Upper.Sequential LLFree.Upper.Conservation
open LLFree.Upper.Segregation LLFree.Upper.Blocks LLFree.Upper.Overwritten LLFree.Upper.Lending
open LLFree.Upper.Layers LLFree.Upper.Concurrent LLFree.Upper.Recovery

variable {K : Config} {W : Drift K} {P : Promise K} {ι : Type} [Fintype ι] [DecidableEq ι]

/-! ## A first start -/

theorem sound_transfer {L L' : Type} {low : LowerModel L K.frames} {low' : LowerModel L' K.frames}
    {x : Llfree L} {y : Llfree L'} {m : Tickets} (sound : Sound P low x m)
    (good : low'.good y.lower) (upper : y.upper = x.upper)
    (free : low'.free y.lower = low.free x.lower) : Sound P low' y m := by
  refine ⟨good, ?_, ?_⟩
  · rw [upper]
    exact sound.slots
  · rw [upper, free]
    exact sound.books

def newcomers (ι : Type) : ι → Client := fun _ => ⟨[], 0⟩

omit [DecidableEq ι] in
theorem rooted_rebuilt {s : Llfree Lower} (P : Promise K) (fits : Fits K) (rebuilt : Rebuilt K s)
    (cons : Consistent K.frames s.lower) :
    Rooted P (.ofConsistent cons) s (newcomers ι) := by
  have none : allLoans (newcomers ι) = 0 := Finset.sum_const_zero
  have explained : Explained K (.ofConsistent cons) s ⟨allLoans (newcomers ι), s.upper⟩ 0 := by
    refine ⟨rfl, ?_, ?_⟩
    · rw [none, zero_add]
      change Backed K.frames s.lower (0 + allocated s.lower)
      rw [zero_add]
      exact cons.backed
    · rw [none]
      exact separate_zero
  refine ⟨explained, ?_, rfl, fun _ => rfl⟩
  have tickets : ∑ i, lentTickets (newcomers ι i).lent = 0 := Finset.sum_const_zero
  rw [tickets]
  exact sound_transfer (sound_of_rebuilt P fits rebuilt cons) explained.separate rfl
    (free_eq_of_explained explained).symm

/-! ## Recovery -/

section Recovery

variable {N : Nat} {l : Lower} {m x F : Held}

theorem recovered_of_backed (backed : Backed N l m) (tail : ∀ g, N ≤ g → ¬ IsFree l g) :
    Consistent N (recovered N l) ∧ freeSet (recovered N l) = freeSet l := by
  simp only [recovered, lowerInit, with_frames backed.frames]
  exact ⟨recover_consistent backed tail, Set.ext fun g => recover_isFree backed g⟩

-- What is left of a holding when part of it is taken out.
private def rest (l : Lower) (x : Held) : Held where
  credit := 0
  bit g := (allocated l).bit g - x.bit g
  huge c := (allocated l).huge c - x.huge c

private theorem recovered_bit (backed : Backed N l (x + F)) {g : Nat}
    (inside : g / 512 < entriesOf N)
    (own : x.bit g ≠ 0) : x.bit g ≤ (allocated (recovered N l)).bit g := by
  rw [← backed.entryCount_eq] at inside
  have held : 0 < (x + F).bit g := by
    rw [add_bit]
    omega
  have small := backed.not_huge inside (Or.inr ⟨g, rfl, held⟩)
  have bit := (backed.small _ inside small).bits g rfl
  rw [add_bit] at bit
  have row : g / 64 / 8 = g / 512 := by omega
  simp only [recovered, lowerInit, with_frames backed.frames, allocated]
  rw [recover_huge backed inside, small, bitSet, recover_rows l (by rw [row, small]), ← bitSet]
  simp only [Bool.false_eq_true, if_false]
  omega

private theorem recovered_huge (backed : Backed N l (x + F)) {c : Nat} (inside : c < entriesOf N)
    (whole : ∀ k ∈ x.huge c, k = 0) (own : x.huge c ≠ 0) :
    x.huge c ≤ (allocated (recovered N l)).huge c := by
  rw [← backed.entryCount_eq] at inside
  obtain ⟨k, member⟩ := Multiset.exists_mem_of_ne_zero own
  have huge := backed.is_huge (k := k) inside (by
    rw [add_huge]
    exact Multiset.mem_add.mpr (Or.inl member))
  obtain ⟨k', -, token, -⟩ := (backed.huge c inside huge).rows
  have le : x.huge c ≤ {k'} := by
    rw [← token, add_huge]
    exact Multiset.le_add_right _ _
  have same : k = k' := Multiset.mem_singleton.mp (Multiset.mem_of_le le member)
  simp only [recovered, lowerInit, with_frames backed.frames, allocated]
  rw [recover_huge backed inside, huge, if_pos rfl, ← whole k member, same]
  exact le

private theorem recovered_split (backed : Backed N l (x + F)) (credit : ∀ c, x.credit c = 0)
    (whole : ∀ c, ∀ k ∈ x.huge c, k = 0) (inside : ∀ g, Covers x g → g / 512 < entriesOf N) :
    allocated (recovered N l) = x + rest (recovered N l) x := by
  refine ext_at (fun c => ?_) (fun g => ?_) fun c => ?_
  · rw [add_credit, credit]
    rfl
  · have le : x.bit g ≤ (allocated (recovered N l)).bit g := by
      by_cases own : x.bit g = 0
      · omega
      · exact recovered_bit backed (inside g (Or.inl own)) own
    rw [add_bit]
    exact (Nat.add_sub_of_le le).symm
  · have le : x.huge c ≤ (allocated (recovered N l)).huge c := by
      by_cases own : x.huge c = 0
      · rw [own]
        exact Multiset.zero_le _
      · have here : c * 512 / 512 = c := Nat.mul_div_cancel c (by decide)
        have bound := inside (c * 512) (Or.inr (by rwa [here]))
        rw [here] at bound
        exact recovered_huge backed bound (whole c) own
    rw [add_huge]
    exact (add_tsub_cancel_of_le le).symm

end Recovery

section Restart

variable {base : Leftover K.frames} {s s' : Llfree Lower} {x : Llfree Loans} {m : Held} {l : Loans}

omit [Fintype ι] [DecidableEq ι] in
private theorem heldOf_inside (valid : ∀ b ∈ l, Valid K.frames b.1 b.2) {g : Nat}
    (covers : Covers (heldOf l) g) : g < K.frames := by
  obtain ⟨b, own, within⟩ := (covers_heldOf fun b own => (valid b own).2).mp covers
  exact within.2.trans_le (valid b own).1

private theorem entries_inside {g : Nat} (below : g < K.frames) : g / 512 < entriesOf K.frames := by
  refine Nat.lt_of_lt_of_le ?_ (childrenOf_le_entriesOf _)
  simp only [childrenOf, divCeil, childSize]
  omega

theorem leftover_recovered (rel : Explained K base s x m) (le : l ≤ x.lower) :
    Consistent K.frames (recovered K.frames s.lower) ∧
      ∃ base' : Leftover K.frames, allocated (recovered K.frames s.lower) =
        heldOf l + base'.held := by
  obtain ⟨gone, split⟩ := Multiset.le_iff_exists_add.mp le
  have valid : ∀ b ∈ l, Valid K.frames b.1 b.2 := fun b own =>
    rel.separate.valid b (Multiset.mem_of_le le own)
  have backed : Backed K.frames s.lower (heldOf l + (m + (heldOf gone + base.held))) := by
    have all := rel.backed
    rw [split, heldOf_add] at all
    rwa [add_left_comm, ← add_assoc (heldOf l)]
  have tail : ∀ g, K.frames ≤ g → ¬ IsFree s.lower g := fun g past free =>
    absurd (free_of_explained rel free).1 (Nat.not_lt_of_le past)
  have cons := (recovered_of_backed backed tail).1
  have same := recovered_split backed (credit_heldOf l) (whole_heldOf l)
    fun g covers => entries_inside (heldOf_inside valid covers)
  refine ⟨cons, ⟨rest (recovered K.frames s.lower) (heldOf l), rfl, fun c k member => ?_,
    fun g past inside => ?_⟩, same⟩
  · exact (Leftover.ofConsistent cons).whole c k
      (Multiset.mem_of_le (Multiset.sub_le_self _ _) member)
  · have covers := cons.outside_covers past inside
    rw [same, covers_add] at covers
    exact covers.resolve_left fun mine =>
      absurd (heldOf_inside valid mine) (Nat.not_lt_of_le past)

private theorem separate_part {N : Nat} {A B : Set Nat} {l l' : Loans} (separate : Separate N A l')
    (le : l ≤ l') (clear : ∀ b ∈ l, ∀ g, Within b.1 b.2 g → g ∉ B) : Separate N B l := by
  obtain ⟨gone, rfl⟩ := Multiset.le_iff_exists_add.mp le
  refine ⟨fun b own => separate.small b (Multiset.mem_of_le le own), fun b own =>
    separate.valid b (Multiset.mem_of_le le own), clear, fun b k same c other => ?_⟩
  subst same
  exact separate.apart b (k + gone) (Multiset.cons_add ..) c (Multiset.mem_add.mpr (Or.inl other))

omit [Fintype ι] [DecidableEq ι] in
private theorem explained_recovered {u : Upper} (rel : Explained K base s x m) (le : l ≤ x.lower)
    {base' : Leftover K.frames} (cons : Consistent K.frames (recovered K.frames s.lower))
    (same : allocated (recovered K.frames s.lower) = heldOf l + base'.held) :
    Explained K base' ⟨recovered K.frames s.lower, u⟩ ⟨l, u⟩ 0 := by
  have backed := cons.backed
  rw [same] at backed
  refine ⟨rfl, ?_, separate_part rel.separate le fun b own g within left => ?_⟩
  · rw [zero_add]
    exact backed
  · have valid : ∀ c ∈ l, Valid K.frames c.1 c.2 := fun c member =>
      rel.separate.valid c (Multiset.mem_of_le le member)
    have covers : Covers (heldOf l) g :=
      (covers_heldOf fun c member => (valid c member).2).mpr ⟨b, own, within⟩
    exact covers_once backed (entries_inside (heldOf_inside valid covers)) covers left

/-! ## Books after a restart -/

private theorem sound_live {L : Type} {low : LowerModel L K.frames} {y : Llfree L} {k k' : Tickets}
    (mixed : ¬ P.segregated) (sound : Sound P low y k)
    (lives : ∀ t ∈ k', t.kind = .live ∧ t.tree < K.treesLen) : Sound P low y (k + k') := by
  have none : upperAmount k' = 0 := amount_lives fun t member => (lives t member).1
  rw [amount_apply] at none
  have books := sound.books
  refine ⟨sound.good, sound.slots, ?_⟩
  rw [← add_assoc]
  refine ⟨fun t member => ?_, fun t inside => ?_, fun t inside => ?_, fun on => absurd on mixed,
    fun on => absurd on mixed, fun on => ⟨(books.known on).1, fun t member kind => ?_⟩, books.full⟩
  · exact (Multiset.mem_add.mp member).elim (books.inside t) fun own => (lives t own).2
  · have zero : counted t k' = 0 := Int.ofNat_eq_zero.mp (congrFun (congrArg Prod.fst none) t)
    rw [counted_add, zero, Nat.add_zero]
    exact books.balance t inside
  · have zero : owners t k' = 0 := Int.ofNat_eq_zero.mp (congrFun (congrArg Prod.snd none) t)
    rw [owners_add, zero, Nat.add_zero]
    exact books.owned t inside
  · rcases Multiset.mem_add.mp member with old | own
    · exact (books.known on).2 t old kind
    · rw [(lives t own).1] at kind
      cases kind

private theorem lentTickets_tree {lent : List Lent} {k : Ticket} (member : k ∈ lentTickets lent) :
    ∃ b ∈ lent, k.tree = b.frame / 4096 := by
  induction lent with
  | nil => simp [lentTickets] at member
  | cons b lent ih =>
    rw [lentTickets_cons, Multiset.mem_add, mem_live] at member
    rcases member with rfl | rest
    · exact ⟨b, List.mem_cons_self, rfl⟩
    · obtain ⟨c, own, tree⟩ := ih rest
      exact ⟨c, List.mem_cons_of_mem b own, tree⟩

omit [DecidableEq ι] in
theorem rooted_recovered {h : ι → Client} {upper : Upper} (fits : Fits K) (mixed : ¬ P.segregated)
    (rel : Explained K base s x m) (known : allLoans h ≤ x.lower) (fine : ∀ i, (h i).refused = 0)
    (init : llfreeInit K .recover ⟨s.lower, upper⟩ = some (llfreeOk 0 0, s')) :
    ∃ base' : Leftover K.frames, Rooted P base' s' h := by
  obtain ⟨rebuilt, lower⟩ := init_rebuilt init (by simp)
  obtain ⟨cons, base', same⟩ := leftover_recovered rel known
  obtain ⟨l', u⟩ := s'
  obtain rfl : recovered K.frames s.lower = l' := congrArg Prod.snd lower
  have explained : Explained K base' ⟨recovered K.frames s.lower, u⟩ ⟨allLoans h, u⟩ 0 :=
    explained_recovered rel known cons same
  refine ⟨base', explained, ?_, rfl, fine⟩
  have sound : Sound P (blocksModel K.frames base'.frames) ⟨allLoans h, u⟩ 0 :=
    sound_transfer (sound_of_rebuilt P fits rebuilt cons) explained.separate rfl
      (free_eq_of_explained explained).symm
  rw [← zero_add (∑ i, lentTickets (h i).lent)]
  refine sound_live mixed sound fun k member => ?_
  obtain ⟨i, -, own⟩ := Multiset.mem_sum.mp member
  obtain ⟨b, lent, tree⟩ := lentTickets_tree own
  refine ⟨lentTickets_live own, ?_⟩
  have out : (b.frame, b.order) ∈ allLoans h :=
    Multiset.mem_sum.mpr ⟨i, Finset.mem_univ i, mem_loansOf lent⟩
  have below : b.frame + 2 ^ b.order ≤ K.frames := (explained.separate.valid _ out).1
  have pos : 0 < 2 ^ b.order := Nat.two_pow_pos _
  rw [tree]
  simp only [Config.treesLen, divCeil, treeSize]
  omega

end Restart

/-! ## Any number of lives -/

/-- The memory and the clients at the beginning of a life: after `llfree_init`, or after a crash
and a recovery. A client goes on with what it remembers of the blocks it held. -/
inductive Life (W : Drift K) : Llfree Lower → (ι → Client) → Prop
  | first (mode : InitMode) (s : Llfree Lower) (fresh : FreshMode mode)
      (init : Initialised K mode s) : Life W s (newcomers ι)
  | again (s s' : Llfree Lower) (h h' : ι → Client) (T : StackThreads ι) (upper : Upper)
      (life : Life W s h) (reach : StackReaches W s h T)
      (init : llfreeInit K .recover ⟨T.mem.lower, upper⟩ = some (llfreeOk 0 0, s'))
      (known : ∀ i, (h' i).lent.Sublist (T.data i).lent) (fine : ∀ i, (h' i).refused = 0) :
      Life W s' h'

omit [Fintype ι] in
theorem lives_some {s : Llfree Lower} {h : ι → Client} (life : Life W s h) : 0 < K.treesLen := by
  cases life with
  | first mode s fresh init =>
    obtain ⟨buffers, init⟩ := init
    exact treesLen_pos (init_rebuilt init fresh.ne_none).1
  | again s s' h h' T upper life reach init known fine =>
    exact treesLen_pos (init_rebuilt init (by simp)).1

theorem loansOf_le {lent lent' : List Lent} (part : lent.Sublist lent') :
    loansOf lent ≤ loansOf lent' :=
  Multiset.coe_le.mpr (part.map _).subperm

theorem lives_rooted {s : Llfree Lower} {h : ι → Client} (fits : Fits K) (support : Supported P)
    (steady : P.pristine → W.Exact) (mixed : ¬ P.segregated) (life : Life W s h) :
    ∃ base : Leftover K.frames, Rooted P base s h := by
  induction life with
  | first mode s fresh init =>
    obtain ⟨rebuilt, sound⟩ := sound_init P fits fresh init
    exact ⟨_, rooted_rebuilt P fits rebuilt sound.good⟩
  | again s s' h h' T upper life reach init known fine ih =>
    obtain ⟨base, rooted⟩ := ih
    obtain ⟨U, d, m, n, -, behind⟩ :=
      stack_behind fits (lives_some life) support steady rooted reach
    refine rooted_recovered fits mixed behind.sim.rel ?_ fine init
    rw [(behind_loans behind).1]
    refine Finset.sum_le_sum fun i _ => (loansOf_le (known i)).trans ?_
    obtain ⟨-, ⟨y, own⟩, -⟩ := behind_data behind i
    rw [own]
    exact Multiset.le_add_left _ _

theorem lives_behind {s : Llfree Lower} {h : ι → Client} {T : StackThreads ι} (fits : Fits K)
    (support : Supported P) (steady : P.pristine → W.Exact) (mixed : ¬ P.segregated)
    (life : Life W s h) (reach : StackReaches W s h T) :
    ∃ (base : Leftover K.frames) (U : _) (d : _) (m : _) (n : _),
      LendingReaches W base.frames ⟨allLoans h, s.upper⟩ h U ∧ Behind W P base T U d m n := by
  obtain ⟨base, rooted⟩ := lives_rooted fits support steady mixed life
  exact ⟨base, stack_behind fits (lives_some life) support steady rooted reach⟩

/-! ## Safety -/

/-- However the accesses of the clients interleave, and however often the allocator crashed
before: every block that a client holds is whole, marked as allocated and nobody else's, its free
succeeds, and no assertion fails. -/
theorem clients_safe {s : Llfree Lower} {h : ι → Client} {T : StackThreads ι} (fits : Fits K)
    (life : Life W s h) (reach : StackReaches W s h T) : ClientsSafe K T := by
  have support : Supported (plainPromise K) := False.elim
  obtain ⟨base, U, d, m, n, -, behind⟩ := lives_behind fits support False.elim id life reach
  exact clientsSafe_of_behind behind

def restarted (K : Config) (s : Llfree Lower) : Llfree Lower :=
  ((llfreeInit K .recover s).getD (llfreeErr .init, s)).2

theorem restarted_init {s : Llfree Lower}
    (done : (llfreeInit K .recover s).map Prod.fst = some (llfreeOk 0 0)) :
    llfreeInit K .recover ⟨s.lower, s.upper⟩ = some (llfreeOk 0 0, restarted K s) := by
  obtain ⟨⟨r, t⟩, init, same⟩ := Option.map_eq_some_iff.mp done
  obtain rfl : r = llfreeOk 0 0 := same
  refine init.trans ?_
  rw [restarted, init]
  rfl

theorem oneTree_standard : Standard oneTree := ⟨1, le_refl 1, Or.inl rfl⟩

abbrev oneTreeDrift : Drift oneTree := overwritten oneTree_standard.byClass

theorem one_client (W : Drift oneTree) : ∃ T : StackThreads (Fin 2),
    StackReaches W (initZeroed oneTree .free) (newcomers (Fin 2)) T ∧
    T.thread 0 = .ret ⟨[⟨0, 0, 0⟩], 0⟩ ∧ T.thread 1 = .ret ⟨[], 0⟩ ∧
    T.mem = (Call.get none ⟨0, 0, some 0⟩).after oneTree (initZeroed oneTree .free) := by
  obtain ⟨T, reach, mem, thread, -⟩ := Solo.solo_get (W := W)
    (T := Threads.idle (initZeroed oneTree .free) (newcomers (Fin 2)))
    (i := 0) none ⟨0, 0, some 0⟩ (by decide) rfl
    (fun _ => ⟨by decide, by simp⟩) rfl
      (Call.run_after (r := some (llfreeOk 0 0)) (by decide +kernel))
  exact ⟨T, reach, by rw [thread]; rfl, by rw [thread]; rfl, mem⟩

-- Client `i` begins to allocate a frame.
private def getBy (T : StackThreads ι) (i : ι) : StackThreads ι :=
  T.enter i ⟨[], 0⟩ (words oneTree (llfreeGet oneTree none ⟨0, 0, some 0⟩ >>= fun r =>
    .ret (Client.received ⟨[], 0⟩ ⟨0, 0, some 0⟩ r)))

private def oneGet (i : ι) : StackThreads ι :=
  (getBy (Threads.idle (initZeroed oneTree .free) (newcomers ι)) i).acts (WordOp.exec oneTree)
    (fun _ _ => 1) [i, i, i, i]

/-- Client `i` has allocated a frame, client `j` is between the counter of a child and its
bitfield. -/
def midway (i j : ι) : StackThreads ι :=
  (getBy (oneGet i) j).acts (WordOp.exec oneTree) (fun _ _ => 1) [j, j, j]

private theorem reaches_acts {W : Drift oneTree} {T : StackThreads (Fin 2)} {i : Fin 2}
    (reach : StackReaches W (initZeroed oneTree .free) (newcomers (Fin 2)) T)
    (idle : T.thread i = .ret ⟨[], 0⟩) (schedule : List (Fin 2))
    (ready : (getBy T i).allReady (WordOp.exec oneTree) (fun _ _ => (1 : Int)) (fun _ _ => True)
      (fun _ _ _ => True) schedule = true) :
    StackReaches W (initZeroed oneTree .free) (newcomers (Fin 2))
      ((getBy T i).acts (WordOp.exec oneTree) (fun _ _ => 1) schedule) := by
  have first : Step (stackSys W) (fun _ _ => (1 : Int)) (StackCall oneTree) T (getBy T i) :=
    .start T i _ _ _ idle ⟨_, .get ⟨[], 0⟩ none ⟨0, 0, some 0⟩ fun _ => ⟨by decide, by simp⟩, rfl⟩
  have rest : Relation.ReflTransGen (GuardedStep (stackSys W) (fun _ _ => (1 : Int))
      (StackCall oneTree) fun _ _ _ => True) (getBy T i) _ :=
    acts_steps (fun _ _ _ _ _ done => stackSys_exec done) ready
  exact (reach.tail first).trans (Relation.ReflTransGen.mono (fun _ _ => GuardedStep.step) _ _ rest)

theorem midway_reached (W : Drift oneTree) :
    StackReaches W (initZeroed oneTree .free) (newcomers (Fin 2)) (midway 0 1) :=
  reaches_acts (reaches_acts .refl rfl [0, 0, 0, 0] (by decide +kernel)) rfl [1, 1, 1]
    (by decide +kernel)

/-- A client allocated a frame before a crash, the other one allocates after it. -/
theorem clients_safe_restart : ∃ T : StackThreads (Fin 2),
    T.thread 0 = .ret ⟨[⟨0, 0, 0⟩], 0⟩ ∧ T.thread 1 = .ret ⟨[⟨1, 0, 0⟩], 0⟩ ∧
      ClientsSafe oneTree T := by
  obtain ⟨T, reach, zero, one, mem⟩ := one_client oneTreeDrift
  have second : Life oneTreeDrift (restarted oneTree T.mem)
      (fun i => ⟨(T.data i).lent, 0⟩) :=
    .again _ _ _ _ T T.mem.upper (.first .free _ (Or.inl rfl) (initZeroed_initialised (by decide)))
      reach (restarted_init (by rw [mem]; decide +kernel)) (fun _ => List.Sublist.refl _) fun _ =>
        rfl
  obtain ⟨U, reach', -, thread, -⟩ := Solo.solo_get (W := oneTreeDrift)
    (T := Threads.idle (restarted oneTree T.mem)
      fun i => ⟨(T.data i).lent, 0⟩) (i := 1)
    (h := ⟨[], 0⟩) none ⟨0, 0, some 0⟩ (by decide)
    (by simp [Threads.idle, Threads.data, one])
    (fun _ => ⟨by decide, by simp⟩) (by
      change (restarted _ T.mem).lower.frames = _
      rw [mem]
      decide +kernel)
    (Call.run_after (r := some (llfreeOk 1 0)) (by
      change ((Call.get none ⟨0, 0, some 0⟩).run _ (restarted _ T.mem)).map Prod.fst = _
      rw [mem]
      decide +kernel))
  refine ⟨U, ?_, ?_, clients_safe (by decide) second reach'⟩
  · rw [thread]
    simp [Threads.idle, Threads.data, zero]
  · rw [thread]
    rfl

end LLFree.Upper.Lives

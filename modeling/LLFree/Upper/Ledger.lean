/- module: LLFree/Upper/Ledger
   digest: Tickets for frames taken from counters, reservations and blocks handed out, and the
   books that every access to a tree keeps. -/

import LLFree.Code.Shared
import LLFree.Lower.FreeCount
import Mathlib.Algebra.BigOperators.Group.Finset.Basic
import Mathlib.Algebra.Order.Group.Multiset

/-!
Each free frame of a tree is counted once: in its entry, in the slot that has reserved the
tree, or in a call that has taken it from one of the two and has not spent it. Slots and
calls hold tickets, so all that is not in an entry is a multiset of tickets.

A ticket carries a class. The effective class of a tree is that of its entry, or that of its
reservation where it is lower; no ticket for frames promises more than it.
-/

set_option autoImplicit false
set_option relaxedAutoImplicit false

namespace LLFree.Upper.Ledger

open LLFree.Code.Types LLFree.Code.Trees LLFree.Code.Shared LLFree.Lower.FreeCount

/-- `credit`: frames taken from a counter. `owner`: a reservation with its counter. `live`: a
block that was handed out. -/
inductive Kind where
  | credit
  | owner
  | live
  deriving DecidableEq

structure Ticket where
  kind : Kind
  tree : Nat
  amount : Nat
  cls : Nat
  deriving DecidableEq

abbrev Tickets := Multiset Ticket

def credit (t n c : Nat) : Tickets := {⟨.credit, t, n, c⟩}
def owner (t n c : Nat) : Tickets := {⟨.owner, t, n, c⟩}
def live (t n c : Nat) : Tickets := {⟨.live, t, n, c⟩}

/-! ## Totals -/

def tally (f : Ticket → Nat) (m : Tickets) : Nat := (m.map f).sum

theorem tally_add (f : Ticket → Nat) (a b : Tickets) : tally f (a + b) = tally f a + tally f b := by
  rw [tally, Multiset.map_add, Multiset.sum_add]
  rfl

theorem tally_sum {ι : Type} (f : Ticket → Nat) (A : Finset ι) (m : ι → Tickets) :
    tally f (∑ i ∈ A, m i) = ∑ i ∈ A, tally f (m i) :=
  map_sum (⟨⟨tally f, rfl⟩, tally_add f⟩ : Tickets →+ Nat) m A

theorem tally_one (f : Ticket → Nat) (k : Ticket) : tally f {k} = f k := by
  rw [tally, Multiset.map_singleton, Multiset.sum_singleton]

theorem le_tally {f : Ticket → Nat} {m : Tickets} {k : Ticket} (member : k ∈ m) :
    f k ≤ tally f m := by
  obtain ⟨rest, rfl⟩ := Multiset.exists_cons_of_mem member
  rw [tally, Multiset.map_cons, Multiset.sum_cons]
  exact Nat.le_add_right _ _

def counted (t : Nat) : Tickets → Nat :=
  tally fun k => if k.tree = t ∧ k.kind ≠ .live then k.amount else 0

def owners (t : Nat) : Tickets → Nat := tally fun k => if k.tree = t ∧ k.kind = .owner then 1 else 0

def alive (t : Nat) : Tickets → Nat :=
  tally fun k => if k.tree = t ∧ k.kind = .live then k.amount else 0

variable {t s n c : Nat} {a b : Tickets}

@[simp] theorem counted_zero : counted t 0 = 0 := rfl
@[simp] theorem owners_zero : owners t 0 = 0 := rfl
@[simp] theorem alive_zero : alive t 0 = 0 := rfl
@[simp] theorem counted_add : counted t (a + b) = counted t a + counted t b := tally_add _ a b
@[simp] theorem owners_add : owners t (a + b) = owners t a + owners t b := tally_add _ a b
@[simp] theorem alive_add : alive t (a + b) = alive t a + alive t b := tally_add _ a b

theorem counted_sum {ι : Type} (A : Finset ι) (m : ι → Tickets) :
    counted t (∑ i ∈ A, m i) = ∑ i ∈ A, counted t (m i) := tally_sum _ A m

theorem owners_sum {ι : Type} (A : Finset ι) (m : ι → Tickets) :
    owners t (∑ i ∈ A, m i) = ∑ i ∈ A, owners t (m i) := tally_sum _ A m

@[simp] theorem counted_credit : counted t (credit s n c) = if s = t then n else 0 := by
  simp [counted, credit, tally_one]

@[simp] theorem counted_owner : counted t (owner s n c) = if s = t then n else 0 := by
  simp [counted, owner, tally_one]

@[simp] theorem counted_live : counted t (live s n c) = 0 := by simp [counted, live, tally_one]
@[simp] theorem owners_credit : owners t (credit s n c) = 0 := by simp [owners, credit, tally_one]

@[simp] theorem owners_owner : owners t (owner s n c) = if s = t then 1 else 0 := by
  simp [owners, owner, tally_one]

@[simp] theorem owners_live : owners t (live s n c) = 0 := by simp [owners, live, tally_one]
@[simp] theorem alive_credit : alive t (credit s n c) = 0 := by simp [alive, credit, tally_one]
@[simp] theorem alive_owner : alive t (owner s n c) = 0 := by simp [alive, owner, tally_one]

@[simp] theorem alive_live : alive t (live s n c) = if s = t then n else 0 := by
  simp [alive, live, tally_one]

@[simp] theorem mem_credit {k : Ticket} : k ∈ credit t n c ↔ k = ⟨.credit, t, n, c⟩ :=
  Multiset.mem_singleton

@[simp] theorem mem_owner {k : Ticket} : k ∈ owner t n c ↔ k = ⟨.owner, t, n, c⟩ :=
  Multiset.mem_singleton

@[simp] theorem mem_live {k : Ticket} : k ∈ live t n c ↔ k = ⟨.live, t, n, c⟩ :=
  Multiset.mem_singleton

theorem tally_elsewhere {p : Ticket → Prop} [DecidablePred p] {f : Ticket → Nat}
    (elsewhere : ∀ k ∈ a, ¬ p k) : tally (fun k => if p k then f k else 0) a = 0 := by
  refine Multiset.sum_eq_zero fun v member => ?_
  obtain ⟨k, mem, rfl⟩ := Multiset.mem_map.mp member
  exact if_neg (elsewhere k mem)

theorem totals_elsewhere (here : ∀ k ∈ a, k.tree = t) (other : s ≠ t) :
    counted s a = 0 ∧ owners s a = 0 ∧ alive s a = 0 :=
  ⟨tally_elsewhere fun k mem both => other (both.1.symm.trans (here k mem)),
    tally_elsewhere fun k mem both => other (both.1.symm.trans (here k mem)),
    tally_elsewhere fun k mem both => other (both.1.symm.trans (here k mem))⟩

theorem amount_le {k : Ticket} (member : k ∈ a) (free : k.kind ≠ .live) :
    k.amount ≤ counted k.tree a := by
  calc k.amount = if k.tree = k.tree ∧ k.kind ≠ .live then k.amount else 0 := by simp [free]
    _ ≤ counted k.tree a :=
      le_tally (f := fun j => if j.tree = k.tree ∧ j.kind ≠ .live then j.amount else 0) member

theorem live_le {k : Ticket} (member : k ∈ a) (out : k.kind = .live) :
    k.amount ≤ alive k.tree a := by
  calc k.amount = if k.tree = k.tree ∧ k.kind = .live then k.amount else 0 := by simp [out]
    _ ≤ alive k.tree a :=
      le_tally (f := fun j => if j.tree = k.tree ∧ j.kind = .live then j.amount else 0) member

/-! ## The books -/

/-- The policy goes by the order of the classes. -/
def ByClass (policy : PolicyFn) : Prop :=
  ∀ requested target free, (policy requested target free).type =
    if requested > target then .steal else if requested < target then .demote else .match

/-- What the books are to guarantee beyond the counts, and what the configuration must be like
for it: known classes everywhere, segregation of the classes, the default class on trees
counted as entirely free. -/
structure Promise (K : Config) where
  configured : Prop
  segregated : Prop
  pristine : Prop
  default_known : configured → K.defaultClass < K.numClasses
  by_class : segregated → ByClass K.policy
  never_invalid : pristine →
    ∀ requested target free, (K.policy requested target free).type ≠ .invalid

/-! A promise that is not made asks nothing of the configuration. -/

theorem unknown {K : Config} : False → K.defaultClass < K.numClasses := False.elim

theorem unordered {K : Config} : False → ByClass K.policy := False.elim

theorem unmatched {K : Config} :
    False → ∀ requested target free, (K.policy requested target free).type ≠ .invalid := False.elim

/-- Some reservation of tree `t` has class `c` at most, or its entry has. -/
def Capped (tree : Tree) (t : Nat) (m : Tickets) (c : Nat) : Prop :=
  tree.cls ≤ c ∨ ∃ k ∈ m, k.kind = .owner ∧ k.tree = t ∧ k.cls ≤ c

theorem Capped.mono {tree : Tree} {m m' : Tickets} (capped : Capped tree t m c)
    (sub : ∀ k ∈ m, k ∈ m') : Capped tree t m' c :=
  capped.imp_right fun ⟨k, member, rest⟩ => ⟨k, sub k member, rest⟩

variable {K : Config} {P : Promise K}

structure Books (P : Promise K) (trees : Nat → Tree) (S : Set Nat) (m : Tickets) : Prop where
  inside : ∀ k ∈ m, k.tree < K.treesLen
  balance : ∀ t < K.treesLen, (trees t).free + counted t m = treeFree S t
  owned : ∀ t < K.treesLen, owners t m = (trees t).reserved.toNat
  room : P.segregated → ∀ t < K.treesLen, treeFree S t + alive t m ≤ treeSize
  capped : P.segregated → ∀ k ∈ m, 0 < k.amount → k.kind ≠ .owner →
    Capped (trees k.tree) k.tree m k.cls
  known : P.configured → (∀ t < K.treesLen, (trees t).cls < K.numClasses) ∧
    ∀ k ∈ m, k.kind = .owner → k.cls < K.numClasses
  full : P.pristine → ∀ t < K.treesLen, (trees t).free = treeSize → (trees t).cls = K.defaultClass

/-- A change of entry `t` from `tree` to `tree'` that exchanges tickets `x` for `x'`. -/
structure Move (P : Promise K) (t : Nat) (tree tree' : Tree) (x x' : Tickets) : Prop where
  before : ∀ k ∈ x, k.tree = t
  after : ∀ k ∈ x', k.tree = t
  balance : tree'.free + counted t x' = tree.free + counted t x
  owned : owners t x' + tree.reserved.toNat = owners t x + tree'.reserved.toNat
  alive : alive t x' = alive t x
  capped : P.segregated → tree'.free = treeSize ∨
    (∀ c, Capped tree t x c → Capped tree' t x' c) ∧
      ∀ k ∈ x', 0 < k.amount → k.kind ≠ .owner → Capped tree' t x' k.cls
  known : P.configured → tree.cls < K.numClasses →
    (∀ k ∈ x, k.kind = .owner → k.cls < K.numClasses) →
    tree'.cls < K.numClasses ∧ ∀ k ∈ x', k.kind = .owner → k.cls < K.numClasses
  full : P.pristine → (tree.free = treeSize → tree.cls = K.defaultClass) →
    tree'.free = treeSize → tree'.cls = K.defaultClass

variable {trees : Nat → Tree} {tree tree' : Tree} {S : Set Nat} {x x' F : Tickets}

theorem Books.free_le (books : Books P trees S (x + F)) (inside : t < K.treesLen) :
    (trees t).free + counted t x ≤ treeSize := by
  have balance := books.balance t inside
  have bound := treeFree_le S t
  simp only [counted_add] at balance
  simp only [treeSize]
  omega

private theorem Move.elsewhere (move : Move P t tree tree' x x') (F : Tickets) (other : s ≠ t) :
    counted s (x' + F) = counted s (x + F) ∧ owners s (x' + F) = owners s (x + F) := by
  obtain ⟨count, own, -⟩ := totals_elsewhere move.before other
  obtain ⟨count', own', -⟩ := totals_elsewhere move.after other
  rw [counted_add, counted_add, owners_add, owners_add, count, count', own, own']
  exact ⟨rfl, rfl⟩

private theorem alive_moved (move : Move P t tree tree' x x') (F : Tickets) (s : Nat) :
    alive s (x' + F) = alive s (x + F) := by
  rw [alive_add, alive_add]
  by_cases here : s = t
  · rw [here, move.alive]
  · rw [(totals_elsewhere move.before here).2.2, (totals_elsewhere move.after here).2.2]

private theorem Capped.exchange {c : Nat} (keeps : Capped tree t x c → Capped tree' t x' c)
    (capped : Capped tree t (x + F) c) : Capped tree' t (x' + F) c := by
  have mine : Capped tree t x c → Capped tree' t (x' + F) c := fun own =>
    (keeps own).mono fun j member => Multiset.mem_add.mpr (Or.inl member)
  rcases capped with entry | ⟨j, member, kind, here, le⟩
  · exact mine (Or.inl entry)
  · rcases Multiset.mem_add.mp member with own | other
    · exact mine (Or.inr ⟨j, own, kind, here, le⟩)
    · exact Or.inr ⟨j, Multiset.mem_add.mpr (Or.inr other), kind, here, le⟩

private theorem Capped.elsewhere {c : Nat} (before : ∀ k ∈ x, k.tree = t) (other : s ≠ t)
    (capped : Capped tree s (x + F) c) : Capped tree s (x' + F) c := by
  rcases capped with entry | ⟨j, member, kind, here, le⟩
  · exact Or.inl entry
  · have theirs : j ∈ F := (Multiset.mem_add.mp member).resolve_left fun mine =>
      other (here.symm.trans (before j mine))
    exact Or.inr ⟨j, Multiset.mem_add.mpr (Or.inr theirs), kind, here, le⟩

private theorem amount_of_full {free : Nat} (room : treeFree S t + alive t a ≤ treeSize)
    (balance : free + counted t a = treeFree S t) (full : free = treeSize) {k : Ticket}
    (member : k ∈ a) (here : k.tree = t) : k.amount = 0 := by
  have none := amount_le member
  have out := live_le member
  rw [here] at none out
  by_cases kind : k.kind = .live
  · have le := out kind
    omega
  · have le := none kind
    omega

theorem Books.move (books : Books P trees S (x + F)) (inside : t < K.treesLen)
    (entry : trees t = tree) (move : Move P t tree tree' x x') :
    Books P (Function.update trees t tree') S (x' + F) := by
  subst entry
  have at_t : Function.update trees t tree' t = tree' := Function.update_self ..
  have elsewhere : ∀ s, s ≠ t → Function.update trees t tree' s = trees s := fun s other =>
    Function.update_of_ne other ..
  have total : tree'.free + counted t (x' + F) = treeFree S t := by
    rw [← books.balance t inside]
    have balance := move.balance
    simp only [counted_add]
    omega
  have room : P.segregated → ∀ s < K.treesLen, treeFree S s + alive s (x' + F) ≤ treeSize := by
    intro on s bound
    rw [alive_moved move]
    exact books.room on s bound
  refine ⟨fun k member => ?_, fun s bound => ?_, fun s bound => ?_, room,
    fun on k member some free => ?_, fun on => ⟨fun s bound => ?_, fun k member kind => ?_⟩,
    fun on s bound => ?_⟩
  · rcases Multiset.mem_add.mp member with mine | others
    · rw [move.after k mine]
      exact inside
    · exact books.inside k (Multiset.mem_add.mpr (Or.inr others))
  · by_cases same : s = t
    · subst same
      rw [at_t]
      exact total
    · rw [elsewhere s same, (move.elsewhere F same).1]
      exact books.balance s bound
  · by_cases same : s = t
    · subst same
      have old := books.owned s bound
      have owned := move.owned
      rw [owners_add] at old
      rw [at_t, owners_add]
      omega
    · rw [elsewhere s same, (move.elsewhere F same).2]
      exact books.owned s bound
  · by_cases here : k.tree = t
    · rw [here, at_t]
      rcases move.capped on with full | ⟨keeps, new⟩
      · have zero := amount_of_full (room on t inside) total full member here
        exact absurd some (by omega)
      · rcases Multiset.mem_add.mp member with mine | others
        · exact (new k mine some free).mono fun j mem => Multiset.mem_add.mpr (Or.inl mem)
        · have old := books.capped on k (Multiset.mem_add.mpr (Or.inr others)) some free
          rw [here] at old
          exact old.exchange (keeps k.cls)
    · have others : k ∈ F :=
        (Multiset.mem_add.mp member).resolve_left fun mine => here (move.after k mine)
      rw [elsewhere _ here]
      exact (books.capped on k (Multiset.mem_add.mpr (Or.inr others)) some free).elsewhere
        move.before here
  · by_cases same : s = t
    · subst same
      rw [at_t]
      exact (move.known on ((books.known on).1 s bound) fun k mem =>
        (books.known on).2 k (Multiset.mem_add.mpr (Or.inl mem))).1
    · rw [elsewhere s same]
      exact (books.known on).1 s bound
  · rcases Multiset.mem_add.mp member with mine | others
    · exact (move.known on ((books.known on).1 t inside) fun k mem =>
        (books.known on).2 k (Multiset.mem_add.mpr (Or.inl mem))).2 k mine kind
    · exact (books.known on).2 k (Multiset.mem_add.mpr (Or.inr others)) kind
  · by_cases same : s = t
    · subst same
      rw [at_t]
      exact move.full on (books.full on s bound)
    · rw [elsewhere s same]
      exact books.full on s bound

end LLFree.Upper.Ledger

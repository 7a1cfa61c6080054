/- module: LLFree/Upper/Online
   digest: Bringing a tree online while other threads allocate and free in it. -/

import LLFree.Upper.Effort
import LLFree.Upper.Offline
import Mathlib.Algebra.Order.BigOperators.Group.Finset

/-!
The frames of a tree that nothing counts are a stock next to the memory: allocations and frees leave
it alone, and a change that brings the tree online takes out of it what it counts. What the
statistics say is the stock only where nothing is counted or in hand.
-/

set_option autoImplicit false
set_option relaxedAutoImplicit false

namespace LLFree.Upper.Online

open LLFree.Atomic.Program LLFree.Atomic.Escrow LLFree.Atomic.Pool LLFree.Atomic.Bounded
open LLFree.Code.Types
open LLFree.Code.Entries LLFree.Code.Lower LLFree.Code.Trees LLFree.Code.Shared LLFree.Code.Llfree
open LLFree.Lower.Quiet LLFree.Lower.FrameSet LLFree.Lower.FreeCount LLFree.Lower.Statistics
open LLFree.Upper.Ledger
open LLFree.Upper.Slots LLFree.Upper.Steps LLFree.Upper.Calls LLFree.Upper.Sequential
open LLFree.Upper.Balance LLFree.Upper.Conservation LLFree.Upper.Tidied LLFree.Upper.Changes
open LLFree.Upper.Offline LLFree.Upper.Effort

variable {K : Config}

/-! ## Threads -/

/-- The counter of each tree and that of its slot are at most its free frames. -/
structure Covered (K : Config) (s : Llfree Lower) : Prop where
  lower : Consistent K.frames s.lower
  slots : ∀ c i, K.HasSlot c i → SlotOk K (s.upper.slots c i)
  owned : ∀ t < K.treesLen, (holders K s.upper t).card = (s.upper.trees t).reserved.toNat
  counters : ∀ t < K.treesLen, (s.upper.trees t).free +
    ∑ p ∈ holders K s.upper t, (s.upper.slots p.1 p.2).free ≤ groupFree s.lower (t * treeChildren)

/-- Allocations, frees, drains, and changes that bring trees online. The loop of a change may be
given up after any number of turns. -/
inductive OnlineCall (fits : Fits K) : Unit → Unit → UpProg Unit → Prop
  | other {p : UpProg Unit} (call : ThreadCall (tidyWords fits) () () p) : OnlineCall fits () () p
  | online (turns : Nat) (matcher : TreeMatch) (change : TreeChange)
      (operation : change.operation = .online) :
      OnlineCall fits () () ((llfreeChangeTree K turns matcher change).quietly >>= fun _ => pure ())

/-- The weak exchange of `trees_change_at` may fail on the very entry that it expects. -/
def Spurious (K : Config) (u : Upper) : (o : UpOp) → o.Res → Prop
  | .table (.treesCas idx _ _), (done, seen) =>
    idx < K.treesLen ∧ done = false ∧ seen = u.trees idx
  | _, _ => False

def weakSys {L : Type} (K : Config) (low : LowerModel L K.frames) :
    Sys UpOp UpOp.Res (Llfree L) where
  next o s r s' := (upperSys K low).next o s r s' ∨ Spurious K s.upper o r ∧ s' = s
  fails := (upperSys K low).fails

section Pools

variable {ι : Type} [Fintype ι] [DecidableEq ι]

/-- The frames of tree `t` that its slot counts, or that a call has in hand: taken from a counter
and not yet allocated, or freed and not yet counted. -/
def outstanding (K : Config) (T : UpperThreads Lower ι) (t : Nat) : Int :=
  ∑ p ∈ holders K T.mem.upper t, ((T.mem.upper.slots p.1 p.2).free : Int) + ∑ i, (T.ledger i).1 t

/-- No frame of tree `t` is counted or in hand. -/
def Untouched (K : Config) (T : UpperThreads Lower ι) (t : Nat) : Prop :=
  (T.mem.upper.trees t).free = 0 ∧ outstanding K T t = 0

instance (T : UpperThreads Lower ι) (t : Nat) : Decidable (Untouched K T t) :=
  inferInstanceAs (Decidable (_ ∧ _))

/-- For each thread the tree whose statistics it read with its last step, if that tree was
untouched then and no change has brought it online since. -/
abbrev Reads (ι : Type) := ι → Option Nat

def watch (K : Config) (T : UpperThreads Lower ι) (reads : Reads ι) (i : ι) :
    (o : UpOp) → o.Res → Reads ι
  | .lowerStatsAt frame _, _ => Function.update reads i
    (if Untouched K T (treeFromFrame frame) then some (treeFromFrame frame) else none)
  | .table (.treesCas idx _ _), (true, _) =>
    Function.update (fun j => if reads j = some idx then none else reads j) i none
  | _, _ => Function.update reads i none

/-- A change brings a tree online only with statistics that it read while the tree was untouched,
and that no other change has used since. -/
def Fresh (reads : Reads ι) (i : ι) : (o : UpOp) → o.Res → Prop
  | .table (.treesCas idx _ _), (true, _) => reads i = some idx
  | _, _ => True

/-- The pools and reads that interleavings with fresh exchanges reach from idle threads. -/
def OnlineReaches (fits : Fits K) (s : Llfree Lower) (T : UpperThreads Lower ι)
    (reads : Reads ι) : Prop :=
  Relation.ReflTransGen
    (RecordedStep (weakSys K (tidyWords fits)) upperDelta (OnlineCall fits) (fun _ => Fresh)
      (watch K))
    (Threads.idle s fun _ => (), fun _ => none) (T, reads)

/-- What holds at every moment. -/
structure Tracked (K : Config) (T : UpperThreads Lower ι) : Prop where
  counters : ∀ t < K.treesLen, ((T.mem.upper.trees t).free : Int) + outstanding K T t ≤
    groupFree T.mem.lower (t * treeChildren)
  flight : ∀ i t, 0 ≤ (T.ledger i).1 t
  /-- With all calls returned the counters are covered again. -/
  idle : (∀ i, T.thread i = .ret ()) → Covered K T.mem
  /-- No thread stands at a failed assertion, or before an access to an entry or a slot that
  fails. -/
  assertions : ∀ i, T.thread i ≠ .abort ∧
    ∀ o k, T.thread i = .step (.table o) k → o.exec K T.mem.upper ≠ none

end Pools

/-! ## The stock -/

variable {L : Type} {low : LowerModel L K.frames} {α : Type} {m E E' : Tickets}
  {Q : α → Tickets → Prop}

def Stock (K : Config) (E : Tickets) : Prop := ∀ k ∈ E, k.kind = .credit ∧ k.tree < K.treesLen

def Restocked (K : Config) : (o : UpOp) → o.Res → Tickets → Tickets → Prop
  | .table (.treesCas idx expected desired), (true, _), E, E' => Stock K E' ∧
    ∀ t, counted t E' + (if t = idx then desired.free else 0) =
      counted t E + if t = idx then expected.free else 0
  | _, _, E, E' => E' = E

def stockAccounting (low : LowerModel L K.frames) :
    Accounting UpOp UpOp.Res (Llfree L × Tickets) Tickets Amount where
  sys :=
    { next := fun o x r x' => (weakSys K low).next o x.1 r x'.1 ∧ Restocked K o r x.2 x'.2
      fails := fun o x => (weakSys K low).fails o x.1 }
  inv x m := Stock K x.2 ∧ Sound (plainPromise K) low x.1 (m + x.2)
  amt := upperAmount
  delta := upperDelta
  mayAbort := False

private theorem sound_restock {s : Llfree L} {u : Upper} (old : Stock K E) (new : Stock K E')
    (slots : u.slots = s.upper.slots)
    (reserved : ∀ t, (u.trees t).reserved = (s.upper.trees t).reserved)
    (counts : ∀ t, (u.trees t).free + counted t E' = (s.upper.trees t).free + counted t E)
    (sound : Sound (plainPromise K) low s (m + E)) :
    Sound (plainPromise K) low { s with upper := u } (m + E') := by
  have tickets : slotTickets K u = slotTickets K s.upper := by rw [slotTickets, slotTickets, slots]
  refine ⟨sound.good, fun c i has => ?_, fun k member => ?_, fun t inside => ?_, fun t inside => ?_,
    False.elim, False.elim, False.elim, False.elim⟩
  · dsimp only
    rw [slots]
    exact sound.slots c i has
  · rw [tickets, ← add_assoc] at member
    rcases Multiset.mem_add.mp member with held | stocked
    · apply sound.books.inside k
      rw [← add_assoc]
      exact Multiset.mem_add.mpr (Or.inl held)
    · exact (new k stocked).2
  · have balance := sound.books.balance t inside
    have count := counts t
    rw [counted_add, counted_add] at balance
    rw [tickets, counted_add, counted_add]
    dsimp only at count ⊢
    omega
  · have owned := sound.books.owned t inside
    have none := owners_credits (fun k member => (old k member).1) t
    have none' := owners_credits (fun k member => (new k member).1) t
    rw [owners_add, owners_add, none] at owned
    rw [tickets, owners_add, owners_add, none', reserved]
    exact owned

private theorem cas_done {idx : Nat} {expected desired : Tree} {u u' : Upper} {r : Bool × Tree}
    (done : (TableOp.treesCas idx expected desired).exec K u = some (r, u')) :
    (r = (true, expected) ∧ u.trees idx = expected ∧ u' = u.setTree idx desired) ∨
      r = (false, u.trees idx) ∧ u' = u := by
  cases table_effect done with
  | exchanged seen => exact Or.inl ⟨rfl, seen, rfl⟩
  | differed => exact Or.inr ⟨rfl, rfl⟩

private theorem given_any (o : UpOp) (r : o.Res) : (upTerms False).given o r := by
  cases o with
  | table o =>
    cases o with
    | treesReserveOrSteal idx frames cls => exact fun bad => bad.elim
    | localTake cls index treeIdx frames => exact fun bad => bad.elim
    | _ => trivial
  | _ => trivial

/-- What a call without exchanges does when all frames are counted, it does next to any stock. -/
theorem safe_stocked {C : Tickets → Prop} {p : UpProg α} {n : Nat}
    (bounded : (upTerms False).AtMost n p)
    (safe : (upperAccounting (plainPromise K) low).Safe C p m Q) :
    (stockAccounting low).Safe C p m Q := by
  induction p generalizing m n with
  | ret a => exact safe
  | abort => exact safe
  | step o k ih =>
    obtain ⟨asks, l, -, more⟩ := bounded
    refine ⟨safe.1, ?_⟩
    rintro ⟨s, E⟩ F ⟨stock, sound⟩
    dsimp only at stock sound
    rw [add_assoc] at sound
    obtain ⟨fault, moves⟩ := safe.2 s (F + E) sound
    refine ⟨fault, ?_⟩
    rintro r ⟨s', E'⟩ ⟨weak, restocked⟩
    have plain : (upperSys K low).next o s r s' ∧ E' = E := by
      rcases weak with next | ⟨lost, -⟩
      · refine ⟨next, ?_⟩
        cases o with
        | lower c => exact restocked
        | lowerStatsAt frame order => exact restocked
        | table o =>
          cases o with
          | treesCas idx expected desired => exact absurd asks id
          | _ => exact restocked
      · cases o with
        | lower c => exact absurd lost id
        | lowerStatsAt frame order => exact absurd lost id
        | table o =>
          cases o with
          | treesCas idx expected desired => exact absurd asks id
          | _ => exact absurd lost id
    obtain ⟨next, rfl⟩ := plain
    obtain ⟨m', sound', amount, rest⟩ := moves r s' next
    refine ⟨m', ⟨stock, ?_⟩, amount, ih r (more r (given_any o r)) rest⟩
    change Sound (plainPromise K) low s' (m' + F + E')
    change Sound (plainPromise K) low s' (m' + (F + E')) at sound'
    rwa [← add_assoc] at sound'

/-! ## Bringing a tree online -/

private theorem safe_load {t : Nat} {k : Tree → UpProg α} (inside : t < K.treesLen)
    (rest : ∀ tree, (stockAccounting low).Ok (k tree) m Q) :
    (stockAccounting low).Ok (.step (.table (.treesLoad t)) k) m Q := by
  refine ⟨trivial, ?_⟩
  rintro ⟨s, E⟩ F ⟨stock, sound⟩
  have exec : (TableOp.treesLoad t).exec K s.upper = some (s.upper.trees t, s.upper) := by
    rw [TableOp.exec, if_pos inside]
  constructor
  · intro stuck
    cases exec.symm.trans stuck
  · rintro r ⟨s', E'⟩ ⟨⟨u, done, rfl⟩ | ⟨lost, -⟩, restocked⟩
    swap
    · exact absurd lost id
    obtain ⟨rfl, rfl⟩ := Prod.mk.inj (Option.some.inj (exec.symm.trans done))
    obtain rfl : E' = E := restocked
    exact ⟨m, ⟨stock, sound⟩, (add_zero _).symm, rest _⟩

private theorem safe_stats {frame order : Nat} {k : Stats → UpProg α}
    (rest : ∀ stats, (stockAccounting low).Ok (k stats) m Q) :
    (stockAccounting low).Ok (.step (.lowerStatsAt frame order) k) m Q := by
  refine ⟨trivial, ?_⟩
  rintro ⟨s, E⟩ F inv
  refine ⟨False.elim, ?_⟩
  rintro r ⟨s', E'⟩ ⟨⟨rfl, rfl⟩ | ⟨lost, -⟩, restocked⟩
  swap
  · exact absurd lost id
  obtain rfl : E' = E := restocked
  exact ⟨m, inv, (add_zero _).symm, rest _⟩

private theorem safe_cas {t : Nat} {expected desired : Tree} {k : Bool × Tree → UpProg α}
    (inside : t < K.treesLen) (reserved : desired.reserved = expected.reserved)
    (rest : ∀ r, (stockAccounting low).Ok (k r) m Q) :
    (stockAccounting low).Ok (.step (.table (.treesCas t expected desired)) k) m Q := by
  refine ⟨trivial, ?_⟩
  rintro ⟨s, E⟩ F ⟨stock, sound⟩
  constructor
  · intro stuck
    change (TableOp.treesCas t expected desired).exec K s.upper = none at stuck
    simp only [TableOp.exec, if_pos inside] at stuck
    split_ifs at stuck
  · rintro r ⟨s', E'⟩ ⟨⟨u, done, rfl⟩ | ⟨⟨-, lost, -⟩, rfl⟩, restocked⟩
    · rcases cas_done done with ⟨rfl, seen, rfl⟩ | ⟨rfl, rfl⟩
      · obtain ⟨stock', counts⟩ := restocked
        refine ⟨m, ⟨stock', sound_restock stock stock' rfl (fun i => ?_) (fun i => ?_) sound⟩,
          (add_zero _).symm, rest _⟩
        · by_cases here : i = t
          · rw [here, setTree_trees, Function.update_self, reserved]
            exact congrArg Tree.reserved seen.symm
          · rw [setTree_trees, Function.update_of_ne here]
        · have count := counts i
          dsimp only at count seen ⊢
          by_cases here : i = t
          · subst here
            rw [setTree_trees, Function.update_self, seen]
            rw [if_pos rfl, if_pos rfl] at count
            omega
          · rw [setTree_trees, Function.update_of_ne here]
            rw [if_neg here, if_neg here] at count
            omega
      · obtain rfl : E' = E := restocked
        exact ⟨m, ⟨stock, sound⟩, (add_zero _).symm, rest _⟩
    · obtain ⟨done, seen⟩ := r
      obtain rfl : done = false := lost
      obtain rfl : E' = E := restocked
      exact ⟨m, ⟨stock, sound⟩, (add_zero _).symm, rest _⟩

private theorem safe_changeLoop {idx : Nat} {matcher : TreeMatch} {change : TreeChange}
    (inside : idx < K.treesLen) (operation : change.operation = .online) (left : Nat) (old : Tree) :
    (stockAccounting low).Ok (changeLoop idx matcher change left old).quietly m fun _ x =>
      x = m := by
  induction left generalizing old with
  | zero => exact ⟨trivial, rfl⟩
  | succ left ih =>
    simp only [changeLoop, operation, if_true, lowerStatsStep, treesCas, Prog.step_bind,
      Prog.ret_bind, Prog.pure_eq, Prog.quietly]
    apply safe_stats
    intro stats
    cases step : treeChange old matcher.cls matcher.free change.cls .online stats.freeFrames with
    | none => exact ⟨trivial, rfl⟩
    | some desired =>
      obtain ⟨idle, -, -, -, same⟩ := treeChange_cases step
      apply safe_cas inside (by rw [same, idle])
      rintro ⟨done, seen⟩
      dsimp only
      split_ifs
      · exact ⟨trivial, rfl⟩
      · exact ih seen

private theorem safe_changeAt {turns idx : Nat} {matcher : TreeMatch} {change : TreeChange}
    (inside : idx < K.treesLen) (operation : change.operation = .online) :
    (stockAccounting low).Ok (treesChangeAt turns matcher change idx).quietly m fun _ x =>
      x = m := by
  simp only [treesChangeAt, treesLoad, Prog.step_bind, Prog.ret_bind, Prog.quietly]
  exact safe_load inside fun old => safe_changeLoop inside operation turns old

theorem safe_online {turns : Nat} {matcher : TreeMatch} {change : TreeChange}
    (some : 0 < K.treesLen) (operation : change.operation = .online) :
    (stockAccounting low).Ok (llfreeChangeTree K turns matcher change).quietly m
      fun _ x => x = m := by
  simp only [llfreeChangeTree]
  split_ifs
  · exact ⟨trivial, rfl⟩
  · cases matcher.id with
    | some idx =>
      dsimp only
      split_ifs with outside
      · exact ⟨trivial, rfl⟩
      · exact safe_changeAt (Nat.lt_of_not_le outside) operation
    | none =>
      refine Accounting.safe_quietly_bind (Accounting.safe_quietly_firstSome trivial fun i _ => ?_)
        (fun a x same => ⟨trivial, same⟩) fun _ => id
      refine Accounting.safe_quietly_bind (safe_changeAt (searchIdx_lt some) operation)
        (fun a x same => ⟨trivial, same⟩) fun _ => id

/-! ## What a change stores -/

def lastRead : (o : UpOp) → o.Res → Option (Nat × Nat)
  | .lowerStatsAt frame order, stats =>
    if order = treeOrder ∧ frame = frameFromTree (treeFromFrame frame) then
      some (treeFromFrame frame, stats.freeFrames)
    else none
  | _, _ => none

def Stores : UpOp → Option (Nat × Nat) → Prop
  | .table (.treesCas idx expected desired), last =>
    expected.free = 0 ∧ last = some (idx, desired.free)
  | _, _ => True

def StoresRead : UpProg α → Option (Nat × Nat) → Prop
  | .ret _, _ => True
  | .abort, _ => True
  | .step o k, last => Stores o last ∧ ∀ r, StoresRead (k r) (lastRead o r)

variable {p : UpProg α} {last : Option (Nat × Nat)}

private theorem storesRead_mono (stores : StoresRead p none) : StoresRead p last := by
  cases p with
  | ret a => trivial
  | abort => trivial
  | step o k =>
    refine ⟨?_, stores.2⟩
    cases o with
    | table o =>
      cases o with
      | treesCas idx expected desired => exact absurd stores.1.2 (by simp)
      | _ => trivial
    | _ => trivial

private theorem storesRead_bind {β : Type} {f : α → UpProg β} (first : StoresRead p last)
    (rest : ∀ a, StoresRead (f a) none) : StoresRead (p >>= f) last := by
  induction p generalizing last with
  | ret a => exact storesRead_mono (rest a)
  | abort => trivial
  | step o k ih => exact ⟨first.1, fun r => ih r (first.2 r)⟩

private theorem storesRead_quietly (stores : StoresRead p last) : StoresRead p.quietly last := by
  induction p generalizing last with
  | ret a => trivial
  | abort => trivial
  | step o k ih => exact ⟨stores.1, fun r => ih r (stores.2 r)⟩

private theorem storesRead_firstSome {β : Type} {f : β → UpProg (Option α)} (xs : List β)
    (each : ∀ x, StoresRead (f x) none) : StoresRead (Prog.firstSome xs f) none := by
  induction xs with
  | nil => trivial
  | cons x xs ih =>
    refine storesRead_bind (each x) fun r => ?_
    cases r with
    | some a => trivial
    | none => exact ih

private theorem storesRead_atMost {n : Nat} (bounded : (upTerms False).AtMost n p) :
    StoresRead p last := by
  induction p generalizing n last with
  | ret a => trivial
  | abort => trivial
  | step o k ih =>
    obtain ⟨asks, l, -, more⟩ := bounded
    refine ⟨?_, fun r => ih r (more r (given_any o r))⟩
    cases o with
    | table o =>
      cases o with
      | treesCas idx expected desired => exact absurd asks id
      | _ => trivial
    | _ => trivial

private theorem storesRead_changeLoop {idx : Nat} {matcher : TreeMatch} {change : TreeChange}
    (operation : change.operation = .online) (left : Nat) (old : Tree) :
    StoresRead (changeLoop idx matcher change left old) none := by
  induction left generalizing old with
  | zero => trivial
  | succ left ih =>
    simp only [changeLoop, operation, if_true, lowerStatsStep, treesCas, Prog.step_bind,
      Prog.ret_bind, Prog.pure_eq]
    refine ⟨trivial, fun stats => ?_⟩
    dsimp only
    cases step : treeChange old matcher.cls matcher.free change.cls .online stats.freeFrames with
    | none => trivial
    | some desired =>
      obtain ⟨-, -, -, empty, same⟩ := treeChange_cases step
      have whole : treeFromFrame (frameFromTree idx) = idx := by
        simp only [treeFromFrame, frameFromTree, treeSize]
        omega
      refine ⟨⟨empty rfl, ?_⟩, fun r => ?_⟩
      · rw [lastRead, whole, if_pos ⟨rfl, rfl⟩, same]
      · dsimp only
        split_ifs
        · trivial
        · exact ih r.2

private theorem storesRead_changeTree {turns : Nat} {matcher : TreeMatch} {change : TreeChange}
    (operation : change.operation = .online) :
    StoresRead (llfreeChangeTree K turns matcher change) none := by
  have one : ∀ idx, StoresRead (treesChangeAt turns matcher change idx) none := by
    intro idx
    simp only [treesChangeAt, treesLoad, Prog.step_bind, Prog.ret_bind]
    exact ⟨trivial, storesRead_changeLoop operation turns⟩
  simp only [llfreeChangeTree]
  split_ifs
  · trivial
  · cases matcher.id with
    | some idx =>
      dsimp only
      split_ifs
      · trivial
      · exact one idx
    | none =>
      refine storesRead_bind (storesRead_firstSome _ fun i => ?_) fun r => trivial
      exact storesRead_bind (one _) fun r => trivial

private theorem threadCall_atMost {low : LowerModel L K.frames} {p : UpProg Unit}
    (call : ThreadCall low () () p) : (upTerms False).AtMost (callBound K) p := by
  cases call with
  | get frame request served =>
    exact Terms.atMost_bind (m := 0) (atMost_llfreeGet frame request) fun _ => trivial
  | put frame request served =>
    exact Terms.atMost_bind (m := 0) (atMost_llfreePut frame request) fun _ => trivial
  | drain => exact atMost_llfreeDrain

private theorem storesRead_call {fits : Fits K} {p : UpProg Unit}
    (call : OnlineCall fits () () p) : StoresRead p last := by
  cases call with
  | other call =>
    exact storesRead_atMost (threadCall_atMost call)
  | online turns matcher change operation =>
    apply storesRead_mono
    exact storesRead_bind (storesRead_quietly (storesRead_changeTree operation)) fun r => trivial

/-! ## Interleavings -/

private theorem restock {t : Nat} (old new : Nat) (inside : t < K.treesLen) (stock : Stock K E)
    (enough : new ≤ counted t E + old) :
    ∃ E', Stock K E' ∧ ∀ i, counted i E' + (if i = t then new else 0) =
      counted i E + if i = t then old else 0 := by
  obtain ⟨split, here, elsewhere⟩ := split_tree t E
  refine ⟨E.filter (¬ ·.tree = t) + credit t (counted t E + old - new) 0, ?_, fun i => ?_⟩
  · intro k member
    rcases Multiset.mem_add.mp member with kept | traded
    · exact stock k (Multiset.mem_filter.mp kept).1
    · rw [mem_credit.mp traded]
      exact ⟨rfl, inside⟩
  · rw [counted_add, counted_credit]
    by_cases same : i = t
    · subst same
      have total := congrArg (counted i) split
      rw [counted_add, here] at total
      rw [if_pos rfl, if_pos rfl, if_pos rfl]
      omega
    · rw [elsewhere i same, if_neg (Ne.symm same), if_neg same, if_neg same]

/-- The count `last` that a thread has read is the stock of its tree if the read stands, and exceeds
the stock otherwise. -/
def Backs (K : Config) (E : Tickets) (read : Option Nat) (last : Option (Nat × Nat)) : Prop :=
  ∀ t n, last = some (t, n) → t < K.treesLen →
    (read = some t → n = counted t E) ∧ (read ≠ some t → n = 0 ∨ counted t E < n)

theorem backs_none {read : Option Nat} : Backs K E read none := by
  intro t n bad
  cases bad

private theorem backs_traded {E' : Tickets} {idx : Nat} {expected desired : Tree}
    {read : Option Nat} {last : Option (Nat × Nat)} (backs : Backs K E read last)
    (empty : expected.free = 0) (count : desired.free = counted idx E)
    (counts : ∀ t, counted t E' + (if t = idx then desired.free else 0) =
      counted t E + if t = idx then expected.free else 0) :
    Backs K E' (if read = some idx then none else read) last := by
  intro t n own inside
  obtain ⟨stands, stale⟩ := backs t n own inside
  have traded := counts t
  by_cases here : t = idx
  · subst here
    rw [if_pos rfl, if_pos rfl] at traded
    refine ⟨fun bad => ?_, fun _ => by omega⟩
    split_ifs at bad with used
    exact absurd bad used
  · rw [if_neg here, if_neg here, add_zero, add_zero] at traded
    rw [traded]
    split_ifs with used
    · subst used
      exact ⟨fun bad => (by cases bad), fun _ => stale fun bad => here (Option.some.inj bad).symm⟩
    · exact ⟨stands, stale⟩

def Backed {ι : Type} (K : Config) (P : ι → UpProg Unit) (reads : Reads ι) (E : Tickets) : Prop :=
  ∃ last : ι → Option (Nat × Nat),
    (∀ i, StoresRead (P i) (last i)) ∧ ∀ i, Backs K E (reads i) (last i)

private theorem backed_update {ι : Type} [DecidableEq ι] {P : ι → UpProg Unit} {reads : Reads ι}
    {E' : Tickets} {last : ι → Option (Nat × Nat)} {i : ι} {p : UpProg Unit}
    {read : Option (Nat × Nat)} (stores : ∀ j, StoresRead (P j) (last j))
    (mine : StoresRead p read) (own : Backs K E' (reads i) read)
    (others : ∀ j ≠ i, Backs K E' (reads j) (last j)) :
    Backed K (Function.update P i p) reads E' := by
  refine ⟨Function.update last i read, fun j => ?_, fun j => ?_⟩
  · by_cases same : j = i
    · subst same
      rwa [Function.update_self, Function.update_self]
    · rw [Function.update_of_ne same, Function.update_of_ne same]
      exact stores j
  · by_cases same : j = i
    · subst same
      rwa [Function.update_self]
    · rw [Function.update_of_ne same]
      exact others j same

-- The free frames of each tree that its counter and its slot do not count.
private def spare (K : Config) (s : Llfree Lower) : Tickets :=
  ∑ t ∈ Finset.range K.treesLen, credit t (groupFree s.lower (t * treeChildren) -
    ((s.upper.trees t).free + ∑ p ∈ holders K s.upper t, (s.upper.slots p.1 p.2).free)) 0

private theorem spare_stock (s : Llfree Lower) : Stock K (spare K s) := by
  intro k member
  obtain ⟨t, inside, here⟩ := Multiset.mem_sum.mp member
  rw [mem_credit.mp here]
  exact ⟨rfl, Finset.mem_range.mp inside⟩

variable {fits : Fits K} {s : Llfree Lower}

private theorem sound_covered (covered : Covered K s) :
    Sound (plainPromise K) (tidyWords fits) s (0 + spare K s) := by
  rw [zero_add]
  refine ⟨covered.lower, covered.slots, fun k member => ?_, fun t inside => ?_, fun t inside => ?_,
    False.elim, False.elim, False.elim, False.elim⟩
  · rcases Multiset.mem_add.mp member with slot | stock
    · obtain ⟨p, has, here⟩ := Multiset.mem_sum.mp slot
      unfold slotTicket at here
      split_ifs at here with present
      · rw [mem_owner.mp here]
        exact (covered.slots p.1 p.2 (mem_slotIds.mp has)).tree present
      · exact absurd here (Multiset.notMem_zero k)
    · exact (spare_stock s k stock).2
  · have counters := covered.counters t inside
    have frames := groupFree_eq covered.lower inside
    change _ = treeFree (freeSet s.lower) t
    rw [counted_add, counted_slots, spare, counted_sum]
    simp only [counted_credit, Finset.sum_ite_eq', Finset.mem_range, inside, if_true]
    rw [← frames]
    change _ ≤ groupFree s.lower (t * 8) at counters
    change _ + (_ + (groupFree s.lower (t * 8) - _)) = _
    omega
  · rw [owners_add, owners_slots, owners_credits (fun k member => (spare_stock s k member).1),
      add_zero]
    exact covered.owned t inside

section Pools

variable {ι : Type} [Fintype ι] [DecidableEq ι] {T : UpperThreads Lower ι} {m : ι → Tickets}
  (balanced : Balanced (stockAccounting (tidyWords fits)) threadBacking 0 (T.haunted E) m)

include balanced

omit [DecidableEq ι] in
private theorem shares {t : Nat} (inside : t < K.treesLen) :
    ((T.mem.upper.trees t).free : Int) + outstanding K T t + counted t E =
      groupFree T.mem.lower (t * treeChildren) := by
  have sound : Sound (plainPromise K) (tidyWords fits) T.mem (∑ i, m i + 0 + E) := balanced.inv.2
  have ledger : ∀ i, (T.ledger i).1 t = counted t (m i) := by
    intro i
    change ((T.haunted E).ledger i).1 t = _
    rw [← balanced.ledger i]
    rfl
  have total := sound.books.balance t inside
  change _ = treeFree (freeSet T.mem.lower) t at total
  rw [add_zero, counted_add, counted_add, counted_slots, counted_sum,
    ← groupFree_eq sound.good inside] at total
  rw [outstanding, Finset.sum_congr rfl fun i _ => ledger i]
  have cast := congrArg (Nat.cast (R := Int)) total
  rw [Nat.cast_add, Nat.cast_add, Nat.cast_add, Nat.cast_sum, Nat.cast_sum] at cast
  change _ = ((groupFree T.mem.lower (t * 8) : Nat) : Int)
  omega

omit [DecidableEq ι] in
private theorem outstanding_nonneg (t : Nat) : 0 ≤ outstanding K T t := by
  refine Int.add_nonneg (Finset.sum_nonneg fun p _ => Int.natCast_nonneg _)
    (Finset.sum_nonneg fun i _ => ?_)
  change 0 ≤ ((T.haunted E).ledger i).1 t
  rw [← balanced.ledger i]
  exact Int.natCast_nonneg _

omit [DecidableEq ι] in
private theorem backs_read {frame order : Nat} :
    Backs K E (if Untouched K T (treeFromFrame frame) then some (treeFromFrame frame) else none)
      (lastRead (.lowerStatsAt frame order) (lowerStatsAt T.mem.lower frame order)) := by
  intro t n last inside
  simp only [lastRead] at last
  split_ifs at last with whole
  obtain ⟨rfl, start⟩ := whole
  obtain ⟨here, rfl⟩ := Prod.mk.inj (Option.some.inj last)
  have sound : Sound (plainPromise K) (tidyWords fits) T.mem (∑ i, m i + 0 + E) := balanced.inv.2
  have total := shares balanced inside
  have nonneg := outstanding_nonneg balanced t
  have past : frame < K.frames := by
    rw [start, here]
    exact frameFromTree_lt inside
  rw [here, stats_tree_free sound.good past here]
  change _ = ((groupFree T.mem.lower (t * 8) : Nat) : Int) at total
  split_ifs with quiet
  · refine ⟨fun _ => ?_, fun other => absurd rfl other⟩
    obtain ⟨none, nothing⟩ := quiet
    omega
  · refine ⟨fun bad => (by cases bad), fun _ => ?_⟩
    by_cases empty : (T.mem.upper.trees t).free = 0
    · have busy : outstanding K T t ≠ 0 := fun nothing => quiet ⟨empty, nothing⟩
      omega
    · omega

private theorem follows {P : ι → UpProg Unit} {reads : Reads ι} {i : ι} {o : UpOp} {r : o.Res}
    {k : o.Res → UpProg Unit} {s : Llfree Lower} (backed : Backed K P reads E)
    (next : P i = .step o k) (effect : (weakSys K (tidyWords fits)).next o T.mem r s)
    (fresh : Fresh reads i o r) :
    ∃ E', (stockAccounting (tidyWords fits)).sys.next o (T.mem, E) r (s, E') ∧
      Backed K (Function.update P i (k r)) (watch K T reads i o r) E' := by
  obtain ⟨last, stores, backs⟩ := backed
  have mine := stores i
  rw [next] at mine
  -- as long as the stock stays, only the reads of this thread change
  have stays : ∀ read, watch K T reads i o r = Function.update reads i read →
      Backs K E read (lastRead o r) → Restocked K o r E E →
      ∃ E', (stockAccounting (tidyWords fits)).sys.next o (T.mem, E) r (s, E') ∧
        Backed K (Function.update P i (k r)) (watch K T reads i o r) E' := by
    intro read watched own restocked
    refine ⟨E, ⟨effect, restocked⟩, ?_⟩
    rw [watched]
    apply backed_update stores (mine.2 r)
    · rwa [Function.update_self]
    · intro j other
      rw [Function.update_of_ne other]
      exact backs j
  cases o with
  | lower c => exact stays none rfl backs_none rfl
  | lowerStatsAt frame order =>
    rcases effect with ⟨rfl, -⟩ | ⟨lost, -⟩
    · exact stays _ rfl (backs_read balanced) rfl
    · exact absurd lost id
  | table o =>
    cases o with
    | treesCas idx expected desired =>
      obtain ⟨done, seen⟩ := r
      cases done with
      | false => exact stays none rfl backs_none rfl
      | true =>
        obtain ⟨empty, read⟩ := mine.1
        have weak := effect
        rcases weak with ⟨u, exec, -⟩ | ⟨⟨-, lost, -⟩, -⟩
        swap
        · cases lost
        have inside : idx < K.treesLen := by
          by_contra outside
          rw [TableOp.exec, if_neg outside] at exec
          cases exec
        have count := ((backs i) idx desired.free read inside).1 fresh
        obtain ⟨E', stock', counts⟩ := restock expected.free desired.free inside
          (show Stock K E from balanced.inv.1) (by omega)
        refine ⟨E', ⟨effect, stock', counts⟩, ?_⟩
        apply backed_update stores (mine.2 _) backs_none
        intro j other
        rw [watch, Function.update_of_ne other]
        exact backs_traded (backs j) empty count counts
    | _ => exact stays none rfl backs_none rfl

private theorem tracked_of_balanced : Tracked K T := by
  have faults := balanced_no_fault (fun stuck => stuck) balanced
  have sound : Sound (plainPromise K) (tidyWords fits) T.mem (∑ i, m i + 0 + E) := balanced.inv.2
  refine ⟨fun t inside => ?_, fun i t => ?_, fun quiet => ?_, fun i => ⟨(faults i).1, ?_⟩⟩
  · have total := shares balanced inside
    omega
  · change 0 ≤ ((T.haunted E).ledger i).1 t
    rw [← balanced.ledger i]
    exact Int.natCast_nonneg _
  · have stock : Stock K E := balanced.inv.1
    have none : ∀ i, upperAmount (m i) = 0 :=
      fun i => amount_lives (balanced_ret balanced (quiet i))
    have ledger : ∀ i, T.ledger i = 0 := fun i => (balanced.ledger i).symm.trans (none i)
    have tokens : ∀ t, ∑ i, owners t (m i) = 0 := by
      intro t
      apply Finset.sum_eq_zero
      intro i _
      have token := congrFun (congrArg Prod.snd (none i)) t
      exact Int.natCast_eq_zero.mp token
    refine ⟨sound.good, sound.slots, fun t inside => ?_, fun t inside => ?_⟩
    · have owned := sound.books.owned t inside
      rw [add_zero, owners_add, owners_add, owners_slots, owners_sum, tokens t,
        owners_credits (fun k member => (stock k member).1), add_zero, add_zero] at owned
      exact owned
    · have total := shares balanced inside
      simp only [outstanding, ledger, Prod.fst_zero, Pi.zero_apply, Finset.sum_const_zero,
        add_zero] at total
      have cast := Nat.cast_sum (R := Int) (holders K T.mem.upper t)
        fun p => (T.mem.upper.slots p.1 p.2).free
      omega
  · intro o k next stuck
    apply (faults i).2 _ k next
    cases o with
    | treesUnreserve idx free cls => exact Or.inl stuck
    | _ => exact stuck

end Pools

private theorem online_calls (fits : Fits K) (some : 0 < K.treesLen) :
    Calls (stockAccounting (tidyWords fits)) threadBacking 0 (OnlineCall fits) := by
  have calls : Calls (upperAccounting (plainPromise K) (tidyWords fits)) threadBacking 0
      (ThreadCall (tidyWords fits)) := thread_calls fits some
  refine ⟨?_, calls.free⟩
  rintro _ _ p m ⟨s, E⟩ F lives ⟨-, sound⟩ call
  cases call with
  | other call =>
    apply safe_stocked (threadCall_atMost call)
    change Sound (plainPromise K) (tidyWords fits) s (m + (F + 0) + E) at sound
    rw [add_zero, add_assoc, ← add_zero (F + E)] at sound
    exact calls.safe () () p m s (F + E) lives sound call
  | online turns matcher change operation =>
    apply Accounting.safe_bind (safe_online some operation)
    rintro _ _ rfl
    exact ⟨trivial, lives⟩

section Runs

variable {ι : Type} [Fintype ι] [DecidableEq ι] {T : UpperThreads Lower ι} {reads : Reads ι}

private theorem stocked_reached (some : 0 < K.treesLen) (start : Covered K s)
    (reach : OnlineReaches fits s T reads) : ∃ E m,
      Balanced (stockAccounting (tidyWords fits)) threadBacking 0 (T.haunted E) m ∧
        Backed K T.thread reads E := by
  have calls : Calls (stockAccounting (tidyWords fits)) threadBacking 0 (OnlineCall fits) :=
    online_calls fits some
  refine balanced_recorded calls (fun P reads E i _ _ p backed call => ?_)
    (fun U reads E m i o k r s balanced backed next effect fresh =>
      follows balanced backed next effect fresh) ⟨spare K s, fun _ => 0, ?_, ?_⟩ reach
  · obtain ⟨last, stores, backs⟩ := backed
    exact backed_update stores (storesRead_call call) (backs i) fun j _ => backs j
  · refine balanced_idle (s := (s, spare K s)) calls ?_ (fun i k member => ?_) fun _ => trivial
    · rw [Finset.sum_const_zero]
      exact ⟨spare_stock s, sound_covered start⟩
    · exact absurd member (Multiset.notMem_zero k)
  · exact ⟨fun _ => none, fun _ => trivial, fun _ => backs_none⟩

/-- While trees come online only with statistics that still stand, the counters of each tree stay
within its free frames, and no assertion on them fails. -/
theorem online_tracked (some : 0 < K.treesLen) (start : Covered K s)
    (reach : OnlineReaches fits s T reads) : Tracked K T := by
  obtain ⟨E, m, balanced, -⟩ := stocked_reached some start reach
  exact tracked_of_balanced balanced

/-- An exchange keeps the counters within the free frames exactly if the statistics still stand, or
had no frame. -/
theorem exchange_exact (some : 0 < K.treesLen) (start : Covered K s)
    (reach : OnlineReaches fits s T reads) {i : ι} {idx : Nat} {expected desired : Tree}
    {k : Bool × Tree → UpProg Unit} (inside : idx < K.treesLen)
    (next : T.thread i = .step (.table (.treesCas idx expected desired)) k)
    (unchanged : T.mem.upper.trees idx = expected) :
    (desired.free : Int) + outstanding K T idx ≤ groupFree T.mem.lower (idx * treeChildren) ↔
      reads i = Option.some idx ∨ desired.free = 0 := by
  obtain ⟨E, m, balanced, last, stores, backs⟩ := stocked_reached some start reach
  have mine := stores i
  rw [next] at mine
  obtain ⟨⟨empty, read⟩, -⟩ := mine
  have total := shares balanced inside
  obtain ⟨stands, stale⟩ := backs i idx desired.free read inside
  rw [unchanged, empty] at total
  constructor
  · intro bound
    by_contra neither
    obtain ⟨other, counted⟩ := not_or.mp neither
    have more := (stale other).resolve_left counted
    omega
  · rintro (fresh | none)
    · have count := stands fresh
      omega
    · omega

end Runs

/-! ## Runs of one tree -/

instance {ι : Type} (reads : Reads ι) (i : ι) (o : UpOp) (r : o.Res) :
    Decidable (Fresh reads i o r) := by
  unfold Fresh
  split <;> infer_instance

private def allTaken : Llfree Lower := initZeroed oneTree .alloc

-- The first 512 frames are free, and nothing counts them.
private def partTaken : Llfree Lower :=
  { allTaken with
    lower := ((Prog.run LoOp.exec ((LowerCall.put 0 9).prog 4096) allTaken.lower).map Prod.snd).getD
      allTaken.lower }

private theorem allTaken_initialised : Initialised oneTree .alloc allTaken :=
  initZeroed_initialised (by decide)

private theorem taken_covered {l : Lower} (cons : Consistent oneTree.frames l) :
    Covered oneTree { allTaken with lower := l } := by
  obtain ⟨rebuilt, sound⟩ :=
    sound_init (plainPromise oneTree) (by decide) (Or.inr rfl) allTaken_initialised
  have none : ∀ t, holders oneTree allTaken.upper t = ∅ := by
    apply holders_empty
    intro c i has
    rw [rebuilt.slots c i has]
    rfl
  have empty : groupFree allTaken.lower 0 = 0 := by decide +kernel
  refine ⟨cons, sound.slots, fun t inside => ?_, fun t inside => ?_⟩
  · rw [none t, rebuilt.trees t inside]
    rfl
  · obtain rfl : t = 0 := Nat.lt_one_iff.mp inside
    rw [none 0, rebuilt.trees 0 inside, Finset.sum_empty, Nat.add_zero]
    exact (Nat.le_of_eq empty).trans (Nat.zero_le _)

private theorem allTaken_consistent : Consistent oneTree.frames allTaken.lower :=
  (sound_init (plainPromise oneTree) (by decide) (Or.inr rfl) allTaken_initialised).2.good

private theorem partTaken_covered : Covered oneTree partTaken := by
  obtain ⟨r, l, run, cons, -⟩ := call_refines allTaken_consistent (.put 0 9)
    ⟨Or.inr rfl, by decide⟩
  have same : partTaken = { allTaken with lower := l } := by
    simp only [partTaken, show Prog.run LoOp.exec ((LowerCall.put 0 9).prog 4096) allTaken.lower =
      some (r, l) from run, Option.map_some, Option.getD_some]
  rw [same]
  exact taken_covered cons

-- Thread `i` is about to free a block, thread `j` to bring the tree online.
private def begun {ι : Type} [DecidableEq ι] (i j : ι) (s : Llfree Lower) (frame order : Nat) :
    UpperThreads Lower ι :=
  ((Threads.idle s fun _ => ()).enter i ()
      (llfreePut oneTree frame ⟨order, 0, none⟩ >>= fun _ => pure ())).enter j ()
    ((llfreeChangeTree oneTree 1 ⟨some 0, classNone, 0⟩ ⟨classNone, .online⟩).quietly >>=
      fun _ => pure ())

private theorem begun_acts (order : Nat) (schedule : List (Fin 2)) {fits : Fits oneTree}
    (ready : (begun (0 : Fin 2) 1 allTaken 0 order).allReady (UpOp.exec oneTree) upperDelta TidyStep
      (fun _ _ _ => True) schedule = true) :
    Reaches (upperSys oneTree (tidyWords fits)) upperDelta (OnlineCall fits)
      (Threads.idle allTaken fun _ => ())
      ((begun (0 : Fin 2) 1 allTaken 0 order).acts (UpOp.exec oneTree) upperDelta schedule) := by
  have steps : Relation.ReflTransGen (GuardedStep (upperSys oneTree (tidyWords fits)) upperDelta
      (OnlineCall fits) fun _ _ _ => True) _ _ := acts_steps (tidy_next (by decide)) ready
  refine .trans ?_ (Relation.ReflTransGen.mono (fun _ _ => GuardedStep.step) _ _ steps)
  refine .tail (.tail .refl (.start _ 0 () () _ rfl (.other ?_)))
    (.start _ 1 () () _ rfl (.online 1 _ _ rfl))
  exact .put 0 ⟨order, 0, none⟩ id

/-- A tree comes online while the frames of a block are free and not yet counted: they are counted
twice, and the counter exceeds the free frames or even the tree. -/
theorem online_not_tracked :
    ∃ (s : Llfree Lower) (fits : Fits oneTree), Initialised oneTree .alloc s ∧ Covered oneTree s ∧
      (∃ T : UpperThreads Lower (Fin 2),
        Reaches (upperSys oneTree (tidyWords fits)) upperDelta (OnlineCall fits)
          (Threads.idle s fun _ => ()) T ∧
        (∀ i, ∃ h, T.thread i = .ret h) ∧
        groupFree T.mem.lower 0 < (T.mem.upper.trees 0).free) ∧
      ∃ (T : UpperThreads Lower (Fin 2)) (k : Unit → UpProg Unit),
        Reaches (upperSys oneTree (tidyWords fits)) upperDelta (OnlineCall fits)
          (Threads.idle s fun _ => ()) T ∧
        T.thread 0 = .step (.table (.treesPut 0 treeSize)) k ∧
        (TableOp.treesPut 0 treeSize).exec oneTree T.mem.upper = none := by
  refine ⟨allTaken, by decide, allTaken_initialised, taken_covered allTaken_consistent,
    ⟨_, begun_acts 9 [0, 1, 1, 1, 0] (by decide +kernel), ?_, by decide +kernel⟩,
    _, _, begun_acts 12 [0, 1, 1, 1] (by decide +kernel), rfl, by decide +kernel⟩
  intro i
  match i with
  | 0 => exact ⟨(), rfl⟩
  | 1 => exact ⟨(), rfl⟩

/-- Between the read of the statistics and the exchange 512 more frames are freed. -/
theorem online_tracked_between : ∃ T : UpperThreads Lower (Fin 2),
    Tracked oneTree T ∧ (T.ledger 0).1 0 = 512 ∧ (T.mem.upper.trees 0).free = 512 ∧
      groupFree T.mem.lower 0 = 1024 := by
  have fits : Fits oneTree := by decide
  have begin : Relation.ReflTransGen (RecordedStep (weakSys oneTree (tidyWords fits)) upperDelta
      (OnlineCall fits) (fun _ => Fresh) (watch oneTree))
      (Threads.idle partTaken fun _ => (), fun _ => none)
      (begun (0 : Fin 2) 1 partTaken 512 9, fun _ => none) := by
    refine .tail (.tail .refl (.start _ _ 0 () () _ rfl (.other ?_)))
      (.start _ _ 1 () () _ rfl (.online 1 _ _ rfl))
    exact .put 512 ⟨9, 0, none⟩ id
  have acts : Relation.ReflTransGen (RecordedStep (weakSys oneTree (tidyWords fits)) upperDelta
      (OnlineCall fits) (fun _ => Fresh) (watch oneTree))
        (begun (0 : Fin 2) 1 partTaken 512 9, fun _ => none)
      (Threads.actsRecorded (UpOp.exec oneTree) upperDelta (watch oneTree)
        (begun (0 : Fin 2) 1 partTaken 512 9, fun _ => none) [1, 1, 0, 1]) :=
    recorded_steps (fun o s r s' tidy done => Or.inl (tidy_next (by decide) o s r s' tidy done))
      (by decide +kernel)
  exact ⟨_, online_tracked (by decide) partTaken_covered (begin.trans acts), by decide +kernel,
    by decide +kernel, by decide +kernel⟩

end LLFree.Upper.Online

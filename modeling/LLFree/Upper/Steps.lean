/- module: LLFree/Upper/Steps
   digest: The accounting above the lower allocator and one rule for each of its steps. -/

import LLFree.Atomic.Escrow
import LLFree.Upper.Slots
import Mathlib.Algebra.Group.Pi.Lemmas
import Mathlib.Algebra.Group.Prod
import Mathlib.Algebra.Ring.Int.Defs

set_option autoImplicit false
set_option relaxedAutoImplicit false

namespace LLFree.Upper.Steps

open LLFree.Atomic.Escrow LLFree.Code.Types LLFree.Code.Lower LLFree.Code.Trees LLFree.Code.Local
open LLFree.Code.Shared LLFree.Lower.GetPut LLFree.Lower.FrameSet LLFree.Upper.Ledger
open LLFree.Upper.Moves LLFree.Upper.Slots

/-! ## The lower allocator as seen from above -/

def Asked (frames : Nat) (orders : Nat → Prop) : LowerCall → Prop
  | .get start order target => start < frames ∧ orders order ∧ ∀ f, target = some f →
    Valid frames f order
  | .put frame order => orders order ∧ Valid frames frame order

/-- A lower allocator: its calls move single blocks in and out of a set of free frames. -/
structure LowerModel (L : Type) (frames : Nat) where
  next : LowerCall → L → Result → L → Prop
  fails : LowerCall → L → Prop
  stats : Nat → Nat → L → Stats
  free : L → Set Nat
  good : L → Prop
  orders : Nat → Prop
  small : ∀ o, orders o → o ≤ 12
  runs : ∀ c l, good l → Asked frames orders c → ¬ fails c l
  moves : ∀ c l r l', good l → Asked frames orders c → next c l r l' →
    good l' ∧ CallSpec frames r (free l) (free l') c

variable {L : Type} {K : Config}

/-- The steps of a call above the lower allocator `low`. Adding frames to a tree that is not
reserved counts as a fault. -/
def upperSys (K : Config) (low : LowerModel L K.frames) : Sys UpOp UpOp.Res (Llfree L) where
  next
    | .lower c, s, r, s' => ∃ l, low.next c s.lower r l ∧ s' = { s with lower := l }
    | .lowerStatsAt frame order, s, r, s' => r = low.stats frame order s.lower ∧ s' = s
    | .table o, s, r, s' => ∃ u, o.exec K s.upper = some (r, u) ∧ s' = { s with upper := u }
  fails
    | .lower c, s => low.fails c s.lower
    | .lowerStatsAt .., _ => False
    | .table (.treesUnreserve idx free cls), s =>
      (TableOp.treesUnreserve idx free cls).exec K s.upper = none ∨
        (s.upper.trees idx).reserved = false
    | .table o, s => o.exec K s.upper = none

abbrev Amount := (Nat → Int) × (Nat → Int)

def framesAt (t : Nat) (n : Int) : Amount := (Pi.single t n, 0)

def tokenAt (t : Nat) (n : Int) : Amount := (0, Pi.single t n)

def reservation (t n : Nat) : Amount := framesAt t n + tokenAt t 1

def slotAmount (r : Reserved) : Amount :=
  if r.present then reservation (treeFromRow r.startRow) r.free else 0

/-- The frames and reservations that a step hands to the call, or takes from it. -/
def upperDelta : (o : UpOp) → o.Res → Amount
  | .lower (.get start order _), r =>
    if r.error = .ok then -framesAt (treeFromFrame start) (2 ^ order : Nat) else 0
  | .lower (.put frame order), r =>
    if r.error = .ok then framesAt (treeFromFrame frame) (2 ^ order : Nat) else 0
  | .lowerStatsAt .., _ => 0
  | .table (.treesSteal idx frames _), some _ => framesAt idx frames
  | .table (.treesPut idx frames), _ => -framesAt idx frames
  | .table (.treesReserveOrSteal idx frames _), some (reserved, oldFree, _) =>
    if reserved then reservation idx oldFree else framesAt idx frames
  | .table (.treesUnreserve idx free _), _ => -reservation idx free
  | .table (.treesSyncSteal idx _), some stolen => framesAt idx stolen
  | .table (.localDec _ _ _ frames), (true, old) => framesAt (treeFromRow old.startRow) frames
  | .table (.localInc _ _ treeIdx frames), true => -framesAt treeIdx frames
  | .table (.localSwap _ _ new), old => slotAmount old - slotAmount new
  | .table (.localTake ..), (true, old) => slotAmount old
  | .table _, _ => 0

section Access

variable (t n f c i : Nat)

@[simp] theorem upperDelta_get (start order : Nat) (target : Option Nat) (r : Result) :
    upperDelta (.lower (.get start order target)) r =
      if r.error = .ok then -framesAt (treeFromFrame start) (2 ^ order : Nat) else 0 := rfl

@[simp] theorem upperDelta_put (frame order : Nat) (r : Result) :
    upperDelta (.lower (.put frame order)) r =
      if r.error = .ok then framesAt (treeFromFrame frame) (2 ^ order : Nat) else 0 := rfl

@[simp] theorem upperDelta_stats (frame order : Nat) (r : Stats) :
    upperDelta (.lowerStatsAt frame order) r = 0 := rfl

@[simp] theorem upperDelta_treesLoad (tree : Tree) :
    upperDelta (.table (.treesLoad t)) tree = 0 := rfl

@[simp] theorem upperDelta_treesSteal_some (cls : Nat) :
    upperDelta (.table (.treesSteal t n c)) (some cls) = framesAt t n := rfl

@[simp] theorem upperDelta_treesSteal_none :
    upperDelta (.table (.treesSteal t n c)) none = 0 := rfl

@[simp] theorem upperDelta_treesPut :
    upperDelta (.table (.treesPut t n)) () = -framesAt t n := rfl

@[simp] theorem upperDelta_treesReserveOrSteal_some (reserved : Bool) (free cls : Nat) :
    upperDelta (.table (.treesReserveOrSteal t n c)) (some (reserved, free, cls)) =
      if reserved then reservation t free else framesAt t n := rfl

@[simp] theorem upperDelta_treesReserveOrSteal_none :
    upperDelta (.table (.treesReserveOrSteal t n c)) none = 0 := rfl

@[simp] theorem upperDelta_treesUnreserve :
    upperDelta (.table (.treesUnreserve t f c)) () = -reservation t f := rfl

@[simp] theorem upperDelta_treesSyncSteal_some (stolen : Nat) :
    upperDelta (.table (.treesSyncSteal t n)) (some stolen) = framesAt t stolen := rfl

@[simp] theorem upperDelta_treesSyncSteal_none :
    upperDelta (.table (.treesSyncSteal t n)) none = 0 := rfl

@[simp] theorem upperDelta_localDec (tree : Option Nat) (done : Bool) (old : Reserved) :
    upperDelta (.table (.localDec c i tree n)) (done, old) =
      if done then framesAt (treeFromRow old.startRow) n else 0 := by
  cases done <;> rfl

@[simp] theorem upperDelta_localInc (done : Bool) :
    upperDelta (.table (.localInc c i t n)) done = if done then -framesAt t n else 0 := by
  cases done <;> rfl

@[simp] theorem upperDelta_localSetStart (row : Nat) (r : Bool × Reserved) :
    upperDelta (.table (.localSetStart c i row)) r = 0 := rfl

@[simp] theorem upperDelta_localSwap (new old : Reserved) :
    upperDelta (.table (.localSwap c i new)) old = slotAmount old - slotAmount new := rfl

@[simp] theorem upperDelta_localTake (tree : Option Nat) (done : Bool) (old : Reserved) :
    upperDelta (.table (.localTake c i tree n)) (done, old) =
      if done then slotAmount old else 0 := by
  cases done <;> rfl

end Access

/-- The state is sound and its books agree with the tickets `m` that calls hold. -/
structure Sound (P : Promise K) (low : LowerModel L K.frames) (s : Llfree L) (m : Tickets) :
    Prop where
  good : low.good s.lower
  slots : ∀ c i, K.HasSlot c i → SlotOk K (s.upper.slots c i)
  books : Books P s.upper.trees (low.free s.lower) (slotTickets K s.upper + m)

def upperAmount : Tickets →+ Amount where
  toFun m := (fun t => counted t m, fun t => owners t m)
  map_zero' := rfl
  map_add' a b := by
    ext t <;> simp

def upperAccounting (P : Promise K) (low : LowerModel L K.frames) :
    Accounting UpOp UpOp.Res (Llfree L) Tickets Amount where
  sys := upperSys K low
  inv := Sound P low
  amt := upperAmount
  delta := upperDelta
  mayAbort := False

theorem amount_apply (m : Tickets) :
    upperAmount m = (fun t => (counted t m : Int), fun t => (owners t m : Int)) := rfl

@[simp] theorem amount_credit (t n c : Nat) : upperAmount (credit t n c) = framesAt t n := by
  rw [amount_apply]
  ext s <;> by_cases same : t = s <;> simp [framesAt, same, Ne.symm]

@[simp] theorem amount_live (t n c : Nat) : upperAmount (live t n c) = 0 := by
  rw [amount_apply]
  ext s <;> simp

@[simp] theorem amount_owner (t n c : Nat) : upperAmount (owner t n c) = reservation t n := by
  rw [amount_apply]
  ext s <;> by_cases same : t = s <;>
    simp [reservation, framesAt, tokenAt, same, Ne.symm]

@[simp] theorem amount_slot (c : Nat) (r : Reserved) :
    upperAmount (slotTicket c r) = slotAmount r := by
  unfold slotTicket slotAmount
  split_ifs
  · exact amount_owner ..
  · exact map_zero _

variable {P : Promise K} {low : LowerModel L K.frames} {α : Type} {Q : α → Tickets → Prop}
  {m : Tickets} {t n c cls : Nat}

/-! ## Rules -/

private theorem safe_table {o : TableOp} {k : o.Res → UpProg α}
    (moves : ∀ s F, Sound P low s (m + F) → ∃ r u, o.exec K s.upper = some (r, u) ∧
      (∀ idx free d, o = .treesUnreserve idx free d → (s.upper.trees idx).reserved = true) ∧
      ∃ m', Sound P low { s with upper := u } (m' + F) ∧
        upperAmount m' = upperAmount m + upperDelta (.table o) r ∧
        (upperAccounting P low).Ok (k r) m' Q) :
    (upperAccounting P low).Ok (.step (.table o) k) m Q := by
  refine ⟨trivial, fun s F inv => ?_⟩
  obtain ⟨r, u, done, reserved, result⟩ := moves s F inv
  constructor
  · intro fault
    cases o with
    | treesUnreserve idx free d =>
      rcases fault with stuck | idle
      · exact absurd (done.symm.trans stuck) (by simp)
      · exact absurd (reserved idx free d rfl) (by simp [idle])
    | _ => exact absurd (done.symm.trans fault) (by simp)
  · rintro r' s' ⟨u', done', rfl⟩
    rw [done] at done'
    obtain ⟨rfl, rfl⟩ := Prod.mk.inj (Option.some.inj done')
    exact result

theorem Sound.tree {s : Llfree L} {x x' F : Tickets} {tree : Tree}
    (sound : Sound P low s (m + x + F)) (inside : t < K.treesLen)
    (move : Move P t (s.upper.trees t) tree x x') :
    Sound P low { s with upper := s.upper.setTree t tree } (m + x' + F) := by
  refine ⟨sound.good, sound.slots, ?_⟩
  have books := sound.books
  rw [show slotTickets K s.upper + (m + x + F) =
    x + (slotTickets K s.upper + m + F) by abel] at books
  have moved := books.move inside rfl move
  rw [setTree_trees, slotTickets_setTree,
    show slotTickets K s.upper + (m + x' + F) = x' + (slotTickets K s.upper + m + F) by abel]
  exact moved

private theorem sound_room {s : Llfree L} {x F : Tickets} (sound : Sound P low s (m + x + F))
    (inside : t < K.treesLen) : (s.upper.trees t).free + counted t x ≤ treeSize := by
  have books := sound.books
  rw [show slotTickets K s.upper + (m + x + F) =
    x + (slotTickets K s.upper + m + F) by abel] at books
  exact books.free_le inside

theorem safe_treesLoad {k : Tree → UpProg α} (inside : t < K.treesLen)
    (rest : ∀ tree, (upperAccounting P low).Ok (k tree) m Q) :
    (upperAccounting P low).Ok (.step (.table (.treesLoad t)) k) m Q := by
  refine safe_table fun s F sound => ⟨s.upper.trees t, s.upper, by simp [TableOp.exec, inside],
    by simp, m, sound, by simp, rest _⟩

theorem safe_treesSteal {k : Option Nat → UpProg α} (inside : t < K.treesLen) (pos : 0 < n)
    (known : P.configured → cls < K.numClasses)
    (hit : ∀ c, (P.segregated → c ≤ cls) →
      (upperAccounting P low).Ok (k (some c)) (m + credit t n c) Q)
    (miss : (upperAccounting P low).Ok (k none) m Q) :
    (upperAccounting P low).Ok (.step (.table (.treesSteal t n cls)) k) m Q := by
  refine safe_table fun s F sound => ?_
  have sound' : Sound P low s (m + 0 + F) := by rwa [add_zero]
  cases step : treeSteal (s.upper.trees t) n cls K.policy with
  | none =>
    exact ⟨none, s.upper, by simp [TableOp.exec, inside, step], by simp, m, sound,
      by simp, miss⟩
  | some result =>
    obtain ⟨tree, c⟩ := result
    obtain ⟨move, le⟩ := move_steal known pos (sound_room sound' inside) step
    exact ⟨some c, s.upper.setTree t tree, by simp [TableOp.exec, inside, step], by simp, _,
      sound'.tree inside move, by simp, hit c le⟩

theorem safe_treesPut {k : Unit → UpProg α} (inside : t < K.treesLen)
    (rest : (upperAccounting P low).Ok (k ()) m Q) :
    (upperAccounting P low).Ok (.step (.table (.treesPut t n)) k) (m + credit t n c) Q := by
  refine safe_table fun s F sound => ?_
  have fits : (s.upper.trees t).free + n ≤ treeSize := by simpa using sound_room sound inside
  obtain ⟨tree, step, -⟩ := treePut_eq (s.upper.trees t) K.policy K.defaultClass fits
  have moved := sound.tree inside (move_put step)
  rw [add_zero] at moved
  exact ⟨(), s.upper.setTree t tree, by simp [TableOp.exec, inside, step], by simp, m, moved,
    by simp, rest⟩

theorem safe_reserveOrSteal {k : Option (Bool × Nat × Nat) → UpProg α} (inside : t < K.treesLen)
    (pos : 0 < n) (known : P.configured → cls < K.numClasses)
    (reserve : ∀ f, n ≤ f → f ≤ treeSize →
      (upperAccounting P low).Ok (k (some (true, f, cls))) (m + owner t f cls) Q)
    (steal : ∀ f c, (P.segregated → c ≤ cls) →
      (upperAccounting P low).Ok (k (some (false, f, c))) (m + credit t n c) Q)
    (miss : (upperAccounting P low).Ok (k none) m Q) :
    (upperAccounting P low).Ok (.step (.table (.treesReserveOrSteal t n cls)) k) m Q := by
  refine safe_table fun s F sound => ?_
  have sound' : Sound P low s (m + 0 + F) := by rwa [add_zero]
  have bound : (s.upper.trees t).free ≤ treeSize := by simpa using sound_room sound' inside
  cases step : treeReserveOrSteal (s.upper.trees t) n K.policy cls with
  | none =>
    exact ⟨none, s.upper, by simp [TableOp.exec, inside, step], by simp, m, sound,
      by simp, miss⟩
  | some result =>
    obtain ⟨tree, reserved, target⟩ := result
    cases reserved with
    | true =>
      obtain ⟨move, rfl, enough⟩ := move_reserve (t := t) known step
      exact ⟨_, s.upper.setTree t tree, by simp [TableOp.exec, inside, step], by simp, _,
        sound'.tree inside move, by simp, reserve _ enough bound⟩
    | false =>
      obtain ⟨move, le, -⟩ := move_reserveSteal pos bound step
      exact ⟨_, s.upper.setTree t tree, by simp [TableOp.exec, inside, step]; rfl, by simp, _,
        sound'.tree inside move, by simp, steal _ target le⟩

private theorem sound_reserved {s : Llfree L} {f : Nat} {F : Tickets}
    (sound : Sound P low s (m + owner t f c + F)) (inside : t < K.treesLen) :
    (s.upper.trees t).reserved = true := by
  have owned := sound.books.owned t inside
  simp only [owners_add, owners_owner, if_true] at owned
  cases reserved : (s.upper.trees t).reserved with
  | true => rfl
  | false =>
    rw [reserved] at owned
    simp only [Bool.toNat_false] at owned
    omega

theorem safe_treesUnreserve {f : Nat} {k : Unit → UpProg α} (inside : t < K.treesLen)
    (rest : (upperAccounting P low).Ok (k ()) m Q) :
    (upperAccounting P low).Ok (.step (.table (.treesUnreserve t f c)) k) (m + owner t f c) Q := by
  refine safe_table fun s F sound => ?_
  have reserved := sound_reserved sound inside
  have fits : (s.upper.trees t).free + f ≤ treeSize := by simpa using sound_room sound inside
  obtain ⟨tree, step⟩ : ∃ tree,
      treeUnreserveAdd (s.upper.trees t) f c K.policy K.defaultClass = some (some tree) := by
    simp only [treeUnreserveAdd, reserved, if_true]
    split_ifs
    · obtain ⟨tree, step, -⟩ := treePut_eq (n := f)
        { s.upper.trees t with reserved := false, cls := c } K.policy K.defaultClass fits
      exact ⟨tree, by rw [step]; rfl⟩
    · obtain ⟨tree, step, -⟩ := treePut_eq (n := f)
        { s.upper.trees t with reserved := false } K.policy K.defaultClass fits
      exact ⟨tree, by rw [step]; rfl⟩
  have moved := sound.tree inside (move_unreserve step)
  rw [add_zero] at moved
  refine ⟨(), s.upper.setTree t tree, by simp [TableOp.exec, inside, step], ?_, m, moved,
    by simp, rest⟩
  intro idx free d same
  cases same
  exact reserved

theorem safe_treesSyncSteal {min : Nat} {k : Option Nat → UpProg α} (inside : t < K.treesLen)
    (hit : ∀ n c, (upperAccounting P low).Ok (k (some n)) (m + credit t n c) Q)
    (miss : (upperAccounting P low).Ok (k none) m Q) :
    (upperAccounting P low).Ok (.step (.table (.treesSyncSteal t min)) k) m Q := by
  refine safe_table fun s F sound => ?_
  have sound' : Sound P low s (m + 0 + F) := by rwa [add_zero]
  cases step : treeSyncSteal (s.upper.trees t) min with
  | none =>
    exact ⟨none, s.upper, by simp [TableOp.exec, inside, step], by simp, m, sound,
      by simp, miss⟩
  | some tree =>
    exact ⟨_, s.upper.setTree t tree, by simp [TableOp.exec, inside, step], by simp, _,
      sound'.tree inside (move_sync step), by simp, hit _ _⟩

/-! ## Slots -/

-- The books of a state with one slot picked out: what it holds and the tickets in hand can be
-- exchanged by a move, the slot being left with `r`.
private theorem sound_slot {s : Llfree L} {i : Nat} {x y F : Tickets} {r : Reserved}
    (sound : Sound P low s (m + x + F)) (has : K.HasSlot cls i) (ok : SlotOk K r)
    (swap : ∀ R, Books P s.upper.trees (low.free s.lower)
      (slotTicket cls (s.upper.slots cls i) + x + R) →
      Books P s.upper.trees (low.free s.lower) (slotTicket cls r + y + R)) :
    Sound P low { s with upper := s.upper.setSlot cls i r } (m + y + F) := by
  obtain ⟨R, split, set⟩ := slotTickets_split s.upper has
  refine ⟨sound.good, slotOk_setSlot ok sound.slots, ?_⟩
  have books := sound.books
  rw [split, show slotTicket cls (s.upper.slots cls i) + R + (m + x + F) =
    slotTicket cls (s.upper.slots cls i) + x + (R + m + F) by abel] at books
  rw [setSlot_trees, set, show slotTicket cls r + R + (m + y + F) =
    slotTicket cls r + y + (R + m + F) by abel]
  exact swap _ books

/-- What a slot may report of itself: its row lies in the allocator, and in tree `t` where
one is asked for. -/
structure SlotView (K : Config) (treeIdx : Option Nat) (old : Reserved) : Prop where
  present : old.present = true
  frame : frameFromRow old.startRow < K.frames
  tree : treeFromRow old.startRow < K.treesLen
  asked : ∀ t, treeIdx = some t → treeFromRow old.startRow = t

private theorem reservedDec_some {r new : Reserved} {treeIdx : Option Nat}
    (ok : SlotOk K r) (step : llReservedDec r treeIdx n = some new) :
    SlotView K treeIdx r ∧ n ≤ r.free ∧ new = { r with free := r.free - n } := by
  simp only [llReservedDec] at step
  split_ifs at step with absent other few
  rw [Option.some.injEq] at step
  have present : r.present = true := by simpa using absent
  refine ⟨⟨present, ok.frame present, ok.tree present, fun t same => ?_⟩, by omega, step.symm⟩
  subst same
  simp only [Option.any_some, decide_eq_true_eq, not_not] at other
  exact other.symm

theorem safe_localDec {i : Nat} {treeIdx : Option Nat} {k : Bool × Reserved → UpProg α}
    (has : K.HasSlot cls i)
    (hit : ∀ old, SlotView K treeIdx old → n ≤ old.free →
      (upperAccounting P low).Ok (k (true, old)) (m + credit (treeFromRow old.startRow) n cls) Q)
    (miss : ∀ old, SlotOk K old → (upperAccounting P low).Ok (k (false, old)) m Q) :
    (upperAccounting P low).Ok (.step (.table (.localDec cls i treeIdx n)) k) m Q := by
  refine safe_table fun s F sound => ?_
  have sound' : Sound P low s (m + 0 + F) := by rwa [add_zero]
  have ok := sound.slots cls i has
  cases step : llReservedDec (s.upper.slots cls i) treeIdx n with
  | none =>
    exact ⟨(false, s.upper.slots cls i), s.upper, by simp [TableOp.exec, has, step], by simp, m,
      sound, by simp, miss _ ok⟩
  | some new =>
    obtain ⟨view, enough, rfl⟩ := reservedDec_some ok step
    refine ⟨(true, s.upper.slots cls i), _, by simp [TableOp.exec, has, step]; rfl, by simp, _,
      sound_slot sound' has (by simpa [SlotOk, view.present] using view.frame) fun R books => ?_,
      by simp, hit _ view enough⟩
    simp only [slotTicket, view.present, if_true, add_zero] at books ⊢
    exact exchange books view.tree (move_split enough)

theorem safe_localInc {i : Nat} {k : Bool → UpProg α} (has : K.HasSlot cls i)
    (hit : (upperAccounting P low).Ok (k true) m Q)
    (miss : (upperAccounting P low).Ok (k false) (m + credit t n c) Q) :
    (upperAccounting P low).Ok (.step (.table (.localInc cls i t n)) k) (m + credit t n c) Q := by
  refine safe_table fun s F sound => ?_
  have ok := sound.slots cls i has
  by_cases other : ¬ (s.upper.slots cls i).present ∨ treeFromRow (s.upper.slots cls i).startRow ≠ t
  · have refuse : llReservedInc (s.upper.slots cls i) t n = some none := if_pos other
    exact ⟨false, s.upper, by simp [TableOp.exec, has, refuse], by simp, _, sound,
      by simp, miss⟩
  · obtain ⟨present, here⟩ : (s.upper.slots cls i).present = true ∧
        treeFromRow (s.upper.slots cls i).startRow = t := by simpa using other
    have inside := here ▸ ok.tree present
    obtain ⟨R, split, -⟩ := slotTickets_split s.upper has
    have room : (s.upper.slots cls i).free + n ≤ treeSize := by
      have books := sound.books
      rw [split, slotTicket_present present, here, show ∀ a b : Tickets,
        a + R + (m + b + F) = a + b + (R + m + F) by intros; abel] at books
      have le := books.free_le inside
      simp only [counted_add, counted_owner, counted_credit, if_true] at le
      omega
    have moved := sound_slot (y := 0) (r := { s.upper.slots cls i with
        free := (s.upper.slots cls i).free + n }) sound has
      (by simpa [SlotOk, present] using ok.frame present) fun R books => by
        simp only [slotTicket, present, if_true, here, add_zero] at books ⊢
        exact exchange books inside move_merge
    rw [add_zero] at moved
    refine ⟨true, _, ?_, by simp, m, moved, by simp, hit⟩
    simp [TableOp.exec, has, llReservedInc, present, here, room]

theorem safe_localSetStart {i row : Nat} {k : Bool × Reserved → UpProg α} (has : K.HasSlot cls i)
    (fits : Fits K) (frame : frameFromRow row < K.frames)
    (rest : ∀ r, (upperAccounting P low).Ok (k r) m Q) :
    (upperAccounting P low).Ok (.step (.table (.localSetStart cls i row)) k) m Q := by
  refine safe_table fun s F sound => ?_
  have sound' : Sound P low s (m + 0 + F) := by rwa [add_zero]
  by_cases other : ¬ (s.upper.slots cls i).present ∨
      treeFromRow (s.upper.slots cls i).startRow ≠ treeFromRow row
  · have refuse : llReservedSetStart (s.upper.slots cls i) row = none := if_pos other
    exact ⟨(false, s.upper.slots cls i), s.upper, by simp [TableOp.exec, has, refuse], by simp, m,
      sound, by simp, rest _⟩
  · obtain ⟨present, here⟩ : (s.upper.slots cls i).present = true ∧
        treeFromRow (s.upper.slots cls i).startRow = treeFromRow row := by simpa using other
    have moved := sound_slot (y := 0) (r := { s.upper.slots cls i with startRow := row }) sound' has
      (by simpa [SlotOk, present] using frame) fun R books => by
        simpa only [slotTicket, present, if_true, here] using books
    rw [add_zero] at moved
    refine ⟨(true, s.upper.slots cls i), _, ?_, by simp, m, moved, by simp, rest _⟩
    simp [TableOp.exec, has, llReservedSetStart, present, here, storeRow_eq fits frame]

theorem safe_localSwap {i : Nat} {new : Reserved} {k : Reserved → UpProg α}
    (has : K.HasSlot cls i) (ok : SlotOk K new)
    (rest : ∀ old, SlotOk K old →
      (upperAccounting P low).Ok (k old) (m + slotTicket cls old) Q) :
    (upperAccounting P low).Ok (.step (.table (.localSwap cls i new)) k)
      (m + slotTicket cls new) Q := by
  refine safe_table fun s F sound => ?_
  refine ⟨s.upper.slots cls i, s.upper.setSlot cls i new, by simp [TableOp.exec, has], by simp, _,
    sound_slot sound has ok fun R books => ?_, ?_, rest _ (sound.slots cls i has)⟩
  · rwa [add_comm (slotTicket cls new)]
  · simp only [map_add, amount_slot, upperDelta_localSwap]
    abel

theorem safe_localTake {i : Nat} {treeIdx : Option Nat} {k : Bool × Reserved → UpProg α}
    (has : K.HasSlot cls i)
    (hit : ∀ old, SlotView K treeIdx old → n ≤ old.free →
      (upperAccounting P low).Ok (k (true, old))
        (m + owner (treeFromRow old.startRow) old.free cls) Q)
    (miss : ∀ old, (upperAccounting P low).Ok (k (false, old)) m Q) :
    (upperAccounting P low).Ok (.step (.table (.localTake cls i treeIdx n)) k) m Q := by
  refine safe_table fun s F sound => ?_
  have sound' : Sound P low s (m + 0 + F) := by rwa [add_zero]
  have ok := sound.slots cls i has
  cases step : llReservedDec (s.upper.slots cls i) treeIdx n with
  | none =>
    exact ⟨(false, s.upper.slots cls i), s.upper, by simp [TableOp.exec, has, llReservedTake, step],
      by simp, m, sound, by simp, miss _⟩
  | some new =>
    obtain ⟨view, enough, rfl⟩ := reservedDec_some ok step
    refine ⟨(true, s.upper.slots cls i), s.upper.setSlot cls i noReserved,
      by simp [TableOp.exec, has, llReservedTake, step], by simp, _,
      sound_slot sound' has slotOk_none fun R books => ?_, ?_, hit _ view enough⟩
    · rwa [slotTicket_none, zero_add, ← slotTicket_present view.present,
        ← add_zero (slotTicket _ _)]
    · simp [slotAmount, view.present]

/-! ## The lower allocator -/

theorem safe_lowerGet {start order : Nat} {target : Option Nat} {k : Result → UpProg α}
    (orders : low.orders order) (inside : start < K.frames)
    (valid : ∀ f, target = some f → Valid K.frames f order ∧ f / 4096 = start / 4096)
    (ok : ∀ r, r.error = .ok → Valid K.frames r.frame order → r.frame / 4096 = start / 4096 →
      (∀ f, target = some f → r.frame = f) →
      (upperAccounting P low).Ok (k r) (m + live (start / 4096) (2 ^ order) c) Q)
    (err : ∀ r, r.error ≠ .ok →
      (upperAccounting P low).Ok (k r) (m + credit (start / 4096) (2 ^ order) c) Q) :
    (upperAccounting P low).Ok (.step (.lower (.get start order target)) k)
      (m + credit (start / 4096) (2 ^ order) c) Q := by
  have asked : Asked K.frames low.orders (.get start order target) :=
    ⟨inside, orders, fun f same => (valid f same).1⟩
  have tree : start / 4096 < K.treesLen := by
    simp only [Config.treesLen, divCeil, treeSize]
    omega
  refine ⟨trivial, fun s F sound => ⟨fun fault => low.runs _ _ sound.good asked fault, ?_⟩⟩
  rintro r s' ⟨l, next, rfl⟩
  obtain ⟨good, spec⟩ := low.moves _ _ _ _ sound.good asked next
  have books := sound.books
  rw [show slotTickets K s.upper + (m + credit (start / 4096) (2 ^ order) c + F) =
    credit (start / 4096) (2 ^ order) c + (slotTickets K s.upper + m + F) by abel] at books
  rcases spec with ⟨error, fits, free, same, near, hit⟩ | ⟨error, same⟩
  · have here : r.frame / 4096 = start / 4096 := by
      cases target with
      | none => exact near rfl
      | some f => exact (congrArg (· / 4096) (hit f rfl)).trans (valid f rfl).2
    have taken := books_take books tree fits.2 (low.small _ orders) here free
    refine ⟨m + live (start / 4096) (2 ^ order) c, ⟨good, sound.slots, ?_⟩, ?_,
      ok r error fits here hit⟩
    · rw [same, show slotTickets K s.upper + (m + live (start / 4096) (2 ^ order) c + F) =
        live (start / 4096) (2 ^ order) c + (slotTickets K s.upper + m + F) by abel]
      exact taken
    · simp [upperAccounting, error, treeFromFrame, treeSize]
  · refine ⟨m + credit (start / 4096) (2 ^ order) c, ⟨good, sound.slots, ?_⟩, ?_, err r error⟩
    · rw [same]
      exact sound.books
    · simp [upperAccounting, error]

theorem safe_lowerPut {frame order : Nat} {x : Tickets} {k : Result → UpProg α}
    (orders : low.orders order) (valid : Valid K.frames frame order)
    (own : x = live (frame / 4096) (2 ^ order) c ∨ ¬ P.segregated ∧ x = 0)
    (ok : ∀ r, r.error = .ok →
      (upperAccounting P low).Ok (k r) (m + credit (frame / 4096) (2 ^ order) c) Q)
    (err : ∀ r, r.error ≠ .ok → (upperAccounting P low).Ok (k r) (m + x) Q) :
    (upperAccounting P low).Ok (.step (.lower (.put frame order)) k) (m + x) Q := by
  have asked : Asked K.frames low.orders (.put frame order) := ⟨orders, valid⟩
  have tree : frame / 4096 < K.treesLen := by
    have fits := valid.1
    have pos : 0 < 2 ^ order := Nat.two_pow_pos order
    simp only [Config.treesLen, divCeil, treeSize]
    omega
  refine ⟨trivial, fun s F sound => ⟨fun fault => low.runs _ _ sound.good asked fault, ?_⟩⟩
  rintro r s' ⟨l, next, rfl⟩
  obtain ⟨good, spec⟩ := low.moves _ _ _ _ sound.good asked next
  rcases spec with ⟨error, -, taken, same⟩ | ⟨error, same⟩
  · have books := sound.books
    rw [show slotTickets K s.upper + (m + x + F) = x + (slotTickets K s.upper + m + F) by abel]
      at books
    have given := books_give books own tree valid.2 (low.small _ orders) rfl taken
    refine ⟨m + credit (frame / 4096) (2 ^ order) c, ⟨good, sound.slots, ?_⟩, ?_, ok r error⟩
    · rw [same, show slotTickets K s.upper + (m + credit (frame / 4096) (2 ^ order) c + F) =
        credit (frame / 4096) (2 ^ order) c + (slotTickets K s.upper + m + F) by abel]
      exact given
    · have none : upperAmount x = 0 := by
        rcases own with rfl | ⟨-, rfl⟩ <;> simp
      simp [upperAccounting, error, none, treeFromFrame, treeSize]
  · refine ⟨m + x, ⟨good, sound.slots, ?_⟩, ?_, err r error⟩
    · rw [same]
      exact sound.books
    · simp [upperAccounting, error]

/-! ## Tickets in hand -/

/-- Before a step, tickets in hand may be exchanged by a move that leaves the entry alone. -/
theorem safe_exchange {o : UpOp} {k : o.Res → UpProg α} {x x' : Tickets} (inside : t < K.treesLen)
    (move : ∀ tree, Move P t tree tree x x') (amount : upperAmount x' = upperAmount x)
    (safe : (upperAccounting P low).Ok (.step o k) (m + x') Q) :
    (upperAccounting P low).Ok (.step o k) (m + x) Q := by
  refine Accounting.safe_rearrange trivial (fun s F sound => ?_) ?_ safe
  · have books := sound.books
    rw [show slotTickets K s.upper + (m + x + F) = x + (slotTickets K s.upper + m + F) by abel]
      at books
    refine ⟨sound.good, sound.slots, ?_⟩
    rw [show slotTickets K s.upper + (m + x' + F) = x' + (slotTickets K s.upper + m + F) by abel]
    exact exchange books inside (move _)
  · change upperAmount (m + x') = upperAmount (m + x)
    rw [map_add, map_add, amount]

theorem amount_merge {f d e : Nat} :
    upperAmount (owner t f c + credit t n d) = upperAmount (owner t (f + n) e) := by
  have sum : framesAt t ((f + n : Nat) : Int) = framesAt t f + framesAt t n := by
    simp [framesAt, Pi.single_add]
  simp only [map_add, amount_owner, amount_credit, reservation, sum]
  abel

theorem safe_split {o : UpOp} {k : o.Res → UpProg α} {f : Nat} (inside : t < K.treesLen)
    (fits : n ≤ f)
    (safe : (upperAccounting P low).Ok (.step o k) (m + owner t (f - n) c + credit t n c) Q) :
    (upperAccounting P low).Ok (.step o k) (m + owner t f c) Q := by
  refine safe_exchange inside (fun _ => move_split fits) ?_ ?_
  · rw [amount_merge, Nat.sub_add_cancel fits]
  · rwa [← add_assoc]

theorem safe_merge {o : UpOp} {k : o.Res → UpProg α} {f d : Nat} (inside : t < K.treesLen)
    (safe : (upperAccounting P low).Ok (.step o k) (m + owner t (f + n) c) Q) :
    (upperAccounting P low).Ok (.step o k) (m + owner t f c + credit t n d) Q := by
  rw [add_assoc]
  exact safe_exchange inside (fun _ => move_merge) amount_merge.symm safe

theorem safe_reclass {o : UpOp} {k : o.Res → UpProg α} {f d : Nat} (inside : t < K.treesLen)
    (lower : P.segregated → d ≤ c) (known : P.configured → d < K.numClasses)
    (safe : (upperAccounting P low).Ok (.step o k) (m + owner t f d) Q) :
    (upperAccounting P low).Ok (.step o k) (m + owner t f c) Q :=
  safe_exchange inside (fun _ => move_reclass lower known) (by simp) safe

end LLFree.Upper.Steps

/- module: LLFree/Upper/Packed
   digest: No bit field cuts off what is stored in it, whatever the clients do. -/

import LLFree.Upper.BitFields
import LLFree.Upper.Progress
import LLFree.Upper.Uncut

set_option autoImplicit false
set_option relaxedAutoImplicit false

namespace LLFree.Upper.Packed

open LLFree.Atomic.Program LLFree.Atomic.Pool LLFree.Atomic.Retrying LLFree.Atomic.Encoded
open LLFree.Code.Types
open LLFree.Code.Entries LLFree.Code.Lower LLFree.Code.Trees LLFree.Code.Local LLFree.Code.Shared
open LLFree.Code.Setup LLFree.Code.Stack LLFree.Code.Updates LLFree.Code.Exchanges
open LLFree.Code.Metadata LLFree.Lower.Effort LLFree.Upper.Represented LLFree.Upper.Effort
open LLFree.Upper.BitFields LLFree.Upper.Slots LLFree.Upper.Ledger LLFree.Upper.Sequential
open LLFree.Upper.Lending LLFree.Upper.Concurrent LLFree.Upper.Lives LLFree.Upper.Exchanged
open LLFree.Upper.Uncut LLFree.Upper.Progress LLFree.Code.Llfree

variable {K : Config} {V R : Type}

/-! ## What callbacks store -/

private theorem stored_inv {new : Option V} {v : V} {done gone r : R} {left : Nat}
    (stores : stored new done gone = .stores v r left) : new = some v ∧ r = done := by
  cases new with
  | none => cases stores
  | some w =>
    cases stores
    exact ⟨rfl, rfl⟩

private theorem answers_stored {new : Option V} {done gone r : R}
    (answers : Answers (stored new done gone) r) : r = done ∨ r = gone := by
  cases new with
  | none =>
    rcases answers with same | ⟨new, left, bad⟩
    · cases same
      exact Or.inr rfl
    · cases bad
  | some v =>
    rcases answers with bad | ⟨new, left, same⟩
    · cases bad
    · cases same
      exact Or.inl rfl

theorem childFits_inc {child new : Child} {order : Nat} (step : childInc child order = some new) :
    ChildFits new := by
  unfold childInc at step
  split_ifs at step with full
  obtain rfl := Option.some.inj step
  have room := (not_or.mp full).2
  have wide : childSize < 2 ^ childFreeBits := by decide
  exact (Nat.le_of_not_lt room).trans_lt wide

theorem childFits_dec {child new : Child} {order : Nat} (fits : ChildFits child)
    (step : childDec child order = some new) : ChildFits new := by
  unfold childDec at step
  split_ifs at step
  obtain rfl := Option.some.inj step
  exact (Nat.sub_le child.free _).trans_lt fits

section Trees

variable {tree new : Tree} {frames cls d : Nat} {policy : PolicyFn}

theorem treeFits_put {t : Tree} (default : d < maxClasses) (fits : TreeFits t)
    (step : treePut t frames policy d = some new) : TreeFits new := by
  have wide : treeSize < 2 ^ treeFreeBits := by decide
  unfold treePut at step
  dsimp only at step
  split_ifs at step with room reset
  · obtain rfl := Option.some.inj step
    exact ⟨default, room.trans_lt wide⟩
  · obtain rfl := Option.some.inj step
    exact ⟨fits.1, room.trans_lt wide⟩

theorem treeFits_steal {left : Nat} (small : cls < maxClasses) (fits : TreeFits tree)
    (step : treeStealAt frames policy tree cls = (some new, left)) :
    TreeFits new ∧ left < maxClasses := by
  have less : tree.free - frames < 2 ^ treeFreeBits := (Nat.sub_le _ _).trans_lt fits.2
  unfold treeStealAt at step
  split_ifs at step
  · cases step
  · cases kind : (policy cls tree.cls tree.free).type <;> simp only [kind] at step <;> cases step
    · exact ⟨⟨small, less⟩, small⟩
    · exact ⟨⟨fits.1, less⟩, fits.1⟩
    · exact ⟨⟨small, less⟩, small⟩

theorem treeFits_reserve {reserved : Bool} {target : Nat} (small : cls < maxClasses)
    (fits : TreeFits tree)
    (step : treeReserveOrSteal tree frames policy cls = some (new, reserved, target)) :
    TreeFits new ∧ target < maxClasses := by
  have less : tree.free - frames < 2 ^ treeFreeBits := (Nat.sub_le _ _).trans_lt fits.2
  unfold treeReserveOrSteal at step
  split_ifs at step
  cases kind : (policy cls tree.cls tree.free).type <;> simp only [kind] at step <;> cases step
  · exact ⟨⟨small, Nat.two_pow_pos _⟩, small⟩
  · exact ⟨⟨fits.1, less⟩, fits.1⟩
  · exact ⟨⟨small, Nat.two_pow_pos _⟩, small⟩

theorem treeFits_unreserve (default : d < maxClasses) (small : cls < maxClasses)
    (fits : TreeFits tree)
    (step : treeUnreserveAdd tree frames cls policy d = some (some new)) : TreeFits new := by
  unfold treeUnreserveAdd at step
  split_ifs at step with reserved demote
  · obtain ⟨put, done, same⟩ := Option.map_eq_some_iff.mp step
    obtain rfl := Option.some.inj same
    exact treeFits_put (t := ⟨false, cls, tree.free⟩) default ⟨small, fits.2⟩ done
  · obtain ⟨put, done, same⟩ := Option.map_eq_some_iff.mp step
    obtain rfl := Option.some.inj same
    exact treeFits_put (t := ⟨false, tree.cls, tree.free⟩) default ⟨fits.1, fits.2⟩ done
  · cases step

theorem treeFits_sync {min : Nat} (fits : TreeFits tree)
    (step : treeSyncSteal tree min = some new) :
    TreeFits new := by
  unfold treeSyncSteal at step
  split_ifs at step
  obtain rfl := Option.some.inj step
  exact ⟨fits.1, Nat.two_pow_pos _⟩

end Trees

section Slots

variable {slot new : Reserved} {treeIdx frames startRow : Nat}

theorem slotFits_inc (fits : SlotFits slot)
    (step : llReservedInc slot treeIdx frames = some (some new)) : SlotFits new := by
  have wide : treeSize < 2 ^ treeFreeBits := by decide
  unfold llReservedInc at step
  split_ifs at step with absent room
  · cases step
  · obtain rfl := Option.some.inj (Option.some.inj step)
    exact ⟨room.trans_lt wide, fits.2⟩

theorem slotFits_start (fits : SlotFits slot) (step : llReservedSetStart slot startRow = some new) :
    SlotFits new := by
  unfold llReservedSetStart at step
  split_ifs at step
  obtain rfl := Option.some.inj step
  exact ⟨fits.1, Nat.mod_lt _ (Nat.two_pow_pos _)⟩

theorem slotFits_take {treeIdx : Option Nat}
    (step : llReservedTake slot treeIdx frames = some new) : SlotFits new := by
  obtain ⟨rest, -, rfl⟩ := Option.map_eq_some_iff.mp step
  exact slotFits_none

end Slots

/-! ## Words for entries -/

section Entries

variable (w : Words)

theorem entries_setChild (i : Nat) (word : BitVec 16) :
    { w.entries with lower := w.entries.lower.setChild i (childOf word) } =
      (Words.set (.child i) word w).entries := by
  simp only [Words.entries, Words.set, Lower.setChild, Llfree.mk.injEq, Lower.mk.injEq, true_and,
    and_true]
  funext j
  exact (Function.apply_update (fun _ => childOf) w.children i word j).symm

theorem entries_setTree (idx : Nat) (word : BitVec 32) :
    { w.entries with upper := w.entries.upper.setTree idx (treeOf word) } =
      (Words.set (.tree idx) word w).entries := by
  simp only [Words.entries, Words.set, Upper.setTree, Llfree.mk.injEq, Upper.mk.injEq, true_and,
    and_true]
  funext j
  exact (Function.apply_update (fun _ => treeOf) w.trees idx word j).symm

theorem entries_setSlot (cls index : Nat) (word : BitVec 64) :
    { w.entries with upper := w.entries.upper.setSlot cls index (ofWord word) } =
      (Words.set (.slot cls index) word w).entries := by
  simp only [Words.entries, Words.set, Upper.setSlot, Llfree.mk.injEq, Upper.mk.injEq, true_and]
  funext c j
  by_cases same : c = cls
  · subst same
    simp only [Function.update_self]
    exact (Function.apply_update (fun _ => ofWord) (w.slots c) index word j).symm
  · simp only [Function.update_of_ne same]

theorem childOf_injective : Function.Injective childOf :=
  Function.LeftInverse.injective childWord_childOf

theorem treeOf_injective : Function.Injective treeOf :=
  Function.LeftInverse.injective treeWord_treeOf

theorem ofWord_injective : Function.Injective ofWord :=
  Function.LeftInverse.injective slotWord_ofWord

end Entries

/-! ## Setup -/

def packed (s : Llfree Lower) : Words where
  frames := s.lower.frames
  children i := childWord (s.lower.children i)
  rows := s.lower.rows
  trees idx := treeWord (s.upper.trees idx)
  slots cls index := slotWord (s.upper.slots cls index)

structure Fitting (s : Llfree Lower) : Prop where
  children : ∀ i, ChildFits (s.lower.children i)
  trees : ∀ idx, TreeFits (s.upper.trees idx)
  slots : ∀ cls index, SlotFits (s.upper.slots cls index)

theorem entries_packed {s : Llfree Lower} (fits : Fitting s) : (packed s).entries = s := by
  simp only [Words.entries, packed, childOf_childWord (fits.children _),
    treeOf_treeWord (fits.trees _), ofWord_slotWord (fits.slots _ _)]

private theorem childFits_small {free : Nat} (huge : Bool) (small : free ≤ childSize) :
    ChildFits (childNew free huge) := by
  have wide : childSize < 2 ^ childFreeBits := by decide
  exact small.trans_lt wide

private theorem fitting_lower {buffers : Lower} (frames : Nat) (mode : InitMode)
    (fits : ∀ i, ChildFits (buffers.children i)) (i : Nat) :
    ChildFits ((lowerInit buffers frames mode).2.children i) := by
  have clear : ∀ freeAll,
      ChildFits ((lowerClear { buffers with frames := frames } freeAll).children i) := by
    intro freeAll
    simp only [lowerClear]
    split_ifs
    · refine childFits_small _ ?_
      unfold clearFree
      split_ifs <;> omega
    · exact childFits_small _ (Nat.zero_le _)
    · exact fits i
  cases mode with
  | free => exact clear true
  | alloc => exact clear false
  | recover =>
    simp only [lowerInit, lowerRecover]
    split_ifs
    · exact childFits_small _ (Nat.zero_le _)
    · exact childFits_small _ (Nat.sub_le _ _)
    · exact fits i
  | _ => exact fits i

private theorem fitting_trees {lower : Lower} {mode : InitMode} {buffer trees : Nat → Tree}
    (fits : ∀ idx, TreeFits (buffer idx)) (built : treesInit K mode lower buffer = some trees)
    (idx : Nat) : TreeFits (trees idx) := by
  have fresh : ∀ new, treeNew false K.defaultClass (initTreeCb lower idx) = some new →
      TreeFits new := by
    intro new made
    have wide : treeSize < 2 ^ treeFreeBits := by decide
    unfold treeNew at made
    split_ifs at made with bounds
    obtain rfl := Option.some.inj made
    exact ⟨bounds.2, bounds.1.trans_lt wide⟩
  unfold treesInit at built
  dsimp only at built
  split_ifs at built with none all
  · obtain rfl := Option.some.inj built
    exact fits idx
  · obtain rfl := Option.some.inj built
    dsimp only
    split_ifs
    · cases made : treeNew false K.defaultClass (initTreeCb lower idx) with
      | none => exact fits idx
      | some new => exact fresh new made
    · exact fits idx

theorem fitting_init {mode : InitMode} {buffers s : Llfree Lower} {r : Result}
    (fits : Fitting buffers) (init : llfreeInit K mode buffers = some (r, s)) : Fitting s := by
  have lower := fun i => fitting_lower K.frames mode fits.children i
  unfold llfreeInit at init
  split_ifs at init with classes frames
  · cases init
    exact fits
  · revert init lower
    cases lowerInit buffers.lower K.frames mode with
    | mk res l =>
      intro lower init
      dsimp only at init lower
      split_ifs at init with failed
      · cases init
        exact ⟨lower, fits.trees, fits.slots⟩
      · obtain ⟨trees, built, same⟩ := Option.map_eq_some_iff.mp init
        obtain ⟨-, rfl⟩ := Prod.mk.inj same
        refine ⟨lower, fitting_trees fits.trees built, fun cls index => ?_⟩
        simp only [llLocalInit]
        split_ifs
        · exact slotFits_none
        · exact fits.slots cls index

theorem fitting_zeroed (mode : InitMode) : Fitting (initZeroed K mode) := by
  have zeros : Fitting ⟨zeroed, fun _ => ⟨false, 0, 0⟩, fun _ _ => noReserved⟩ :=
    ⟨fun _ => Nat.two_pow_pos _, fun _ => ⟨Nat.succ_pos _, Nat.two_pow_pos _⟩,
      fun _ _ => slotFits_none⟩
  unfold initZeroed
  dsimp only
  cases init : llfreeInit K mode ⟨zeroed, fun _ => ⟨false, 0, 0⟩, fun _ _ => noReserved⟩ with
  | none => exact zeros
  | some y => exact fitting_init zeros init

abbrev wordsUpdate (K : Config) (o : WordOp) : Update Words Nat o.Res :=
  packedUpdate (Words.memory K) K o

def wordVal (K : Config) : (o : WordOp) → (wordsUpdate K o).Val → (wordUpdate K o).Val
  | .lower (.childInc ..) => childOf
  | .lower (.childDec ..) => childOf
  | .lower (.rowZeros ..) => id
  | .lower (.rowToggle ..) => id
  | .lower (.childLoad ..) => Words.entries
  | .lower (.childCas ..) => Words.entries
  | .lower (.rowCas ..) => Words.entries
  | .buffer _ => Words.entries
  | .table (.treesLoad ..) => Words.entries
  | .table (.treesCas ..) => Words.entries
  | .table (.treesSteal ..) => treeOf
  | .table (.treesPut ..) => treeOf
  | .table (.treesReserveOrSteal ..) => treeOf
  | .table (.treesUnreserve ..) => treeOf
  | .table (.treesSyncSteal ..) => treeOf
  | .table (.localDec ..) => ofWord
  | .table (.localInc ..) => ofWord
  | .table (.localSetStart ..) => ofWord
  | .table (.localSwap ..) => ofWord
  | .table (.localTake ..) => ofWord

private theorem wordVal_injective (o : WordOp) (update : isSingle o = false) :
    Function.Injective (wordVal K o) := by
  cases o with
  | buffer o => cases update
  | lower o =>
    cases o with
    | childInc i order => exact childOf_injective
    | childDec i order => exact childOf_injective
    | rowZeros row order => exact Function.injective_id
    | rowToggle row mask expected => exact Function.injective_id
    | _ => cases update
  | table o =>
    cases o with
    | treesLoad idx => cases update
    | treesCas idx expected desired => cases update
    | localDec cls index treeIdx frames => exact ofWord_injective
    | localInc cls index treeIdx frames => exact ofWord_injective
    | localSetStart cls index startRow => exact ofWord_injective
    | localSwap cls index new => exact ofWord_injective
    | localTake cls index treeIdx frames => exact ofWord_injective
    | _ => exact treeOf_injective

private theorem entry_load {V : Type} (c : Cell) (f : BitVec c.bits → V) (w : Words) :
    (if c.Exists K w.entries.lower then some (f (w.get c)) else none) =
      ((Words.memory K).load c w).map f := by
  change _ = Option.map f (if c.Exists K w.entries.lower then some (w.get c) else none)
  split_ifs <;> rfl

private theorem wordVal_load (o : WordOp) (w : Words) :
    (wordUpdate K o).load w.entries = ((wordsUpdate K o).load w).map (wordVal K o) := by
  cases o with
  | buffer o => rfl
  | lower o =>
    cases o with
    | childInc i order => exact entry_load (.child i) childOf w
    | childDec i order => exact entry_load (.child i) childOf w
    | rowZeros i order => exact entry_load (.row i) id w
    | rowToggle i mask expected => exact entry_load (.row i) id w
    | _ => rfl
  | table o =>
    cases o with
    | treesLoad idx => rfl
    | treesCas idx expected desired => rfl
    | localDec cls index treeIdx frames => exact entry_load (.slot cls index) ofWord w
    | localInc cls index treeIdx frames => exact entry_load (.slot cls index) ofWord w
    | localSetStart cls index startRow => exact entry_load (.slot cls index) ofWord w
    | localSwap cls index new => exact entry_load (.slot cls index) ofWord w
    | localTake cls index treeIdx frames => exact entry_load (.slot cls index) ofWord w
    | _ => exact entry_load (.tree _) treeOf w

private theorem wordVal_store (o : WordOp) (v : (wordsUpdate K o).Val) (w : Words) :
    (wordUpdate K o).store (wordVal K o v) w.entries = ((wordsUpdate K o).store v w).entries := by
  cases o with
  | buffer o => rfl
  | lower o =>
    cases o with
    | childInc i order => exact entries_setChild w i v
    | childDec i order => exact entries_setChild w i v
    | _ => rfl
  | table o =>
    cases o with
    | treesLoad idx => rfl
    | treesCas idx expected desired => rfl
    | localDec cls index treeIdx frames => exact entries_setSlot w cls index v
    | localInc cls index treeIdx frames => exact entries_setSlot w cls index v
    | localSetStart cls index startRow => exact entries_setSlot w cls index v
    | localSwap cls index new => exact entries_setSlot w cls index v
    | localTake cls index treeIdx frames => exact entries_setSlot w cls index v
    | _ => exact entries_setTree w _ v

private theorem child_same {word : BitVec 16} {child : Child} (fits : ChildFits child) :
    word = childWord child ↔ childOf word = child := by
  constructor
  · rintro rfl
    exact childOf_childWord fits
  · rintro rfl
    exact (childWord_childOf word).symm

private theorem once_load {o : WordOp} {c : Cell} {w : Words} (f : BitVec c.bits → o.Res × Words)
    (here : wordsUpdate K o = .ofExec (singleExec (Words.memory K) o) 0)
    (loads : singleExec (Words.memory K) o w = ((Words.memory K).load c w).map f)
    (outside : ¬c.Exists K w.entries.lower → WordOp.exec K o w.entries = none)
    (inside : c.Exists K w.entries.lower →
      WordOp.exec K o w.entries = some ((f (w.get c)).1, (f (w.get c)).2.entries)) :
    (wordUpdate K o).once w.entries =
      ((wordsUpdate K o).once w).map fun y => (y.1, y.2.entries) := by
  rw [once_wordUpdate, here, Update.once_ofExec, loads, Option.map_map]
  refine Eq.trans ?_ (entry_load c (fun word => ((f word).1, (f word).2.entries)) w)
  split_ifs with exist
  · exact inside exist
  · exact outside exist

private theorem once_childCas {i : Nat} {expected desired : Child} (w : Words)
    (fits : ChildFits expected) (fits' : ChildFits desired) :
    (wordUpdate K (.lower (.childCas i expected desired))).once w.entries =
      ((wordsUpdate K (.lower (.childCas i expected desired))).once w).map
        fun y => (y.1, y.2.entries) := by
  have done := entries_setChild w i (childWord desired)
  rw [childOf_childWord fits'] at done
  refine once_load (c := .child i) (fun word => if word = childWord expected then
    (true, w.set (.child i) (childWord desired)) else (false, w)) rfl rfl ?_ ?_
  · intro (missing : ¬i < w.entries.lower.entryCount)
    simp only [WordOp.exec, LoOp.exec_childCas, if_neg missing, Option.map_none]
  · intro (exist : i < w.entries.lower.entryCount)
    simp only [WordOp.exec, LoOp.exec_childCas, if_pos exist, Option.map_some, Words.get,
      child_same fits]
    by_cases same : w.entries.lower.children i = expected
    · rw [if_pos same, if_pos (show childOf (w.children i) = expected from same)]
      exact congrArg (fun s => some (true, s)) done
    · rw [if_neg same, if_neg (show childOf (w.children i) ≠ expected from same)]
      rfl

private theorem once_single {o : WordOp} (w : Words) (single : isSingle o = true)
    (asks : (wordTerms True).asks o) : (wordUpdate K o).once w.entries =
      ((wordsUpdate K o).once w).map fun y => (y.1, y.2.entries) := by
  cases o with
  | buffer o => exact absurd asks id
  | lower o =>
    cases o with
    | childLoad i =>
      refine once_load (c := .child i) (fun word => (childOf word, w)) rfl rfl ?_ ?_
      · intro (missing : ¬i < w.entries.lower.entryCount)
        simp only [WordOp.exec, LoOp.exec_childLoad, if_neg missing, Option.map_none]
      · intro (exist : i < w.entries.lower.entryCount)
        simp only [WordOp.exec, LoOp.exec_childLoad, if_pos exist]
        rfl
    | childCas i expected desired => exact once_childCas w (asks trivial).1 (asks trivial).2
    | rowCas row expected desired =>
      refine once_load (c := .row row) (fun word => if word = expected then
        (true, w.set (.row row) desired) else (false, w)) rfl rfl ?_ ?_
      · intro (missing : ¬row < w.entries.lower.rowCount)
        simp only [WordOp.exec, LoOp.exec_rowCas, if_neg missing, Option.map_none]
      · intro (exist : row < w.entries.lower.rowCount)
        simp only [WordOp.exec, LoOp.exec_rowCas, if_pos exist, Option.map_some]
        by_cases same : w.entries.lower.rows row = expected
        · rw [if_pos same, if_pos (show w.get (.row row) = expected from same)]
          rfl
        · rw [if_neg same, if_neg (show w.get (.row row) ≠ expected from same)]
          rfl
    | _ => cases single
  | table o =>
    cases o with
    | treesLoad idx =>
      refine once_load (c := .tree idx) (fun word => (treeOf word, w)) rfl rfl ?_ ?_
      · intro (missing : ¬idx < K.treesLen)
        simp only [WordOp.exec, TableOp.exec, if_neg missing, Option.map_none]
      · intro (exist : idx < K.treesLen)
        simp only [WordOp.exec, TableOp.exec, if_pos exist]
        rfl
    | treesCas idx expected desired => exact absurd asks id
    | _ => cases single

private theorem steal_fits {idx frames cls x left : Nat} {tree new : Tree} {r : Option Nat}
    (small : x < maxClasses) (fits : TreeFits tree)
    (stores : (wordUpdate K (.table (.treesSteal idx frames cls))).attempt tree x =
      .stores new r left) : TreeFits new ∧ left < maxClasses := by
  simp only [wordUpdate, treeUpdate] at stores
  split at stores
  · next seen =>
    cases stores
    exact treeFits_steal small fits seen
  · cases stores

private theorem reserve_fits {idx frames cls x left : Nat} {tree new : Tree}
    {r : Option (Bool × Nat × Nat)} (small : cls < maxClasses) (fits : TreeFits tree)
    (stores : (wordUpdate K (.table (.treesReserveOrSteal idx frames cls))).attempt tree x =
      .stores new r left) : TreeFits new ∧ ∀ y, r = some y → y.2.2 < maxClasses := by
  simp only [wordUpdate, treeUpdate] at stores
  split at stores
  · next step =>
    cases stores
    obtain ⟨stored, target⟩ := treeFits_reserve small fits step
    exact ⟨stored, fun y same => Option.some.inj same ▸ target⟩
  · cases stores

private theorem left_small {idx frames cls x : Nat} (small : cls < maxClasses)
    (left : (wordsUpdate K (.table (.treesSteal idx frames cls))).Left x) : x < maxClasses := by
  induction left with
  | vars => exact small
  | lost v new r x left before stores ih =>
    have stores' : mapAttempt treeWord ((wordUpdate K (.table (.treesSteal idx frames cls))).attempt
        (treeOf v) x) = .stores new r left := stores
    obtain ⟨stolen, same, -⟩ := mapAttempt_stores stores'
    exact (steal_fits ih (treeOf_fits v) same).2

private theorem attempt_update (default : K.defaultClass < maxClasses) {o : WordOp}
    (v : (wordsUpdate K o).Val) {x : Nat} (update : isSingle o = false)
    (asks : (wordTerms True).asks o) (left : (wordsUpdate K o).Left x) :
    (wordUpdate K o).attempt (wordVal K o v) x =
      mapAttempt (wordVal K o) ((wordsUpdate K o).attempt v x) := by
  symm
  cases o with
  | buffer o => cases update
  | lower o =>
    cases o with
    | childInc i order =>
      exact mapAttempt_mapAttempt fun new r left stores =>
        childOf_childWord (childFits_inc (stored_inv stores).1)
    | childDec i order =>
      exact mapAttempt_mapAttempt fun new r left stores =>
        childOf_childWord (childFits_dec (childOf_fits v) (stored_inv stores).1)
    | rowZeros row order => exact mapAttempt_mapAttempt fun _ _ _ _ => rfl
    | rowToggle row mask expected => exact mapAttempt_mapAttempt fun _ _ _ _ => rfl
    | _ => cases update
  | table o =>
    cases o with
    | treesLoad idx => cases update
    | treesCas idx expected desired => cases update
    | treesSteal idx frames cls =>
      exact mapAttempt_mapAttempt fun new r left' stores =>
        treeOf_treeWord (steal_fits (left_small (asks trivial) left) (treeOf_fits v) stores).1
    | treesPut idx frames =>
      refine mapAttempt_mapAttempt fun new r left' stores => treeOf_treeWord ?_
      simp only [wordUpdate, treeUpdate] at stores
      split at stores
      · next seen =>
        cases stores
        exact treeFits_put default (treeOf_fits v) seen
      · cases stores
    | treesReserveOrSteal idx frames cls =>
      exact mapAttempt_mapAttempt fun new r left' stores =>
        treeOf_treeWord (reserve_fits (asks trivial) (treeOf_fits v) stores).1
    | treesUnreserve idx free cls =>
      refine mapAttempt_mapAttempt fun new r left' stores => treeOf_treeWord ?_
      simp only [wordUpdate, treeUpdate] at stores
      split at stores
      · cases stores
      · cases stores
      · next seen =>
        cases stores
        exact treeFits_unreserve default (asks trivial) (treeOf_fits v) seen
    | treesSyncSteal idx min =>
      exact mapAttempt_mapAttempt fun new r left stores =>
        treeOf_treeWord (treeFits_sync (treeOf_fits v) (stored_inv stores).1)
    | localDec cls index treeIdx frames =>
      exact mapAttempt_mapAttempt fun new r left stores =>
        ofWord_slotWord (slotFits_dec (ofWord_fits v) (stored_inv stores).1)
    | localInc cls index treeIdx frames =>
      refine mapAttempt_mapAttempt fun new r left' stores => ofWord_slotWord ?_
      simp only [wordUpdate, slotUpdate] at stores
      split at stores
      · cases stores
      · next inc seen =>
        obtain ⟨rfl, -⟩ := stored_inv stores
        exact slotFits_inc (ofWord_fits v) seen
    | localSetStart cls index startRow =>
      exact mapAttempt_mapAttempt fun new r left stores =>
        ofWord_slotWord (slotFits_start (ofWord_fits v) (stored_inv stores).1)
    | localSwap cls index new =>
      refine mapAttempt_mapAttempt (a := .stores new (ofWord v) 0) fun _ _ _ stores => ?_
      cases stores
      exact ofWord_slotWord (asks trivial)
    | localTake cls index treeIdx frames =>
      exact mapAttempt_mapAttempt fun new r left stores =>
        ofWord_slotWord (slotFits_take (stored_inv stores).1)

section Given

variable {M : Type} {A : WordMemory M} {o : WordOp} {m m' : M} {r : o.Res}

theorem single_given (single : isSingle o = true)
    (done : (packedUpdate A K o).once m = some (r, m')) : (wordTerms True).given o r := by
  cases o with
  | buffer o => trivial
  | lower o =>
    cases o with
    | childLoad i =>
      rw [show packedUpdate A K (.lower (.childLoad i)) = .ofExec (singleExec A _) 0 from rfl,
        Update.once_ofExec] at done
      obtain ⟨word, -, same⟩ := Option.map_eq_some_iff.mp done
      obtain ⟨rfl, -⟩ := Prod.mk.inj same
      exact fun _ => childOf_fits word
    | _ => trivial
  | table o =>
    cases o with
    | treesReserveOrSteal idx frames cls => cases single
    | localTake cls index treeIdx frames => cases single
    | _ => trivial

theorem update_given {v : (packedUpdate A K o).Val} {x : Nat}
    (answers : Answers ((packedUpdate A K o).attempt v x) r) (update : isSingle o = false) :
    (wordTerms True).given o r := by
  cases o with
  | buffer o => trivial
  | lower o =>
    cases o with
    | childLoad i => cases update
    | _ => trivial
  | table o =>
    cases o with
    | treesReserveOrSteal idx frames cls =>
      rintro - small reserved free target rfl
      have seen : Answers ((wordUpdate K (.table (.treesReserveOrSteal idx frames cls))).attempt
        (treeOf v) x) (some (reserved, free, target)) := answers_map answers
      rcases seen with gives | ⟨new, left, stores⟩
      · simp only [wordUpdate, treeUpdate] at gives
        split at gives <;> cases gives
      · exact (reserve_fits small (treeOf_fits v) stores).2 _ rfl
    | localTake cls index treeIdx frames =>
      intro _
      have seen : Answers (stored (llReservedTake (ofWord v) treeIdx frames) (true, ofWord v)
        (false, ofWord v)) r := answers_map answers
      have same : r.2 = ofWord v := by
        rcases answers_stored seen with rfl | rfl <;> rfl
      rw [same]
      exact ofWord_fits v
    | _ => trivial

end Given

def packing (default : K.defaultClass < maxClasses) :
    Coding (wordTerms True) (packedMeans (Words.memory K) K) (wordMeans K) where
  mem := Words.entries
  val := wordVal K
  injective := wordVal_injective
  single _ := rfl
  vars o := by
    cases o with
    | buffer o => rfl
    | lower o => cases o <;> rfl
    | table o => cases o <;> rfl
  load := wordVal_load
  store o _ v w _ := wordVal_store o v w
  once _ w single asks := once_single w single asks
  attempt _ v _ update asks left := attempt_update default v update asks left
  gives _ _ _ _ single done := single_given single done
  answers _ _ _ _ update _ _ answers := update_given answers update

private theorem uncutAttempt_eq {o : WordOp} (v : (wordsUpdate K o).Val) (x : Nat) :
    (uncutUpdate K o).attempt (wordVal K o v) x = (wordUpdate K o).attempt (wordVal K o v) x := by
  cases o with
  | buffer o => rfl
  | lower o => cases o <;> rfl
  | table o =>
    cases o with
    | localSetStart cls index startRow =>
      exact congrArg (stored · (true, ofWord v) (false, ofWord v))
        (reservedSetStart_eq (ofWord_fits v))
    | _ => rfl

def uncutting (default : K.defaultClass < maxClasses) :
    Coding (wordTerms True) (packedMeans (Words.memory K) K) (uncutMeans K) where
  mem := Words.entries
  val := wordVal K
  injective := wordVal_injective
  single _ := rfl
  vars := (packing default).vars
  load := wordVal_load
  store o _ v w _ := wordVal_store o v w
  once _ w single asks :=
    (congrArg (fun u => u.once w.entries) (uncutUpdate_single single)).trans
      (once_single w single asks)
  attempt _ v x update asks left :=
    (uncutAttempt_eq v x).trans (attempt_update default v update asks left)
  gives _ _ _ _ single done := single_given single done
  answers _ _ _ _ update _ _ answers := update_given answers update

/-! ## Clients over words -/

abbrev PackedClients (K : Config) (ι : Type) := Triers (packedMeans (Words.memory K) K) Client ι

def unpacked {ι : Type} (P : PackedClients K ι) : TryingClients K ι where
  mem := P.mem.entries
  thread i := match P.thread i with
    | .between p => .between p
    | .trying o k seen left => .trying o k (wordVal K o seen) left
  kept := P.kept

variable {ι : Type} [DecidableEq ι] {w : Words} {h : ι → Client} {P : PackedClients K ι}

omit [DecidableEq ι] in
theorem pool_unpacked (default : K.defaultClass < maxClasses) :
    (packing default).pool P = unpacked P := by
  have threads : ∀ i, (packing default).thread (P.thread i) = (unpacked P).thread i := by
    intro i
    simp only [unpacked]
    cases P.thread i <;> rfl
  exact congrArg (Triers.mk P.mem.entries · P.kept) (funext threads)

def PackedReaches (K : Config) (w : Words) (h : ι → Client) (P : PackedClients K ι) : Prop :=
  TryReaches (packedMeans (Words.memory K) K) True (StackCall K)
    (Triers.idle (packedMeans (Words.memory K) K) w h) P

inductive PackedLife (K : Config) : Words → (ι → Client) → Prop
  | first (mode : InitMode) (w : Words) (fresh : FreshMode mode)
      (init : Initialised K mode w.entries) : PackedLife K w (newcomers ι)
  | again (w w' : Words) (h h' : ι → Client) (P : PackedClients K ι) (upper : Upper)
      (life : PackedLife K w h) (reach : PackedReaches K w h P)
      (init : llfreeInit K .recover ⟨P.mem.entries.lower, upper⟩ = some (llfreeOk 0 0, w'.entries))
      (known : ∀ i, (h' i).lent.Sublist ((indivisible (unpacked P)).data i).lent)
      (fine : ∀ i, (h' i).refused = 0) : PackedLife K w' h'

theorem life_default (life : PackedLife K w h) : K.defaultClass < maxClasses := by
  cases life with
  | first mode w fresh init =>
    obtain ⟨buffers, init⟩ := init
    exact init_default init fresh.ne_none
  | again w w' h h' P upper life reach init known fine => exact init_default init (by simp)

theorem trying_of_packed (default : K.defaultClass < maxClasses) (reach : PackedReaches K w h P) :
    (∀ i, Orderly (wordTerms True) (P.thread i)) ∧ TryingReaches K w.entries h (unpacked P) := by
  obtain ⟨orderly, reach'⟩ := reaches_coded (packing default)
    (fun _ _ _ allowed => call_atMost allowed) reach
  rw [pool_unpacked default] at reach'
  exact ⟨orderly, reach'⟩

theorem life_of_packed (life : PackedLife K w h) : TryingLife K w.entries h := by
  induction life with
  | first mode w fresh init => exact .first mode w.entries fresh init
  | again w w' h h' P upper life reach init known fine ih =>
    obtain ⟨-, reach'⟩ := trying_of_packed (life_default life) reach
    exact .again w.entries w'.entries h h' (unpacked P) upper ih reach' init known fine

def uncut (P : PackedClients K ι) : UncutClients K ι where
  mem := P.mem.entries
  thread i := match P.thread i with
    | .between p => .between p
    | .trying o k seen left => .trying o k (wordVal K o seen) left
  kept := P.kept

omit [DecidableEq ι] in
theorem pool_uncut (default : K.defaultClass < maxClasses) :
    (uncutting default).pool P = uncut P := by
  have threads : ∀ i, (uncutting default).thread (P.thread i) = (uncut P).thread i := by
    intro i
    simp only [uncut]
    cases P.thread i <;> rfl
  exact congrArg (Triers.mk P.mem.entries · P.kept) (funext threads)

theorem uncut_of_packed (fits : Fits K) (default : K.defaultClass < maxClasses)
    (reach : PackedReaches K w h P) : UncutReaches K w.entries h (uncut P) := by
  obtain ⟨-, reach'⟩ := reaches_coded (uncutting default)
    (fun _ _ _ allowed => call_atMost allowed) reach
  rw [pool_uncut default] at reach'
  rw [UncutReaches, uncutCall_eq fits]
  exact reach'

omit [DecidableEq ι] in
private theorem uncut_data (i : ι) :
    ((uncut P).whole fun _ => (0 : Int)).data i = (indivisible (unpacked P)).data i := by
  simp only [Threads.data, Triers.whole, uncut, unpacked]
  cases P.thread i <;> rfl

theorem uncutLife_of_packed (fits : Fits K) (life : PackedLife K w h) :
    UncutLife K w.entries h := by
  induction life with
  | first mode w fresh init => exact .first mode w.entries fresh init
  | again w w' h h' P upper life reach init known fine ih =>
    have reach' := uncut_of_packed fits (life_default life) reach
    exact .again w.entries w'.entries h h' (uncut P) upper ih reach' init
      (fun i => (uncut_data (P := P) i).symm ▸ known i) fine

theorem words_fine [Fintype ι] (byClass : ByClass K.policy) (fits : Fits K)
    (life : PackedLife K w h) (reach : PackedReaches K w h P) (i : ι) : P.Fine i := by
  have default := life_default life
  obtain ⟨orderly, reach'⟩ := trying_of_packed default reach
  obtain ⟨-, fine, -⟩ := trying_sound byClass fits (life_of_packed life) reach'
  exact fine_coded (packing default) (orderly i) ((pool_unpacked default).symm ▸ fine i)

/-- Bit fields cut nothing off: however loads and exchanges of words interleave, and at whichever
of them the allocator crashed before, the clients are where loads and exchanges of entries without
bounds lead, and no callback fails an assertion. -/
theorem packed_refines [Fintype ι] (byClass : ByClass K.policy) (fits : Fits K)
    (life : PackedLife K w h) (reach : PackedReaches K w h P) :
    UncutLife K w.entries h ∧ UncutReaches K w.entries h (uncut P) ∧ ∀ i, P.Fine i :=
  ⟨uncutLife_of_packed fits life, uncut_of_packed fits (life_default life) reach,
    words_fine byClass fits life reach⟩

/-! ## An allocation -/

abbrev oneGet : UpProg Client := llfreeGet oneTree none ⟨0, 0, some 0⟩ >>= fun r =>
  .ret (Client.received ⟨[], 0⟩ ⟨0, 0, some 0⟩ r)

theorem one_call : StackCall oneTree ⟨[], 0⟩ ⟨[], 0⟩ (words oneTree oneGet) :=
  ⟨oneGet, .get ⟨[], 0⟩ none ⟨0, 0, some 0⟩ fun _ => ⟨by decide, by simp⟩, rfl⟩

theorem packed_zeroed (mode : InitMode) :
    (packed (initZeroed K mode)).entries = initZeroed K mode :=
  entries_packed (fitting_zeroed mode)

theorem one_alone : ∃ t, Prog.run (fun o => (wordUpdate oneTree o).once) (words oneTree oneGet)
    (packed (initZeroed oneTree .free)).entries = some (⟨[⟨0, 0, 0⟩], 0⟩, t) := by
  obtain ⟨⟨a, t⟩, get, first⟩ := Option.map_eq_some_iff.mp
    (show ((Prog.run (UpOp.exec oneTree) (llfreeGet oneTree none ⟨0, 0, some 0⟩)
      (initZeroed oneTree .free)).map Prod.fst) = some (llfreeOk 0 0) by decide +kernel)
  obtain rfl : a = llfreeOk 0 0 := first
  have alone := (Solo.run_words (by decide) oneGet rfl).trans (Prog.run_bind_some get)
  rw [← funext once_wordUpdate, ← packed_zeroed .free] at alone
  exact ⟨_, alone⟩

/-- One of two clients has allocated a frame. -/
theorem packed_refines_one : ∃ P : PackedClients oneTree (Fin 2),
    P.thread 0 = .between (.ret ⟨[⟨0, 0, 0⟩], 0⟩) ∧
      UncutReaches oneTree (initZeroed oneTree .free) (newcomers (Fin 2)) (uncut P) ∧
      ∀ i, P.Fine i := by
  obtain ⟨t, alone⟩ := one_alone
  obtain ⟨P, reach, -, thread⟩ := coded_solo (packing (by decide)) True (i := (0 : Fin 2))
    (P := Triers.idle _ (packed (initZeroed oneTree .free)) (newcomers (Fin 2))) rfl one_call
    (call_atMost one_call) alone
  have begun : Initialised oneTree .free (initZeroed oneTree .free) :=
    initZeroed_initialised (by decide)
  rw [← packed_zeroed .free] at begun
  obtain ⟨-, whole, fine⟩ := packed_refines oneTree_standard.byClass (by decide)
    (.first .free _ (Or.inl rfl) begun) reach
  rw [packed_zeroed] at whole
  exact ⟨P, by rw [thread]; rfl, whole, fine⟩

end LLFree.Upper.Packed

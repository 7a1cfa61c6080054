/- module: LLFree/Layout/Header
   digest: The slices of the slot header, and when both size computations agree. -/

import LLFree.Code.Layout
import LLFree.Upper.Sequential

/-!
One computation adds up the slots of the configured classes, the other one those of the first
classes of the header. They differ by the slots of the classes with a larger number.
-/

set_option autoImplicit false
set_option relaxedAutoImplicit false

namespace LLFree.Layout.Header

open LLFree.Code.Types LLFree.Code.Entries LLFree.Code.Lower LLFree.Code.Local LLFree.Code.Shared
open LLFree.Code.Setup LLFree.Code.Layout LLFree.Upper.Sequential

variable {K : Config} {s : Llfree Lower} {table : Nat → ClassLocals} {cls n : Nat}

/-! ## Sums -/

private theorem addCounts_from (counts : List Nat) (total : Nat) :
    counts.foldl (fun total count => sizeT (total + count)) (sizeT total) =
      sizeT (total + counts.sum) := by
  induction counts generalizing total with
  | nil => rfl
  | cons count rest ih =>
    have step : sizeT (sizeT total + count) = sizeT (total + count) := Nat.mod_add_mod ..
    rw [List.foldl_cons, step, ih, List.sum_cons, Nat.add_assoc]

theorem addCounts_eq (counts : List Nat) : addCounts counts = sizeT counts.sum := by
  have sum := addCounts_from counts 0
  rwa [Nat.zero_add] at sum

private theorem sum_update {f : Nat → Nat} {c : Nat} (k : Nat) (zero : f c = 0) (n : Nat) :
    ((List.range n).map (Function.update f c k)).sum =
      ((List.range n).map f).sum + if c < n then k else 0 := by
  induction n with
  | zero => simp
  | succ n ih =>
    rw [List.range_succ, List.map_append, List.sum_append, List.map_append, List.sum_append, ih]
    by_cases here : n = c
    · subst here
      simp [zero]
    · have other : c < n + 1 ↔ c < n := by omega
      simp [Function.update_of_ne here, other]
      omega

/-! ## The table -/

def slotCount (table : Nat → ClassLocals) (cls : Nat) : Nat := (table cls).len.getD 0

theorem placeClasses_other {classes : List (Nat × Nat)} (offset : Nat)
    (absent : cls ∉ classes.map Prod.fst) : placeClasses classes offset table cls = table cls := by
  induction classes generalizing offset table with
  | nil => rfl
  | cons first rest ih =>
    rw [List.map_cons, List.mem_cons, not_or] at absent
    rw [placeClasses, ih _ absent.2, Function.update_of_ne absent.1]

theorem sum_placeClasses {classes : List (Nat × Nat)} (table : Nat → ClassLocals) (offset : Nat)
    (distinct : (classes.map Prod.fst).Nodup)
    (empty : ∀ c ∈ classes.map Prod.fst, slotCount table c = 0) (n : Nat) :
    ((List.range n).map (slotCount (placeClasses classes offset table))).sum =
      ((List.range n).map (slotCount table)).sum +
        ((classes.filter (·.1 < n)).map Prod.snd).sum := by
  induction classes generalizing offset table with
  | nil => simp [placeClasses]
  | cons first rest ih =>
    obtain ⟨cls, count⟩ := first
    rw [List.map_cons, List.nodup_cons] at distinct
    have updated : ∀ slice : ClassLocals, slice.len = some count →
        slotCount (Function.update table cls slice) =
          Function.update (slotCount table) cls count := by
      intro slice len
      funext c
      by_cases here : c = cls
      · subst here
        simp [slotCount, len]
      · simp [slotCount, Function.update_of_ne here]
    have own := empty cls (by simp)
    rw [placeClasses, ih _ _ distinct.2, updated _ rfl, sum_update count own n]
    · by_cases low : cls < n
      · simp only [low, if_true, decide_true, List.filter_cons_of_pos, List.map_cons, List.sum_cons]
        rw [Nat.add_assoc]
      · simp [low]
    · intro c member
      have other : c ≠ cls := fun same => distinct.1 (same ▸ member)
      rw [updated _ rfl, Function.update_of_ne other]
      exact empty c (List.mem_cons_of_mem _ member)

def highSlots (classing : Classing) : Nat :=
  ((classing.classes.filter (classing.classes.length ≤ ·.1)).map Prod.snd).sum

private theorem sum_classes (classes : List (Nat × Nat)) (n : Nat) :
    (classes.map Prod.snd).sum = ((classes.filter (·.1 < n)).map Prod.snd).sum +
      ((classes.filter (n ≤ ·.1)).map Prod.snd).sum := by
  induction classes with
  | nil => rfl
  | cons first rest ih =>
    rw [List.map_cons, List.sum_cons, ih]
    by_cases low : first.1 < n
    · have high : ¬ n ≤ first.1 := Nat.not_le_of_lt low
      simp only [low, high, decide_true, decide_false, List.filter_cons_of_pos, List.map_cons,
        List.sum_cons, Bool.false_eq_true, not_false_iff, List.filter_cons_of_neg]
      omega
    · have high : n ≤ first.1 := Nat.le_of_not_lt low
      simp only [low, high, decide_true, decide_false, List.filter_cons_of_pos, List.map_cons,
        List.sum_cons, Bool.false_eq_true, not_false_iff, List.filter_cons_of_neg]
      omega

/-! ## The two sizes -/

private theorem lowerInit_frames (buffers : Lower) (frames : Nat) (mode : InitMode) :
    (lowerInit buffers frames mode).2.frames = frames := by
  cases mode <;> rfl

theorem initialised_frames {mode : InitMode} (init : Initialised K mode s) :
    s.lower.frames = K.frames ∧ K.numClasses ≤ maxClasses := by
  obtain ⟨buffers, done⟩ := init
  have kept := lowerInit_frames buffers.lower K.frames mode
  unfold llfreeInit at done
  split_ifs at done with classes size
  · cases done
  · cases lower : lowerInit buffers.lower K.frames mode with
    | mk res l =>
      rw [lower] at kept done
      dsimp only at done
      split_ifs at done with failed
      · obtain ⟨rfl, -⟩ := Prod.mk.inj (Option.some.inj done)
        exact absurd rfl failed
      · obtain ⟨trees, -, same⟩ := Option.map_eq_some_iff.mp done
        obtain ⟨-, rfl⟩ := Prod.mk.inj same
        exact ⟨kept, classes.2⟩

/-- After a successful `llfree_init` both computations agree exactly when the classes numbered from
`num_classes` on have a multiple of `2 ^ 58` slots: none, or more than any buffer can hold. -/
theorem sizes_agree_iff {mode : InitMode} (init : Initialised K mode s)
    (distinct : (K.classing.classes.map Prod.fst).Nodup) :
    llfreeMetadataSizeOf s (localHeader K.classing) = llfreeMetadataSize K.classing K.frames ↔
      2 ^ 58 ∣ highSlots K.classing := by
  obtain ⟨frames, few⟩ := initialised_frames init
  have num : (localHeader K.classing).numClasses = K.classing.classes.length :=
    Nat.mod_eq_of_lt (Nat.lt_of_le_of_lt few (by decide))
  have header : sizeAlignUp localBytes cacheSize = 256 := rfl
  have empty : ((List.range K.classing.classes.length).map
      (slotCount fun _ => ⟨0, none⟩)).sum = 0 := by
    change ((List.range K.classing.classes.length).map fun _ => 0).sum = 0
    simp
  have table := sum_placeClasses (fun _ => ⟨0, none⟩) 0 distinct (fun _ _ => rfl)
    K.classing.classes.length
  have total := sum_classes K.classing.classes K.classing.classes.length
  rw [empty, Nat.zero_add] at table
  rw [← highSlots] at total
  have listed : llLocalMemSize (localHeader K.classing) = sizeT (256 + sizeT (entryBytes * sizeT
      ((K.classing.classes.filter (·.1 < K.classing.classes.length)).map Prod.snd).sum)) := by
    rw [← table, ← addCounts_eq, ← header, llLocalMemSize, num]
    rfl
  have known : llLocalSize K.classing = sizeT (256 + sizeT (entryBytes * sizeT
      (K.classing.classes.map Prod.snd).sum)) := by
    rw [llLocalSize, addCounts_eq, header]
  rw [llfreeMetadataSizeOf, llfreeMetadataSize, frames, MetaSize.mk.injEq, listed, known, total]
  simp only [sizeT, entryBytes, true_and, and_true]
  omega

/-- The classes of a simple configuration are numbered in order. -/
theorem sizes_agree_simple :
    llfreeMetadataSizeOf (initZeroed ⟨8192, llfreeClassingSimple 2⟩ .free)
        (localHeader (llfreeClassingSimple 2)) =
      llfreeMetadataSize (llfreeClassingSimple 2) 8192 := by
  have init : Initialised ⟨8192, llfreeClassingSimple 2⟩ .free
      (initZeroed ⟨8192, llfreeClassingSimple 2⟩ .free) := initZeroed_initialised (by decide)
  exact (sizes_agree_iff init (by decide)).mpr (by decide)

def highNumbered : Config := ⟨512, [(5, 1)], 5, llfreeSimplePolicy⟩

/-- The slot is counted before the initialisation, not after it. -/
theorem sizes_disagree :
    Initialised highNumbered .free (initZeroed highNumbered .free) ∧
      (highNumbered.classing.classes.map Prod.fst).Nodup ∧
      (∀ c ∈ highNumbered.classing.classes, c.1 < maxClasses) ∧
      llfreeMetadataSizeOf (initZeroed highNumbered .free) (localHeader highNumbered.classing) ≠
        llfreeMetadataSize highNumbered.classing highNumbered.frames := by
  refine ⟨initZeroed_initialised (by decide), by decide, by decide, fun same => ?_⟩
  have locals : llLocalMemSize (localHeader highNumbered.classing) =
      llLocalSize highNumbered.classing := congrArg MetaSize.locals same
  revert locals
  decide

end LLFree.Layout.Header

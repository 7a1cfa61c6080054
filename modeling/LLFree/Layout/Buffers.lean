/- module: LLFree/Layout/Buffers
   digest: Each array of the metadata lies in its buffer, apart from the others. -/

import LLFree.Layout.Header

set_option autoImplicit false
set_option relaxedAutoImplicit false

namespace LLFree.Layout.Buffers

open LLFree.Code.Types LLFree.Code.Entries LLFree.Code.Local LLFree.Code.Shared LLFree.Code.Layout
open LLFree.Layout.Header LLFree.Memory.Regions

variable {frames : Nat} {classing : Classing}

/-! ## Sizes without overflow -/

theorem childCount_eq (accepted : frames ≤ maxPages) :
    childCount frames = divCeil frames childSize := by
  simp only [childCount, sizeDivCeil, sizeT, divCeil, childSize, maxPages] at accepted ⊢
  omega

theorem childrenCount_eq (accepted : frames ≤ maxPages) :
    childrenCount frames = divCeil frames treeSize := by
  simp only [childrenCount, childCount, sizeDivCeil, sizeT, divCeil, childSize, treeChildren,
    treeSize, maxPages] at accepted ⊢
  omega

theorem treeLen_eq (accepted : frames ≤ maxPages) :
    sizeDivCeil frames treeSize = divCeil frames treeSize := by
  simp only [sizeDivCeil, sizeT, divCeil, treeSize, maxPages] at accepted ⊢
  omega

private theorem childCount_small (accepted : frames ≤ maxPages) : childCount frames ≤ 2 ^ 43 := by
  rw [childCount_eq accepted]
  simp only [divCeil, childSize, maxPages] at accepted ⊢
  omega

private theorem childrenCount_small (accepted : frames ≤ maxPages) :
    childrenCount frames ≤ 2 ^ 40 := by
  rw [childrenCount_eq accepted]
  simp only [divCeil, treeSize, maxPages] at accepted ⊢
  omega

theorem bitfieldSize_eq (accepted : frames ≤ maxPages) :
    bitfieldSize frames = bitfieldBytes * childCount frames := by
  have small := childCount_small accepted
  simp only [bitfieldSize, sizeAlignUp, alignDown, sizeT, bitfieldBytes, childrenBytes]
  omega

theorem lowerMetadataSize_eq (accepted : frames ≤ maxPages) :
    lowerMetadataSize frames =
      bitfieldBytes * childCount frames + childrenBytes * childrenCount frames := by
  have small := childCount_small accepted
  have groups := childrenCount_small accepted
  change sizeT (sizeAlignUp (sizeT (childCount frames * bitfieldBytes)) childrenBytes +
    sizeAlignUp (sizeT (childrenCount frames * childrenBytes))
      (max childrenBytes bitfieldBytes)) = _
  simp only [sizeAlignUp, alignDown, sizeT, bitfieldBytes, childrenBytes, max_self]
  omega

theorem entries_eq (frames : Nat) :
    sizeAlignUp (childCount frames) treeChildren = childrenCount frames * treeChildren := rfl

theorem childCount_le (accepted : frames ≤ maxPages) :
    childCount frames ≤ childrenCount frames * treeChildren := by
  rw [childCount_eq accepted, childrenCount_eq accepted]
  simp only [divCeil, childSize, treeSize, treeChildren]
  omega

theorem treesMetadataSize_ge (accepted : frames ≤ maxPages) :
    treeBytes * sizeDivCeil frames treeSize ≤ treesMetadataSize frames := by
  have small : sizeDivCeil frames treeSize ≤ 2 ^ 40 := by
    rw [treeLen_eq accepted]
    simp only [divCeil, treeSize, maxPages] at accepted ⊢
    omega
  change _ ≤ sizeAlignUp (sizeT (treeBytes * sizeDivCeil frames treeSize)) cacheSize
  simp only [sizeAlignUp, alignDown, sizeT, treeBytes, cacheSize]
  omega

/-! ## The buffers -/

/-- The bitfields and the groups of children follow each other through the whole buffer. -/
theorem lowerRegions_fit (accepted : frames ≤ maxPages) :
    Fits cacheSize (lowerMetadataSize frames) (lowerRegions frames) := by
  have fields : Packed cacheSize 0 _ (fieldRegions frames) :=
    packed_array 0 bitfieldBytes cacheSize _ (Nat.dvd_zero _) (Nat.dvd_refl _) (Nat.dvd_refl _)
  have start : cacheSize ∣ bitfieldSize frames := by
    rw [bitfieldSize_eq accepted]
    exact Nat.dvd_mul_right _ _
  have groups : Packed cacheSize _ _ (childrenRegions frames) :=
    packed_array _ childrenBytes cacheSize _ start (Nat.dvd_refl _) (Nat.dvd_refl _)
  rw [Nat.zero_add, ← bitfieldSize_eq accepted] at fields
  have all := (fields.append groups).fits
  rwa [bitfieldSize_eq accepted, ← lowerMetadataSize_eq accepted] at all

theorem treeRegions_fit (accepted : frames ≤ maxPages) :
    Fits cacheSize (treesMetadataSize frames) (treeRegions frames) := by
  have trees : Packed cacheSize 0 _ (treeRegions frames) :=
    packed_array 0 treeBytes treeBytes _ (Nat.dvd_zero _) (Nat.dvd_refl _) (by decide)
  rw [Nat.zero_add] at trees
  exact (trees.widen (treesMetadataSize_ge accepted)).fits

private theorem packed_classes {classes : List (Nat × Nat)} (table : Nat → ClassLocals)
    (offset : Nat) (distinct : (classes.map Prod.fst).Nodup)
    (room : localBytes + entryBytes * (offset + (classes.map Prod.snd).sum) < 2 ^ 64) :
    Packed cacheSize (localBytes + entryBytes * offset)
      (localBytes + entryBytes * (offset + (classes.map Prod.snd).sum))
      (classes.flatMap fun (cls, count) =>
        array (placeClasses classes offset table cls).offset entryBytes cacheSize count) := by
  induction classes generalizing offset table with
  | nil => exact Nat.le_refl _
  | cons first rest ih =>
    obtain ⟨cls, count⟩ := first
    rw [List.map_cons, List.nodup_cons] at distinct
    rw [List.map_cons, List.sum_cons, ← Nat.add_assoc] at room ⊢
    have next : sizeT (offset + count) = offset + count := by
      simp only [sizeT, localBytes, entryBytes] at room ⊢
      omega
    have start : sizeT (sizeAlignUp localBytes cacheSize + sizeT (entryBytes * offset)) =
        localBytes + entryBytes * offset := by
      simp only [sizeT, sizeAlignUp, alignDown, localBytes, cacheSize, entryBytes] at room ⊢
      omega
    rw [List.flatMap_cons, placeClasses, next, start]
    have own : (placeClasses rest (offset + count) (Function.update table cls
        ⟨localBytes + entryBytes * offset, some count⟩) cls).offset =
          localBytes + entryBytes * offset := by
      rw [placeClasses_other _ distinct.1, Function.update_self]
    have aligned : cacheSize ∣ localBytes + entryBytes * offset :=
      (Nat.dvd_add_right (by decide)).mpr (Nat.dvd_mul_right _ _)
    have slots : Packed cacheSize (localBytes + entryBytes * offset)
        (localBytes + entryBytes * (offset + count))
        (array (placeClasses rest (offset + count) (Function.update table cls
          ⟨localBytes + entryBytes * offset, some count⟩) cls).offset entryBytes cacheSize
            count) := by
      rw [own, Nat.mul_add, ← Nat.add_assoc]
      exact packed_array _ entryBytes cacheSize count aligned (Nat.dvd_refl _) (Nat.dvd_refl _)
    exact slots.append (ih _ (offset + count) distinct.2 room)

theorem localRegions_fit (distinct : (classing.classes.map Prod.fst).Nodup)
    (room : localBytes + entryBytes * (classing.classes.map Prod.snd).sum < 2 ^ 64) :
    Fits cacheSize (llLocalSize classing) (localRegions classing) := by
  have size : llLocalSize classing =
      localBytes + entryBytes * (0 + (classing.classes.map Prod.snd).sum) := by
    rw [llLocalSize, addCounts_eq, Nat.zero_add]
    simp only [sizeT, sizeAlignUp, alignDown, localBytes, cacheSize, entryBytes] at room ⊢
    omega
  rw [← Nat.zero_add (classing.classes.map Prod.snd).sum] at room
  have slots := packed_classes (fun _ => ⟨0, none⟩) 0 distinct room
  have header : Packed cacheSize 0 (localBytes + entryBytes * 0) [⟨0, localBytes, cacheSize⟩] :=
    ⟨Nat.le_refl _, Nat.dvd_zero _, Nat.dvd_refl _, Nat.le_refl _⟩
  rw [size]
  exact (header.append slots).fits

theorem slotRegion_mem {K : Config} {cls index : Nat} (has : K.HasSlot cls index) :
    ⟨((localHeader K.classing).classes cls).offset + entryBytes * index, entryBytes, cacheSize⟩ ∈
      localRegions K.classing := by
  obtain ⟨len, known, less⟩ := has
  have small : cls < maxClasses := by
    by_contra large
    rw [Config.locals, classLocals, if_pos (Nat.le_of_not_lt large)] at known
    cases known
  rw [Config.locals, classLocals, if_neg (Nat.not_le_of_lt small)] at known
  have listed : (cls, len) ∈ K.classing.classes := by
    obtain ⟨before, after, split, -⟩ := List.lookup_eq_some_iff.mp known
    rw [← List.mem_reverse, split]
    simp
  exact List.mem_cons_of_mem _ (List.mem_flatMap.mpr ⟨(cls, len), listed, mem_array less⟩)

end LLFree.Layout.Buffers

/- module: LLFree/Layout/Placement
   digest: Words of accepted buffers are aligned, inside their buffer and apart from each other. -/

import LLFree.Code.Metadata
import LLFree.Layout.Loops
import LLFree.Memory.Contents
import Mathlib.Data.List.Nodup

set_option autoImplicit false
set_option relaxedAutoImplicit false

namespace LLFree.Layout.Placement

open LLFree.Code.Types LLFree.Code.Entries LLFree.Code.Local LLFree.Code.Shared LLFree.Code.Layout
open LLFree.Code.Metadata LLFree.Layout.Buffers LLFree.Layout.Loops LLFree.Memory.Regions
open LLFree.Memory.Contents

variable {K : Config} {m : Meta} {l : Lower} {c c' : Cell}

/-! ## Buffers -/

def localsBuffer (m : Meta) (sizes : MetaSize) : Region := ⟨m.locals, sizes.locals, cacheSize⟩
def treesBuffer (m : Meta) (sizes : MetaSize) : Region := ⟨m.trees, sizes.trees, cacheSize⟩
def lowerBuffer (m : Meta) (sizes : MetaSize) : Region := ⟨m.lower, sizes.lower, cacheSize⟩

structure Mapped (m : Meta) (sizes : MetaSize) : Prop where
  locals : (localsBuffer m sizes).stop < 2 ^ 64
  trees : (treesBuffer m sizes).stop < 2 ^ 64
  lower : (lowerBuffer m sizes).stop < 2 ^ 64

theorem checkMeta_iff {sizes : MetaSize} (mapped : Mapped m sizes) : checkMeta m sizes = true ↔
    (cacheSize ∣ m.locals ∧ cacheSize ∣ m.trees ∧ cacheSize ∣ m.lower) ∧
    (localsBuffer m sizes).Apart (lowerBuffer m sizes) ∧
    (localsBuffer m sizes).Apart (treesBuffer m sizes) ∧
    (lowerBuffer m sizes).Apart (treesBuffer m sizes) := by
  obtain ⟨locals, trees, lower⟩ := mapped
  simp only [Region.stop, localsBuffer, treesBuffer, lowerBuffer, Region.Apart]
    at locals trees lower ⊢
  simp only [checkMeta, sizeT, Nat.mod_eq_of_lt locals, Nat.mod_eq_of_lt trees,
    Nat.mod_eq_of_lt lower, Nat.dvd_iff_mod_eq_zero]
  split_ifs with bad
  · constructor
    · intro absurd
      cases absurd
    · rintro ⟨⟨a, b, c⟩, -⟩
      omega
  · simp only [Bool.and_eq_true, Bool.or_eq_true, decide_eq_true_eq]
    omega

structure Placed (K : Config) (m : Meta) : Prop where
  accepted : K.frames ≤ maxPages
  distinct : (K.classing.classes.map Prod.fst).Nodup
  room : localBytes + entryBytes * (K.classing.classes.map Prod.snd).sum < 2 ^ 64
  mapped : Mapped m (llfreeMetadataSize K.classing K.frames)
  checked : checkMeta m (llfreeMetadataSize K.classing K.frames) = true

def buffer (K : Config) (m : Meta) : Cell → Region
  | .child _ | .row _ => lowerBuffer m (llfreeMetadataSize K.classing K.frames)
  | .tree _ => treesBuffer m (llfreeMetadataSize K.classing K.frames)
  | .slot .. => localsBuffer m (llfreeMetadataSize K.classing K.frames)

def place (K : Config) (m : Meta) (c : Cell) : Region :=
  wordRegion c.bits (c.address (initPointers m K.frames) (localHeader K.classing))

/-! ## Words -/

private theorem place_child (i : Nat) : place K m (.child i) =
    ⟨m.lower + bitfieldSize K.frames + childrenBytes * (i / treeChildren) +
      childBytes * (i % treeChildren), 2, 2⟩ := by
  simp only [place, wordRegion, Cell.bits, Nat.reduceDiv, Cell.address, initPointers]

private theorem place_row (i : Nat) : place K m (.row i) =
    ⟨m.lower + bitfieldBytes * (i / fieldN) + rowBytes * (i % fieldN), 8, 8⟩ := by
  simp only [place, wordRegion, Cell.bits, Nat.reduceDiv, Cell.address, initPointers]

private theorem place_tree (idx : Nat) :
    place K m (.tree idx) = ⟨m.trees + treeBytes * idx, 4, 4⟩ := by
  simp only [place, wordRegion, Cell.bits, Nat.reduceDiv, Cell.address, initPointers]

private theorem place_slot (cls index : Nat) : place K m (.slot cls index) =
    ⟨m.locals + ((localHeader K.classing).classes cls).offset + entryBytes * index, 8, 8⟩ := by
  simp only [place, wordRegion, Cell.bits, Nat.reduceDiv, Cell.address, initPointers]

private theorem apart_within {r r' outer outer' : Region} (apart : outer.Apart outer')
    (inside : r.Within outer) (inside' : r'.Within outer') : r.Apart r' := by
  obtain ⟨low, high⟩ := inside
  obtain ⟨low', high'⟩ := inside'
  simp only [Region.Apart] at apart ⊢
  omega

private theorem apart_symm {r r' : Region} (apart : r.Apart r') : r'.Apart r := Or.symm apart

private theorem lower_size (accepted : K.frames ≤ maxPages) (same : l.frames = K.frames) :
    lowerMetadataSize K.frames =
        bitfieldSize K.frames + childrenBytes * (l.entryCount / treeChildren) ∧
      bitfieldSize K.frames = rowBytes * l.rowCount ∧ treeChildren ∣ l.entryCount := by
  rw [← same] at accepted ⊢
  rw [lowerMetadataSize_eq accepted, bitfieldSize_eq accepted, ← entryCount_model accepted,
    Lower.rowCount, childCount_model accepted]
  simp only [bitfieldBytes, childrenBytes, treeChildren, rowBytes, fieldN]
  omega

/-- The assertions of `lower_init` and `ll_local_init` about the buffers. -/
def InitAsserts (K : Config) (m : Meta) : Prop :=
  (initPointers m K.frames).children + childrenBytes * childrenCount K.frames ≤
      m.lower + lowerMetadataSize K.frames ∧
    (initPointers m K.frames).locals % cacheSize = 0

theorem init_asserts (placed : Placed K m) : InitAsserts K m := by
  obtain ⟨⟨locals, -⟩, -⟩ := (checkMeta_iff placed.mapped).mp placed.checked
  refine ⟨?_, Nat.mod_eq_zero_of_dvd locals⟩
  rw [lowerMetadataSize_eq placed.accepted, initPointers, bitfieldSize_eq placed.accepted]
  exact Nat.le_of_eq (Nat.add_assoc ..)

theorem word_inside (placed : Placed K m) (same : l.frames = K.frames) (here : c.Exists K l) :
    (place K m c).align ∣ (place K m c).start ∧ (place K m c).Within (buffer K m c) := by
  obtain ⟨⟨locals, trees, lower⟩, -⟩ := (checkMeta_iff placed.mapped).mp placed.checked
  obtain ⟨size, fields, groups⟩ := lower_size placed.accepted same
  cases c with
  | child i =>
    simp only [Cell.Exists] at here
    simp only [place_child, buffer, lowerBuffer, Region.Within,
      Region.stop, llfreeMetadataSize, size, fields, childrenBytes, childBytes, rowBytes, cacheSize,
      treeChildren] at lower groups ⊢
    omega
  | row i =>
    simp only [Cell.Exists] at here
    simp only [place_row, buffer, lowerBuffer, Region.Within,
      Region.stop, llfreeMetadataSize, size, fields, childrenBytes, bitfieldBytes, rowBytes,
      cacheSize,
      fieldN] at lower ⊢
    omega
  | tree idx =>
    have few : idx < sizeDivCeil K.frames treeSize := by
      rw [treeLen_eq placed.accepted]
      exact here
    have size := treesMetadataSize_ge placed.accepted
    simp only [place_tree, buffer, treesBuffer, Region.Within,
      Region.stop, llfreeMetadataSize, treeBytes, cacheSize] at trees size ⊢
    omega
  | slot cls index =>
    have fit := localRegions_fit placed.distinct placed.room
    have inside := fit.inside _ (slotRegion_mem here)
    have aligned := fit.aligned _ locals _ (slotRegion_mem here)
    simp only [Region.stop] at inside
    simp only [place_slot, buffer, localsBuffer, Region.Within,
      Region.stop, llfreeMetadataSize, entryBytes, cacheSize] at inside aligned ⊢
    omega

private theorem slot_listed {cls index : Nat} (has : K.HasSlot cls index) :
    ∃ len, (cls, len) ∈ K.classing.classes ∧ index < len := by
  obtain ⟨len, known, less⟩ := has
  unfold Config.locals classLocals at known
  split_ifs at known
  obtain ⟨before, after, split, -⟩ := List.lookup_eq_some_iff.mp known
  refine ⟨len, ?_, less⟩
  rw [← List.mem_reverse, split]
  simp

private theorem slots_apart {cls index cls' index' : Nat} (placed : Placed K m)
    (here : K.HasSlot cls index) (here' : K.HasSlot cls' index')
    (differ : ¬(cls = cls' ∧ index = index')) :
    (place K m (.slot cls index)).Apart (place K m (.slot cls' index')) := by
  simp only [place_slot, Region.Apart, Region.stop, entryBytes]
  by_cases one : cls = cls'
  · subst one
    omega
  · obtain ⟨len, listed, less⟩ := slot_listed here
    obtain ⟨len', listed', less'⟩ := slot_listed here'
    have fit := localRegions_fit placed.distinct placed.room
    let entries := fun a : Nat × Nat =>
      array ((localHeader K.classing).classes a.1).offset entryBytes cacheSize a.2
    let Apart := fun a b => ∀ x ∈ entries a, ∀ y ∈ entries b, x.Apart y
    have symm : Std.Symm Apart := ⟨fun a b both x mx y my => apart_symm (both y my x mx)⟩
    have pairs : K.classing.classes.Pairwise Apart :=
      (List.pairwise_flatMap.mp (List.pairwise_cons.mp fit.apart).2).2
    have other : (cls, len) ≠ (cls', len') := fun bad => one (congrArg Prod.fst bad)
    have apart := pairs.forall listed listed' other _ (mem_array less) _ (mem_array less')
    simp only [Region.Apart, Region.stop, entryBytes] at apart
    omega

theorem words_apart (placed : Placed K m) (same : l.frames = K.frames) (here : c.Exists K l)
    (here' : c'.Exists K l) (differ : c ≠ c') : (place K m c).Apart (place K m c') := by
  obtain ⟨-, lower, trees, both⟩ := (checkMeta_iff placed.mapped).mp placed.checked
  obtain ⟨-, inside⟩ := word_inside placed same here
  obtain ⟨-, inside'⟩ := word_inside placed same here'
  obtain ⟨size, fields, groups⟩ := lower_size placed.accepted same
  have arrays : ∀ i j, i < l.entryCount → j < l.rowCount →
      (place K m (.row j)).Apart (place K m (.child i)) := by
    intro i j less less'
    simp only [place_child, place_row, Region.Apart, Region.stop, fields, childrenBytes, childBytes,
      bitfieldBytes, rowBytes, treeChildren, fieldN]
    omega
  cases c with
  | child i =>
    cases c' with
    | child j =>
      have other : i ≠ j := fun bad => differ (congrArg Cell.child bad)
      simp only [place_child, Region.Apart, Region.stop, childrenBytes, childBytes, treeChildren]
      omega
    | row j => exact apart_symm (arrays i j here here')
    | tree idx => exact apart_within both inside inside'
    | slot cls index => exact apart_within (apart_symm lower) inside inside'
  | row i =>
    cases c' with
    | child j => exact arrays j i here' here
    | row j =>
      have other : i ≠ j := fun bad => differ (congrArg Cell.row bad)
      simp only [place_row, Region.Apart, Region.stop, bitfieldBytes, rowBytes, fieldN]
      omega
    | tree idx => exact apart_within both inside inside'
    | slot cls index => exact apart_within (apart_symm lower) inside inside'
  | tree idx =>
    cases c' with
    | child j => exact apart_within (apart_symm both) inside inside'
    | row j => exact apart_within (apart_symm both) inside inside'
    | tree idx' =>
      have other : idx ≠ idx' := fun bad => differ (congrArg Cell.tree bad)
      simp only [place_tree, Region.Apart, Region.stop, treeBytes]
      omega
    | slot cls index => exact apart_within (apart_symm trees) inside inside'
  | slot cls index =>
    cases c' with
    | child j => exact apart_within lower inside inside'
    | row j => exact apart_within lower inside inside'
    | tree idx => exact apart_within trees inside inside'
    | slot cls' index' =>
      refine slots_apart placed here here' fun equal => differ ?_
      rw [equal.1, equal.2]

end LLFree.Layout.Placement

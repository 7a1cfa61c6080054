/- module: LLFree/Memory/Regions
   digest: Regions of a buffer that follow each other are disjoint, aligned and inside it. -/

import Mathlib.Algebra.Group.Nat.Defs
import Mathlib.Tactic.Basic

set_option autoImplicit false
set_option relaxedAutoImplicit false

namespace LLFree.Memory.Regions

/-- `bytes` bytes from `start` on, for a value whose type asks for `align`. -/
structure Region where
  start : Nat
  bytes : Nat
  align : Nat

namespace Region

def stop (r : Region) : Nat := r.start + r.bytes

def Apart (r r' : Region) : Prop := r.stop ≤ r'.start ∨ r'.stop ≤ r.start

def Within (inner outer : Region) : Prop := outer.start ≤ inner.start ∧ inner.stop ≤ outer.stop

end Region

/-- The regions are apart from each other, inside a buffer of `size` bytes, and aligned wherever
the buffer starts at a multiple of `boundary`. -/
structure Fits (boundary size : Nat) (regions : List Region) : Prop where
  apart : regions.Pairwise Region.Apart
  aligned : ∀ base, boundary ∣ base → ∀ r ∈ regions, r.align ∣ base + r.start
  inside : ∀ r ∈ regions, r.stop ≤ size

/-- The regions follow each other between `first` and `last`, each on its alignment. -/
def Packed (boundary : Nat) : Nat → Nat → List Region → Prop
  | first, last, [] => first ≤ last
  | first, last, r :: rest => first ≤ r.start ∧ r.align ∣ r.start ∧ r.align ∣ boundary ∧
    Packed boundary r.stop last rest

variable {boundary first middle last : Nat} {regions later : List Region}

theorem Packed.le (packed : Packed boundary first last regions) : first ≤ last := by
  induction regions generalizing first with
  | nil => exact packed
  | cons r rest ih =>
    obtain ⟨start, -, -, tail⟩ := packed
    have bytes : r.start ≤ r.stop := Nat.le_add_right r.start r.bytes
    exact Nat.le_trans start (Nat.le_trans bytes (ih tail))

theorem Packed.widen {last' : Nat} (packed : Packed boundary first last regions)
    (le : last ≤ last') : Packed boundary first last' regions := by
  induction regions generalizing first with
  | nil => exact Nat.le_trans packed le
  | cons r rest ih =>
    obtain ⟨start, aligned, bounded, tail⟩ := packed
    exact ⟨start, aligned, bounded, ih tail⟩

theorem Packed.append (packed : Packed boundary first middle regions)
    (next : Packed boundary middle last later) : Packed boundary first last (regions ++ later) := by
  induction regions generalizing first with
  | nil =>
    cases later with
    | nil => exact Nat.le_trans packed next
    | cons r rest =>
      obtain ⟨start, tail⟩ := next
      exact ⟨Nat.le_trans packed start, tail⟩
  | cons r rest ih =>
    obtain ⟨start, aligned, bounded, tail⟩ := packed
    exact ⟨start, aligned, bounded, ih tail⟩

theorem Packed.bounds (packed : Packed boundary first last regions) {r : Region}
    (member : r ∈ regions) :
    first ≤ r.start ∧ r.stop ≤ last ∧ r.align ∣ r.start ∧ r.align ∣ boundary := by
  induction regions generalizing first with
  | nil => cases member
  | cons q rest ih =>
    obtain ⟨start, aligned, bounded, tail⟩ := packed
    have bytes : q.start ≤ q.stop := Nat.le_add_right q.start q.bytes
    rcases List.mem_cons.mp member with rfl | later
    · exact ⟨start, tail.le, aligned, bounded⟩
    · obtain ⟨after, before, rest⟩ := ih tail later
      exact ⟨Nat.le_trans start (Nat.le_trans bytes after), before, rest⟩

theorem Packed.fits (packed : Packed boundary first last regions) :
    Fits boundary last regions := by
  refine ⟨?_, fun base bounded r member => ?_, fun r member => (packed.bounds member).2.1⟩
  · induction regions generalizing first with
    | nil => exact List.Pairwise.nil
    | cons r rest ih =>
      obtain ⟨-, -, -, tail⟩ := packed
      exact List.Pairwise.cons (fun q member => Or.inl (tail.bounds member).1) (ih tail)
  · obtain ⟨-, -, own, divides⟩ := packed.bounds member
    exact (Nat.dvd_add_right (Nat.dvd_trans divides bounded)).mpr own

/-! ## Arrays -/

def array (start bytes align count : Nat) : List Region :=
  (List.range count).map fun i => ⟨start + bytes * i, bytes, align⟩

theorem mem_array {start bytes align count i : Nat} (inside : i < count) :
    ⟨start + bytes * i, bytes, align⟩ ∈ array start bytes align count :=
  List.mem_map.mpr ⟨i, List.mem_range.mpr inside, rfl⟩

theorem packed_array (start bytes align count : Nat) (here : align ∣ start) (each : align ∣ bytes)
    (bounded : align ∣ boundary) :
    Packed boundary start (start + bytes * count) (array start bytes align count) := by
  induction count with
  | zero => exact Nat.le_refl start
  | succ count ih =>
    rw [array, List.range_succ, List.map_append]
    refine ih.append ⟨Nat.le_refl _, ?_, bounded, ?_⟩
    · exact (Nat.dvd_add_right here).mpr (Nat.dvd_mul_right_of_dvd each count)
    · change start + bytes * count + bytes ≤ start + bytes * (count + 1)
      exact Nat.le_of_eq (Nat.add_assoc _ _ _)

end LLFree.Memory.Regions

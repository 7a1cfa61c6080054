/- module: LLFree/Memory/Contents
   digest: Words of a memory of bytes, and why words apart do not see each other's stores. -/

import LLFree.Memory.Regions

set_option autoImplicit false
set_option relaxedAutoImplicit false

namespace LLFree.Memory.Contents

open LLFree.Memory.Regions

abbrev Bytes := Nat → BitVec 8

variable {w w' : Nat} {b b' : Bytes} {a a' : Nat}

def wordRegion (w a : Nat) : Region := ⟨a, w / 8, w / 8⟩

def readBytes (w : Nat) (b : Bytes) (a : Nat) : Nat → BitVec w
  | 0 => 0#w
  | n + 1 => readBytes w b a n ||| (b (a + n)).setWidth w <<< (8 * n)

def readWord (w : Nat) (b : Bytes) (a : Nat) : BitVec w := readBytes w b a (w / 8)

def writeWord (a : Nat) (v : BitVec w) (b : Bytes) : Bytes := fun x =>
  if a ≤ x ∧ x < a + w / 8 then v.extractLsb' (8 * (x - a)) 8 else b x

theorem getLsbD_readBytes (n : Nat) {i : Nat} (inside : i < w) :
    (readBytes w b a n).getLsbD i = (decide (i < 8 * n) && (b (a + i / 8)).getLsbD (i % 8)) := by
  induction n with
  | zero => simp [readBytes]
  | succ n ih =>
    rw [readBytes, BitVec.getLsbD_or, ih, BitVec.getLsbD_shiftLeft, BitVec.getLsbD_setWidth]
    by_cases low : i < 8 * n
    · simp [low, show i < 8 * (n + 1) by omega]
    · by_cases here : i < 8 * (n + 1)
      · have byte : i / 8 = n := by omega
        have bit : i % 8 = i - 8 * n := by omega
        simp [low, here, inside, byte, bit, show i - 8 * n < w by omega]
      · have past : (b (a + n)).getLsbD (i - 8 * n) = false :=
          BitVec.getLsbD_of_ge _ _ (by omega)
        simp [low, here, past]

theorem getLsbD_readWord (whole : 8 ∣ w) {i : Nat} (inside : i < w) :
    (readWord w b a).getLsbD i = (b (a + i / 8)).getLsbD (i % 8) := by
  rw [readWord, getLsbD_readBytes _ inside, Nat.mul_div_cancel' whole]
  simp [inside]

theorem readWord_writeWord (whole : 8 ∣ w) (v : BitVec w) :
    readWord w (writeWord a v b) a = v := by
  apply BitVec.eq_of_getLsbD_eq
  intro i inside
  rw [getLsbD_readWord whole inside, writeWord, if_pos ⟨by omega, by omega⟩,
    Nat.add_sub_cancel_left, BitVec.getLsbD_extractLsb', Nat.div_add_mod]
  simp [Nat.mod_lt]

theorem readWord_congr (whole : 8 ∣ w) (same : ∀ x, a ≤ x → x < a + w / 8 → b x = b' x) :
    readWord w b a = readWord w b' a := by
  apply BitVec.eq_of_getLsbD_eq
  intro i inside
  rw [getLsbD_readWord whole inside, getLsbD_readWord whole inside,
    same _ (by omega) (by omega)]

theorem writeWord_outside {x : Nat} (v : BitVec w) (outside : x < a ∨ a + w / 8 ≤ x) :
    writeWord a v b x = b x := by
  rw [writeWord, if_neg (by omega)]

theorem readWord_apart (whole : 8 ∣ w) (v : BitVec w')
    (apart : (wordRegion w a).Apart (wordRegion w' a')) :
    readWord w (writeWord a' v b) a = readWord w b a := by
  apply readWord_congr whole
  intro x from' to'
  apply writeWord_outside
  simp only [Region.Apart, Region.stop, wordRegion] at apart
  omega

end LLFree.Memory.Contents

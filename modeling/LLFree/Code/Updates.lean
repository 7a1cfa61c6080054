/- module: LLFree/Code/Updates
   digest: The callbacks of atomic updates that write through pointers, and their updates. -/

import LLFree.Atomic.Update
import LLFree.Code.Entries
import LLFree.Code.Trees

set_option autoImplicit false
set_option relaxedAutoImplicit false

namespace LLFree.Code.Updates

open LLFree.Atomic.Update LLFree.Code.Types LLFree.Code.Entries LLFree.Code.Trees
open LLFree.Words.Lanes

/-- `tree_steal` as it runs in a loop: `*class` is an argument and a result. -/
def treeStealAt (frames : Nat) (policy : PolicyFn) : Callback Tree Nat := fun self cls =>
  if self.free < frames then (none, cls)
  else
    match (policy cls self.cls self.free).type with
    | .match | .demote => (some { self with free := self.free - frames, cls := cls }, cls)
    | .steal => (some { self with free := self.free - frames }, self.cls)
    | .invalid => (none, cls)

/-- `trees_steal`; the variable is `*class`. -/
def treesStealOver (frames : Nat) (policy : PolicyFn) :
    List Tree → Tree → Nat → Outcome Tree Nat :=
  retry (treeStealAt frames policy)

/-- `*out_reserved`, `*out_free` and `*out_class`. -/
@[ext] structure ReserveOut where
  reserved : Bool
  free : Nat
  cls : Nat
  deriving DecidableEq

/-- `trees_reserve_or_steal`: `tree_reserve_or_steal` writes `*out_reserved` and `*out_class` when
it stores, the old counter is written after the loop. -/
def treesReserveOrStealOver (frames : Nat) (policy : PolicyFn) (cls : Nat) (lost : List Tree)
    (last : Tree) (out : ReserveOut) : Outcome Tree ReserveOut :=
  let done := retry (writer fun self => treeReserveOrSteal self frames policy cls) lost last
    (out.reserved, out.cls)
  ⟨done.new, done.old,
    ⟨done.out.1, if done.new.isSome then done.old.free else out.free, done.out.2⟩⟩

/-- The switch of `first_zeros_aligned`: `p`, 64 when there is no room, and what it leaves in `*v`.
The outer `none` is its failed assertion. -/
def firstZerosSwitch (v : Row) : Nat → Option (Nat × Row)
  | 0 =>
    let p := lowestSet (~~~v)
    some (p, if p < 64 then v ||| (1#64 <<< p) else v)
  | 1 =>
    let mask := 0xaaaaaaaaaaaaaaaa#64
    let p := lowestSet (~~~((v ||| (v >>> 1)) ||| mask))
    some (p, if p < 64 then v ||| (0b11#64 <<< p) else v)
  | 2 =>
    let mask := 0x1111111111111111#64
    let p := lowestSet ((((v - mask) &&& ~~~v) >>> 3) &&& mask)
    some (p, if p < 64 then v ||| (0b1111#64 <<< p) else v)
  | 3 =>
    let mask := 0x0101010101010101#64
    let p := lowestSet ((((v - mask) &&& ~~~v) >>> 7) &&& mask)
    some (p, if p < 64 then v ||| (0xff#64 <<< p) else v)
  | 4 =>
    let mask := 0x0001000100010001#64
    let p := lowestSet ((((v - mask) &&& ~~~v) >>> 15) &&& mask)
    some (p, if p < 64 then v ||| (0xffff#64 <<< p) else v)
  | 5 =>
    let mask := 0xffffffff#64
    if v.setWidth 32 = 0#32 then some (0, v ||| mask)
    else if v >>> 32 = 0#64 then some (32, v ||| (mask <<< 32))
    else some (64, v)
  | 6 => if v = 0#64 then some (0, BitVec.allOnes 64) else some (64, v)
  | _ => none

/-- What `first_zeros_aligned` returns, and what it leaves in `*v` and `*pos`. -/
structure ZerosOut where
  found : Bool
  v : Row
  pos : Nat
  deriving DecidableEq

def firstZerosInto (v : Row) (order pos : Nat) : Option ZerosOut :=
  (firstZerosSwitch v order).map fun (p, new) =>
    if p < 64 then ⟨true, new, p⟩ else ⟨false, new, pos⟩

/-- What `first_zeros_aligned` stores, with `*pos`, for an order that it supports. -/
def firstZerosWrites (order : Nat) (v : Row) : Option (Row × Nat) :=
  ((firstZerosAligned v order).getD none).map fun found => (found.2, found.1)

/-- The update of one row in `field_set_next`; the variable is `pos`. -/
def rowZerosOver (order : Nat) : List Row → Row → Nat → Outcome Row Nat :=
  retry (writer (firstZerosWrites order))

end LLFree.Code.Updates

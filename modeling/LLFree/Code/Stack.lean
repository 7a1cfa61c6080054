/- module: LLFree/Code/Stack
   digest: The calls of the whole allocator, access by access. -/

import LLFree.Atomic.Expansion
import LLFree.Code.Accesses
import LLFree.Code.Llfree

set_option autoImplicit false
set_option relaxedAutoImplicit false

namespace LLFree.Code.Stack

open LLFree.Atomic.Program LLFree.Atomic.Expansion LLFree.Code.Entries LLFree.Code.Lower
open LLFree.Code.Shared LLFree.Code.Accesses

/-- The indivisible accesses of a call: to a child entry or a row, a plain load for the
statistics, or to a tree or a slot. -/
inductive WordOp where
  | lower (o : LoOp)
  | buffer (o : BufferOp)
  | table (o : TableOp)

abbrev WordOp.Res : WordOp → Type
  | .lower o => o.Res
  | .buffer o => o.Res
  | .table o => o.Res

/-- `none` is a failed assertion. -/
def WordOp.exec (K : Config) : (o : WordOp) → Llfree Lower → Option (o.Res × Llfree Lower)
  | .lower o, s => (o.exec s.lower).map fun x => (x.1, { s with lower := x.2 })
  | .buffer o, s => (o.exec s.lower).map fun x => (x.1, { s with lower := x.2 })
  | .table o, s => (o.exec K s.upper).map fun x => (x.1, { s with upper := x.2 })

abbrev WordProg := Prog WordOp WordOp.Res

def lowerWords {α : Type} (p : LoProg α) : WordProg α := expand (fun o => .step (.lower o) .ret) p

def bufferWords {α : Type} (p : BufferProg α) : WordProg α :=
  expand (fun o => .step (.buffer o) .ret) p

/-- The accesses that a step of a call consists of. -/
def UpOp.words (K : Config) : (o : UpOp) → WordProg o.Res
  | .lower c => lowerWords (c.prog K.frames)
  | .lowerStatsAt frame order => bufferWords (lowerStatsAtLoop K.frames frame order)
  | .table o => .step (.table o) .ret

/-- A call down to its accesses. -/
def words {α : Type} (K : Config) (p : UpProg α) : WordProg α := expand (UpOp.words K) p

end LLFree.Code.Stack

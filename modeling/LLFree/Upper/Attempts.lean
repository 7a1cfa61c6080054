/- module: LLFree/Upper/Attempts
   digest: What the accesses of a call and its attempts at slots do in an uninterrupted run. -/

import LLFree.Lower.Search
import LLFree.Upper.Sequential

set_option autoImplicit false
set_option relaxedAutoImplicit false

namespace LLFree.Upper.Attempts

open LLFree.Atomic.Program LLFree.Code.Types LLFree.Code.Entries LLFree.Code.Lower
open LLFree.Code.Trees LLFree.Code.Local LLFree.Code.Shared LLFree.Code.Llfree LLFree.Lower.GetPut
open LLFree.Upper.Slots

variable {K : Config} {l l' : Lower} {u u' : Upper} {α : Type}

/-! ## Accesses -/

theorem run_table {o : TableOp} {k : o.Res → UpProg α} {r : o.Res}
    (done : o.exec K u = some (r, u')) :
    Prog.run (UpOp.exec K) (.step (.table o) k) ⟨l, u⟩ =
      Prog.run (UpOp.exec K) (k r) ⟨l, u'⟩ := by
  rw [Prog.run_step]
  simp only [UpOp.exec, done, Option.map_some, Option.bind_some]

theorem run_lower {c : LowerCall} {k : Result → UpProg α} {r : Result}
    (done : Prog.run LoOp.exec (c.prog K.frames) l = some (r, l')) :
    Prog.run (UpOp.exec K) (.step (.lower c) k) ⟨l, u⟩ =
      Prog.run (UpOp.exec K) (k r) ⟨l', u⟩ := by
  rw [Prog.run_step]
  simp only [UpOp.exec, done, Option.map_some, Option.bind_some]

theorem run_table_inv {o : TableOp} {k : o.Res → UpProg α} {a : α} {s' : Llfree Lower}
    (run : Prog.run (UpOp.exec K) (.step (.table o) k) ⟨l, u⟩ = some (a, s')) :
    ∃ r u', o.exec K u = some (r, u') ∧ Prog.run (UpOp.exec K) (k r) ⟨l, u'⟩ = some (a, s') := by
  rw [Prog.run_step, Option.bind_eq_some_iff] at run
  obtain ⟨⟨r, t⟩, first, tail⟩ := run
  obtain ⟨⟨r', u'⟩, done, same⟩ := Option.map_eq_some_iff.mp first
  obtain ⟨rfl, rfl⟩ := Prod.mk.inj same
  exact ⟨r', u', done, tail⟩

theorem run_lower_inv {c : LowerCall} {k : Result → UpProg α} {a : α} {s' : Llfree Lower}
    (run : Prog.run (UpOp.exec K) (.step (.lower c) k) ⟨l, u⟩ = some (a, s')) :
    ∃ r l', Prog.run LoOp.exec (c.prog K.frames) l = some (r, l') ∧
      Prog.run (UpOp.exec K) (k r) ⟨l', u⟩ = some (a, s') := by
  rw [Prog.run_step, Option.bind_eq_some_iff] at run
  obtain ⟨⟨r, t⟩, first, tail⟩ := run
  obtain ⟨⟨r', l'⟩, done, same⟩ := Option.map_eq_some_iff.mp first
  obtain ⟨rfl, rfl⟩ := Prod.mk.inj same
  exact ⟨r', l', done, tail⟩

/-- The slot holds a tree, the one that is asked for, with at least `n` frames. -/
structure Holds (r : Reserved) (treeIdx : Option Nat) (n : Nat) : Prop where
  present : r.present = true
  asked : ∀ t, treeIdx = some t → treeFromRow r.startRow = t
  enough : n ≤ r.free

theorem reservedDec_holds {r : Reserved} {treeIdx : Option Nat} {n : Nat}
    (holds : Holds r treeIdx n) :
    llReservedDec r treeIdx n = some { r with free := r.free - n } := by
  obtain ⟨present, asked, enough⟩ := holds
  rw [llReservedDec, if_neg (by simp [present]), if_neg, if_neg (by omega)]
  cases treeIdx with
  | none => simp
  | some t => simp [asked t rfl]

theorem reservedDec_refuses {r : Reserved} {treeIdx : Option Nat} {n : Nat}
    (refuses : ¬ Holds r treeIdx n) : llReservedDec r treeIdx n = none := by
  by_contra taken
  obtain ⟨new, step⟩ := Option.ne_none_iff_exists'.mp taken
  unfold llReservedDec at step
  split_ifs at step with absent other few
  refine refuses ⟨by simpa using absent, ?_, by omega⟩
  rintro t rfl
  simp only [Option.any_some, decide_eq_true_eq, not_not] at other
  exact other.symm

section Slot

variable {c i n : Nat} {treeIdx : Option Nat} (has : K.HasSlot c i)
include has

theorem run_localDec {k : Bool × Reserved → UpProg α} (holds : Holds (u.slots c i) treeIdx n) :
    Prog.run (UpOp.exec K) (.step (.table (.localDec c i treeIdx n)) k) ⟨l, u⟩ =
      Prog.run (UpOp.exec K) (k (true, u.slots c i))
        ⟨l, u.setSlot c i { u.slots c i with free := (u.slots c i).free - n }⟩ := by
  apply run_table
  simp only [TableOp.exec, if_pos has, reservedDec_holds holds]

theorem run_localDec_miss {k : Bool × Reserved → UpProg α}
    (refuses : ¬ Holds (u.slots c i) treeIdx n) :
    Prog.run (UpOp.exec K) (.step (.table (.localDec c i treeIdx n)) k) ⟨l, u⟩ =
      Prog.run (UpOp.exec K) (k (false, u.slots c i)) ⟨l, u⟩ := by
  apply run_table
  simp only [TableOp.exec, if_pos has, reservedDec_refuses refuses]

theorem run_localTake {k : Bool × Reserved → UpProg α} (holds : Holds (u.slots c i) treeIdx n) :
    Prog.run (UpOp.exec K) (.step (.table (.localTake c i treeIdx n)) k) ⟨l, u⟩ =
      Prog.run (UpOp.exec K) (k (true, u.slots c i)) ⟨l, u.setSlot c i noReserved⟩ := by
  apply run_table
  simp only [TableOp.exec, if_pos has, llReservedTake, reservedDec_holds holds, Option.map_some]

theorem run_localTake_miss {k : Bool × Reserved → UpProg α}
    (refuses : ¬ Holds (u.slots c i) treeIdx n) :
    Prog.run (UpOp.exec K) (.step (.table (.localTake c i treeIdx n)) k) ⟨l, u⟩ =
      Prog.run (UpOp.exec K) (k (false, u.slots c i)) ⟨l, u⟩ := by
  apply run_table
  simp only [TableOp.exec, if_pos has, llReservedTake, reservedDec_refuses refuses, Option.map_none]

theorem run_localInc {t : Nat} {k : Bool → UpProg α} (present : (u.slots c i).present = true)
    (here : treeFromRow (u.slots c i).startRow = t) (room : (u.slots c i).free + n ≤ treeSize) :
    Prog.run (UpOp.exec K) (.step (.table (.localInc c i t n)) k) ⟨l, u⟩ =
      Prog.run (UpOp.exec K) (k true)
        ⟨l, u.setSlot c i { u.slots c i with free := (u.slots c i).free + n }⟩ := by
  apply run_table
  have taken : ¬ (¬ (u.slots c i).present ∨ treeFromRow (u.slots c i).startRow ≠ t) := by
    simp [present, here]
  simp only [TableOp.exec, if_pos has, llReservedInc, if_neg taken, if_pos room, Option.map_some]

theorem run_localSetStart {row : Nat} {k : Bool × Reserved → UpProg α}
    (present : (u.slots c i).present = true)
    (here : treeFromRow (u.slots c i).startRow = treeFromRow row) :
    Prog.run (UpOp.exec K) (.step (.table (.localSetStart c i row)) k) ⟨l, u⟩ =
      Prog.run (UpOp.exec K) (k (true, u.slots c i))
        ⟨l, u.setSlot c i { u.slots c i with startRow := storeRow row }⟩ := by
  apply run_table
  have taken : ¬ (¬ (u.slots c i).present ∨
      treeFromRow (u.slots c i).startRow ≠ treeFromRow row) := by
    simp [present, here]
  simp only [TableOp.exec, if_pos has, llReservedSetStart, if_neg taken]

/-! ## The own slot -/

/-- What an allocation of `n` frames through slot `i` of class `c` leaves of the upper state. -/
structure Served (c i n : Nat) (u u' : Upper) : Prop where
  trees : u'.trees = u.trees
  present : (u'.slots c i).present = true
  free : (u'.slots c i).free + n = (u.slots c i).free
  others : ∀ d j, ¬ (d = c ∧ j = i) → u'.slots d j = u.slots d j

private theorem run_moveStart {β : Type} (old row : Nat) (b : β)
    (present : (u.slots c i).present = true)
    (here : treeFromRow (u.slots c i).startRow = treeFromRow row) :
    ∃ u', Prog.run (UpOp.exec K)
        (if old ≠ row then llLocalSetStart c i row >>= fun _ => Prog.ret b else Prog.ret b)
        ⟨l, u⟩ = some (b, ⟨l, u'⟩) ∧ Served c i 0 u u' := by
  by_cases same : old = row
  · rw [if_neg (not_not.mpr same)]
    exact ⟨u, rfl, rfl, present, rfl, fun _ _ _ => rfl⟩
  · rw [if_pos same]
    simp only [llLocalSetStart, localSetStart, Prog.step_bind, Prog.ret_bind, Prog.pure_eq]
    rw [run_localSetStart has present here]
    refine ⟨_, rfl, rfl, ?_, ?_, ?_⟩
    · rw [setSlot_self]
      exact present
    · rw [setSlot_self]
      rfl
    · intro d j other
      rw [setSlot_other _ _ other]

theorem run_getLocalWith {order f : Nat} {frame : Option Nat}
    (miss : LocalResult → UpProg (Result × Option Nat))
    (holds : Holds (u.slots c i) (frame.map treeFromFrame) (2 ^ order))
    (tree : f / 4096 = treeFromRow (u.slots c i).startRow)
    (done : Prog.run LoOp.exec
      (lowerGet K.frames (frameFromRow (u.slots c i).startRow) order frame) l =
        some (llfreeOk f 0, l')) :
    ∃ u', Prog.run (UpOp.exec K) (getLocalWith c i order frame miss) ⟨l, u⟩ =
        some ((llfreeOk f c, none), ⟨l', u'⟩) ∧ Served c i (2 ^ order) u u' := by
  have here := (rowFromFrame_tree f).1
  simp only [getLocalWith, llLocalGet, localDec, Prog.step_bind, Prog.ret_bind, Prog.pure_eq]
  rw [run_localDec has holds]
  simp only [makeResult, if_true, lowerGetStep, Prog.step_bind, Prog.ret_bind]
  rw [run_lower (c := .get (frameFromRow (u.slots c i).startRow) order frame) done]
  obtain ⟨u', run, moved⟩ := run_moveStart (l := l') (u := u.setSlot c i
      { u.slots c i with free := (u.slots c i).free - 2 ^ order }) has (u.slots c i).startRow
    (rowFromFrame f) (llfreeOk f c, (none : Option Nat))
    (by rw [setSlot_self]; exact holds.present)
    (by rw [setSlot_self]; exact tree.symm.trans here.symm)
  refine ⟨u', run, moved.trees, moved.present, ?_, ?_⟩
  · have kept := moved.free
    rw [setSlot_self] at kept
    have enough := holds.enough
    simp only at kept
    omega
  · intro d j other
    rw [moved.others d j other, setSlot_other _ _ other]

theorem run_getLocalWith_miss {order : Nat} {frame : Option Nat}
    {miss : LocalResult → UpProg (Result × Option Nat)}
    (refuses : ¬ Holds (u.slots c i) (frame.map treeFromFrame) (2 ^ order)) :
    Prog.run (UpOp.exec K) (getLocalWith c i order frame miss) ⟨l, u⟩ =
      Prog.run (UpOp.exec K) (miss (makeResult false c (u.slots c i))) ⟨l, u⟩ := by
  simp only [getLocalWith, llLocalGet, localDec, Prog.step_bind, Prog.ret_bind, Prog.pure_eq]
  exact run_localDec_miss has refuses

end Slot

/-! ## The global counter of the own tree -/

section Sync

variable {c i needed : Nat}

def synced (u : Upper) (c i : Nat) : Upper :=
  let t := treeFromRow (u.slots c i).startRow
  (u.setTree t { u.trees t with free := 0 }).setSlot c i
    { u.slots c i with free := (u.slots c i).free + (u.trees t).free }

def Covers (u : Upper) (c i needed : Nat) : Prop :=
  (u.trees (treeFromRow (u.slots c i).startRow)).reserved = true ∧
    needed - (u.slots c i).free < (u.trees (treeFromRow (u.slots c i).startRow)).free

variable (present : (u.slots c i).present = true)
include present

theorem run_sync_enough (enough : needed ≤ (u.slots c i).free) :
    Prog.run (UpOp.exec K) (syncWithGlobal c i needed (makeResult false c (u.slots c i))) ⟨l, u⟩ =
      some (false, ⟨l, u⟩) := by
  simp only [syncWithGlobal]
  rw [Prog.assert_bind (by exact present)]
  simp only [makeResult, ge_iff_le, enough, if_true, Prog.pure_eq, Prog.run_ret]

private theorem run_sync (few : (u.slots c i).free < needed) {r : Option Nat}
    (done : (TableOp.treesSyncSteal (treeFromRow (u.slots c i).startRow)
      (needed - (u.slots c i).free)).exec K u = some (r, u')) :
    Prog.run (UpOp.exec K) (syncWithGlobal c i needed (makeResult false c (u.slots c i))) ⟨l, u⟩ =
      Prog.run (UpOp.exec K) (match r with
        | none => .ret false
        | some stolen => .step (.table (.localInc c i (treeFromRow (u.slots c i).startRow) stolen))
            fun took => if took then .ret true
              else .step (.table (.treesPut (treeFromRow (u.slots c i).startRow) stolen))
                fun _ => .ret false) ⟨l, u'⟩ := by
  simp only [syncWithGlobal]
  rw [Prog.assert_bind (by exact present)]
  simp only [makeResult, ge_iff_le, Nat.not_le.mpr few, if_false, treesSyncSteal, llLocalPut,
    localInc, treesPut, Prog.step_bind, Prog.ret_bind, Prog.pure_eq]
  exact run_table done

variable (inside : treeFromRow (u.slots c i).startRow < K.treesLen)
  (few : (u.slots c i).free < needed)
include inside few

theorem run_sync_refused (short : ¬ Covers u c i needed) :
    Prog.run (UpOp.exec K) (syncWithGlobal c i needed (makeResult false c (u.slots c i))) ⟨l, u⟩ =
      some (false, ⟨l, u⟩) := by
  have step : treeSyncSteal (u.trees (treeFromRow (u.slots c i).startRow))
      (needed - (u.slots c i).free) = none := if_neg short
  have done : (TableOp.treesSyncSteal (treeFromRow (u.slots c i).startRow)
      (needed - (u.slots c i).free)).exec K u = some (none, u) := by
    simp [TableOp.exec, inside, step]
  rw [run_sync present few done]
  rfl

omit present few in
private theorem exec_sync (covers : Covers u c i needed) :
    (TableOp.treesSyncSteal (treeFromRow (u.slots c i).startRow)
      (needed - (u.slots c i).free)).exec K u =
        some (some (u.trees (treeFromRow (u.slots c i).startRow)).free,
          u.setTree (treeFromRow (u.slots c i).startRow)
            { u.trees (treeFromRow (u.slots c i).startRow) with free := 0 }) := by
  have step : treeSyncSteal (u.trees (treeFromRow (u.slots c i).startRow))
      (needed - (u.slots c i).free) =
        some { u.trees (treeFromRow (u.slots c i).startRow) with free := 0 } := if_pos covers
  simp only [TableOp.exec, inside, if_true, step]

variable (has : K.HasSlot c i) (covers : Covers u c i needed)
include has covers

theorem run_sync_taken (room : (u.slots c i).free +
      (u.trees (treeFromRow (u.slots c i).startRow)).free ≤ treeSize) :
    Prog.run (UpOp.exec K) (syncWithGlobal c i needed (makeResult false c (u.slots c i))) ⟨l, u⟩ =
      some (true, ⟨l, synced u c i⟩) := by
  rw [run_sync present few (exec_sync inside covers)]
  exact run_localInc (u := u.setTree (treeFromRow (u.slots c i).startRow)
    { u.trees (treeFromRow (u.slots c i).startRow) with free := 0 }) has present rfl room

theorem run_sync_overflow (beyond : ¬ (u.slots c i).free +
      (u.trees (treeFromRow (u.slots c i).startRow)).free ≤ treeSize) :
    Prog.run (UpOp.exec K) (syncWithGlobal c i needed (makeResult false c (u.slots c i))) ⟨l, u⟩ =
      none := by
  have stuck : llReservedInc (u.slots c i) (treeFromRow (u.slots c i).startRow)
      (u.trees (treeFromRow (u.slots c i).startRow)).free = none := by
    rw [llReservedInc, if_neg (by simp [present]), if_neg beyond]
  rw [run_sync present few (exec_sync inside covers)]
  dsimp only
  rw [Prog.run_step]
  simp only [UpOp.exec, TableOp.exec, if_pos has, setTree_slots, stuck, Option.map_none,
    Option.bind_none]

end Sync

theorem run_getLocal_miss {c i order : Nat} {frame : Option Nat} {taken : Bool}
    (has : K.HasSlot c i) (present : (u.slots c i).present = true)
    (refuses : ¬ Holds (u.slots c i) (frame.map treeFromFrame) (2 ^ order))
    (sync : Prog.run (UpOp.exec K)
      (syncWithGlobal c i (2 ^ order) (makeResult false c (u.slots c i))) ⟨l, u⟩ =
        some (taken, ⟨l, u'⟩)) :
    Prog.run (UpOp.exec K) (getLocal c i order frame true) ⟨l, u⟩ =
      if taken then Prog.run (UpOp.exec K)
        (getLocalWith c i order frame fun again => return localMiss again) ⟨l, u'⟩
      else some (localMiss (makeResult false c (u.slots c i)), ⟨l, u'⟩) := by
  rw [getLocal, run_getLocalWith_miss has refuses]
  have again : (true && (makeResult false c (u.slots c i)).present) = true := present
  rw [if_pos again, Prog.run_bind_some sync]
  cases taken <;> rfl

end LLFree.Upper.Attempts

/- module: LLFree/Layout/Loops
   digest: The loops over the lower metadata compute what the model says, inside the buffer. -/

import LLFree.Atomic.Loops
import LLFree.Code.Accesses
import LLFree.Layout.Buffers

set_option autoImplicit false
set_option relaxedAutoImplicit false

namespace LLFree.Layout.Loops

open LLFree.Atomic.Program LLFree.Atomic.Loops LLFree.Code.Types LLFree.Code.Entries
open LLFree.Code.Lower LLFree.Code.Setup LLFree.Code.Layout LLFree.Code.Accesses
open LLFree.Layout.Buffers LLFree.Memory.Regions

variable {α : Type} {frames : Nat} {l l' : Lower}

/-- The program ends with `a` and the words of `l'`, and stays within the buffer. -/
abbrev Runs (frames : Nat) (p : BufferProg α) (l : Lower) (a : α) (l' : Lower) : Prop :=
  Completes BufferOp.exec (fun o _ => o.InPlace frames) p l a l'

/-! ## Accesses -/

theorem child_inPlace {group entry : Nat} (inside : group < childrenCount frames)
    (few : entry < treeChildren) :
    ∃ outer ∈ childrenRegions frames, (childRegion frames group entry).Within outer := by
  refine ⟨_, mem_array inside, Nat.le_add_right _ _, ?_⟩
  simp only [Region.stop, childRegion, childBytes, childrenBytes, treeChildren] at few ⊢
  omega

theorem row_inPlace {field row : Nat} (inside : field < childCount frames) (few : row < fieldN) :
    ∃ outer ∈ fieldRegions frames, (rowRegion field row).Within outer := by
  refine ⟨_, mem_array inside, ?_, ?_⟩
  · simp only [rowRegion]
    omega
  · simp only [Region.stop, rowRegion, rowBytes, bitfieldBytes, fieldN] at few ⊢
    omega

theorem runs_loadChild {group entry : Nat} (inside : group < childrenCount frames)
    (few : entry < treeChildren) :
    Runs frames (loadChild (group, entry)) l (l.children (group * treeChildren + entry)) l :=
  completes_step rfl (child_inPlace inside few) (completes_ret _ _)

theorem runs_storeChild {group entry : Nat} {child : Child} (inside : group < childrenCount frames)
    (few : entry < treeChildren) :
    Runs frames (storeChild (group, entry) child) l ()
      (l.setChild (group * treeChildren + entry) child) :=
  completes_step rfl (child_inPlace inside few) (completes_ret _ _)

theorem runs_loadRow {field row : Nat} (inside : field < childCount frames) (few : row < fieldN) :
    Runs frames (loadRow field row) l (l.rows (field * fieldN + row)) l :=
  completes_step rfl (row_inPlace inside few) (completes_ret _ _)

theorem runs_storeRow {field row : Nat} {v : Row} (inside : field < childCount frames)
    (few : row < fieldN) :
    Runs frames (storeRow field row v) l () (l.setRow (field * fieldN + row) v) :=
  completes_step rfl (row_inPlace inside few) (completes_ret _ _)

section Child

variable {i : Nat} (inside : i < childrenCount frames * treeChildren)
include inside

private theorem group_lt : i / treeChildren < childrenCount frames :=
  Nat.div_lt_of_lt_mul (by rwa [Nat.mul_comm])

private theorem runs_childPtr :
    Runs frames (childPtr frames i) l (i / treeChildren, i % treeChildren) l := by
  rw [← entries_eq] at inside
  exact completes_bind (completes_assert inside l) (completes_ret _ _)

theorem runs_getLoad {β : Type} {f : Child → BufferProg β} {b : β}
    (rest : Runs frames (f (l.children i)) l b l') :
    Runs frames (childPtr frames i >>= fun ptr => loadChild ptr >>= f) l b l' := by
  have load : Runs frames (loadChild (i / treeChildren, i % treeChildren)) l _ l :=
    runs_loadChild (group_lt inside) (Nat.mod_lt i (by decide))
  rw [Nat.div_add_mod'] at load
  exact completes_bind (runs_childPtr inside) (completes_bind load rest)

theorem runs_getStore {β : Type} {f : Unit → BufferProg β} {b : β} {child : Child}
    (rest : Runs frames (f ()) (l.setChild i child) b l') :
    Runs frames (childPtr frames i >>= fun ptr => storeChild ptr child >>= f) l b l' := by
  have store : Runs frames (storeChild (i / treeChildren, i % treeChildren) child) l () _ :=
    runs_storeChild (group_lt inside) (Nat.mod_lt i (by decide))
  rw [Nat.div_add_mod'] at store
  exact completes_bind (runs_childPtr inside) (completes_bind store rest)

end Child

/-! ## Initialisation -/

/-- The words after the first `m` rows of a bitfield have been written. -/
def filled (l : Lower) (field : Nat) (new : Nat → Row) (m : Nat) : Lower :=
  { l with rows := fun r =>
      if r / fieldN = field ∧ r % fieldN < m then new (r % fieldN) else l.rows r }

theorem filled_zero (l : Lower) (field : Nat) (new : Nat → Row) : filled l field new 0 = l := by
  simp [filled]

theorem filled_succ (l : Lower) (field : Nat) (new : Nat → Row) {m : Nat} (few : m < fieldN) :
    (filled l field new m).setRow (field * fieldN + m) (new m) = filled l field new (m + 1) := by
  simp only [filled, Lower.setRow, Lower.mk.injEq, true_and]
  funext r
  simp only [Function.update_apply, fieldN] at few ⊢
  by_cases here : r = field * 8 + m
  · have place : r / 8 = field ∧ r % 8 = m := by omega
    rw [if_pos here, if_pos ⟨place.1, by omega⟩, place.2]
  · have same : (r / 8 = field ∧ r % 8 < m) ↔ (r / 8 = field ∧ r % 8 < m + 1) := by omega
    rw [if_neg here]
    simp only [same]

theorem runs_zeroField {field : Nat} (inside : field < childCount frames) :
    Runs frames (zeroField field) l () (filled l field (fun _ => 0#64) fieldN) := by
  have loop : Runs frames (zeroField field) (filled l field (fun _ => 0#64) 0) ()
      (filled l field (fun _ => 0#64) (0 + fieldN)) := by
    refine completes_each 0 fieldN fun m _ few => ?_
    rw [Nat.zero_add] at few
    rw [← filled_succ l field _ few]
    exact runs_storeRow inside few
  rwa [filled_zero] at loop

private theorem initFieldRow_left (free i : Nat) :
    initFieldRow free i = if free - i * atomicSize ≥ atomicSize then 0#64
      else if free - i * atomicSize > 0 then BitVec.allOnes 64 <<< (free - i * atomicSize)
      else BitVec.allOnes 64 := by
  have full : free ≥ (i + 1) * atomicSize ↔ free - i * atomicSize ≥ atomicSize := by
    simp only [atomicSize]
    omega
  have part : free > i * atomicSize ↔ free - i * atomicSize > 0 := by
    simp only [atomicSize]
    omega
  simp only [initFieldRow, full, part]

private theorem runs_initFieldFrom {field : Nat} (inside : field < childCount frames)
    (free left : Nat) {i : Nat} (total : i + left = fieldN) :
    Runs frames (initFieldFrom field i left (free - i * atomicSize))
      (filled l field (initFieldRow free) i) () (filled l field (initFieldRow free) fieldN) := by
  induction left generalizing i with
  | zero =>
    rw [Nat.add_zero] at total
    subst total
    exact completes_ret () _
  | succ left ih =>
    have few : i < fieldN := by omega
    have next : free - (i + 1) * atomicSize = free - i * atomicSize - atomicSize := by
      simp only [atomicSize]
      omega
    have rest := ih (i := i + 1) (by omega)
    have store : ∀ v, initFieldRow free i = v → ∀ free', free - (i + 1) * atomicSize = free' →
        Runs frames (storeRow field i v >>= fun _ => initFieldFrom field (i + 1) left free')
          (filled l field (initFieldRow free) i) ()
            (filled l field (initFieldRow free) fieldN) := by
      rintro v rfl free' rfl
      refine completes_bind (runs_storeRow inside few) ?_
      rw [filled_succ l field _ few]
      exact rest
    simp only [initFieldFrom]
    split_ifs with full part
    · exact store _ (by rw [initFieldRow_left, if_pos full]) _ next
    · exact store _ (by rw [initFieldRow_left, if_neg full, if_pos part]) _ (by omega)
    · exact store _ (by rw [initFieldRow_left, if_neg full, if_neg part]) _ (by omega)

theorem runs_initField {field : Nat} (inside : field < childCount frames) (free : Nat) :
    Runs frames (initField field free) l () (filled l field (initFieldRow free) fieldN) := by
  have loop := runs_initFieldFrom (l := l) inside free fieldN (Nat.zero_add fieldN)
  rwa [filled_zero, Nat.zero_mul, Nat.sub_zero] at loop

def clearEntry (frames : Nat) (freeAll : Bool) (i : Nat) : Child :=
  childNew (clearFree frames freeAll i) (clearFree frames freeAll i == 0)

def clearRow (frames : Nat) (freeAll : Bool) (i r : Nat) : Row :=
  if clearFree frames freeAll i = 0 then 0#64 else initFieldRow (clearFree frames freeAll i) r

/-- The words after the first `k` turns of the first loop of `lower_clear`. -/
def cleared (frames : Nat) (freeAll : Bool) (l : Lower) (k : Nat) : Lower :=
  { l with
    children := fun i => if i < k then clearEntry frames freeAll i else l.children i
    rows := fun r => if r / fieldN < k then clearRow frames freeAll (r / fieldN) (r % fieldN)
      else l.rows r }

theorem cleared_succ (frames : Nat) (freeAll : Bool) (l : Lower) (k : Nat) :
    filled ((cleared frames freeAll l k).setChild k (clearEntry frames freeAll k)) k
      (clearRow frames freeAll k) fieldN = cleared frames freeAll l (k + 1) := by
  simp only [filled, cleared, Lower.setChild, Lower.mk.injEq, true_and]
  constructor
  · funext i
    rw [Function.update_apply]
    by_cases here : i = k
    · rw [if_pos here, if_pos (by omega), here]
    · have same : i < k ↔ i < k + 1 := by omega
      rw [if_neg here]
      simp only [same]
  · funext r
    have few : r % fieldN < fieldN := Nat.mod_lt _ (by decide)
    by_cases here : r / fieldN = k
    · rw [if_pos ⟨here, few⟩, if_pos (by omega), here]
    · have same : r / fieldN < k ↔ r / fieldN < k + 1 := by omega
      rw [if_neg (fun both => here both.1)]
      simp only [same]

theorem runs_clearChild (accepted : frames ≤ maxPages) (freeAll : Bool) {k : Nat}
    (inside : k < childCount frames) :
    Runs frames (clearChild frames freeAll k) (cleared frames freeAll l k) ()
      (cleared frames freeAll l (k + 1)) := by
  rw [← cleared_succ]
  refine runs_getStore (inside.trans_le (childCount_le accepted)) ?_
  change Runs frames (if clearFree frames freeAll k = 0 then zeroField k
    else initField k (clearFree frames freeAll k)) _ _ _
  by_cases none : clearFree frames freeAll k = 0
  · have rows : clearRow frames freeAll k = fun _ => 0#64 := funext fun _ => if_pos none
    rw [if_pos none, rows]
    exact runs_zeroField inside
  · have rows : clearRow frames freeAll k = initFieldRow (clearFree frames freeAll k) :=
      funext fun _ => if_neg none
    rw [if_neg none, rows]
    exact runs_initField inside _

/-- The words after the second loop of `lower_clear` has come to entry `k`. -/
def padded (first : Nat) (l : Lower) (k : Nat) : Lower :=
  { l with children := fun i => if first ≤ i ∧ i < k then childNew 0 true else l.children i }

theorem runs_clearLeftover {first k : Nat} (late : first ≤ k)
    (inside : k < childrenCount frames * treeChildren) :
    Runs frames (clearLeftover frames k) (padded first l k) () (padded first l (k + 1)) := by
  have next : (padded first l k).setChild k (childNew 0 true) = padded first l (k + 1) := by
    simp only [padded, Lower.setChild, Lower.mk.injEq, true_and, and_true]
    funext i
    rw [Function.update_apply]
    by_cases here : i = k
    · rw [if_pos here, if_pos (by omega)]
    · have same : (first ≤ i ∧ i < k) ↔ (first ≤ i ∧ i < k + 1) := by omega
      rw [if_neg here]
      simp only [same]
  rw [← next]
  exact runs_getStore (f := .ret) inside (completes_ret _ _)

theorem childCount_model (accepted : l.frames ≤ maxPages) : childCount l.frames = l.childCount :=
  childCount_eq accepted

theorem entryCount_model (accepted : l.frames ≤ maxPages) :
    childrenCount l.frames * treeChildren = l.entryCount := by
  rw [Lower.entryCount, ← childCount_model accepted, childCount_eq accepted,
    childrenCount_eq accepted]
  simp only [alignUp, alignDown, divCeil, childSize, treeSize, treeChildren]
  omega

private theorem runs_clearChildren (accepted : frames ≤ maxPages) (freeAll : Bool) :
    Runs frames (Prog.each (List.range' 0 (childCount frames)) (clearChild frames freeAll)) l ()
      (cleared frames freeAll l (childCount frames)) := by
  have none : cleared frames freeAll l 0 = l := by simp [cleared]
  have loop : Runs frames
      (Prog.each (List.range' 0 (childCount frames)) (clearChild frames freeAll))
      (cleared frames freeAll l 0) () (cleared frames freeAll l (0 + childCount frames)) :=
    completes_each 0 _ fun k _ few =>
      runs_clearChild accepted freeAll (by rwa [Nat.zero_add] at few)
  rwa [none, Nat.zero_add] at loop

private theorem runs_clearLeftovers {first : Nat}
    (le : first ≤ childrenCount frames * treeChildren) :
    Runs frames (Prog.each (List.range' first (childrenCount frames * treeChildren - first))
      (clearLeftover frames)) l () (padded first l (childrenCount frames * treeChildren)) := by
  have start : padded first l first = l := by
    have empty : ∀ i, ¬ (first ≤ i ∧ i < first) := by omega
    simp only [padded, empty, if_false]
  have loop : Runs frames
      (Prog.each (List.range' first (childrenCount frames * treeChildren - first))
      (clearLeftover frames)) (padded first l first) ()
      (padded first l (first + (childrenCount frames * treeChildren - first))) :=
    completes_each _ _ fun k late few => runs_clearLeftover late (by omega)
  rwa [start, Nat.add_sub_of_le le] at loop

private theorem padded_cleared (accepted : l.frames ≤ maxPages) (freeAll : Bool) :
    padded (childCount l.frames) (cleared l.frames freeAll l (childCount l.frames))
      (childrenCount l.frames * treeChildren) = lowerClear l freeAll := by
  rw [childCount_model accepted, entryCount_model accepted]
  simp only [padded, cleared, lowerClear, Lower.mk.injEq, true_and]
  refine ⟨funext fun i => ?_, rfl⟩
  by_cases child : i < l.childCount
  · rw [if_neg (by omega), if_pos child, if_pos child]
    rfl
  · have same : (l.childCount ≤ i ∧ i < l.entryCount) ↔ i < l.entryCount := by omega
    rw [if_neg child, if_neg child]
    simp only [same]

theorem runs_lowerClear (accepted : l.frames ≤ maxPages) (freeAll : Bool) :
    Runs l.frames (lowerClearLoop l.frames freeAll) l () (lowerClear l freeAll) := by
  rw [← padded_cleared accepted]
  exact completes_bind (runs_clearChildren accepted freeAll)
    (runs_clearLeftovers (childCount_le accepted))

/-! ## Statistics -/

def partFree (l : Lower) (start m : Nat) : Nat :=
  ((List.range m).map fun j => (l.children (start + j)).free).sum

def partHuge (l : Lower) (start m : Nat) : Nat :=
  (List.range m).countP fun j => (l.children (start + j)).free == childSize

theorem partFree_succ (l : Lower) (start m : Nat) :
    partFree l start (m + 1) = partFree l start m + (l.children (start + m)).free := by
  simp [partFree, List.range_succ]

theorem partHuge_succ (l : Lower) (start m : Nat) :
    partHuge l start (m + 1) =
      partHuge l start m + ((l.children (start + m)).free == childSize).toNat := by
  rw [partHuge, List.range_succ, List.countP_append, List.countP_singleton]
  cases (l.children (start + m)).free == childSize <;> rfl

theorem runs_initTreeCb {idx : Nat} (inside : idx < childrenCount frames) :
    Runs frames (initTreeCbLoop (frameFromTree idx)) l (initTreeCb l idx) l := by
  have tree : treeFromFrame (frameFromTree idx) = idx := Nat.mul_div_cancel idx (by decide)
  have loop : Runs frames (initTreeCbLoop (frameFromTree idx)) l
      (partFree l (idx * treeChildren) (0 + treeChildren)) l := by
    rw [initTreeCbLoop, tree]
    refine completes_fold (partFree l (idx * treeChildren)) 0 treeChildren fun m _ few => ?_
    rw [partFree_succ]
    exact completes_bind (runs_loadChild inside (by rwa [Nat.zero_add] at few)) (completes_ret _ _)
  rwa [Nat.zero_add] at loop

-- The sums of `lower_stats` after `m` children of group `i`.
private def groupSum (l : Lower) (stats : Stats) (i m : Nat) : Stats × Nat :=
  (⟨stats.freeFrames + partFree l (i * treeChildren) m,
    stats.freeHuge + partHuge l (i * treeChildren) m,
    stats.freeTrees⟩, partFree l (i * treeChildren) m)

-- The sums of `lower_stats` after `m` groups.
private def statsSum (l : Lower) (m : Nat) : Stats where
  freeFrames := ((List.range m).map fun i => groupFree l (i * treeChildren)).sum
  freeHuge := ((List.range m).map fun i => groupHuge l (i * treeChildren)).sum
  freeTrees := (List.range m).countP fun i => groupFree l (i * treeChildren) == treeSize

private theorem runs_statsGroup {i : Nat} (inside : i < childrenCount frames) :
    Runs frames (statsGroup (statsSum l i) i) l (statsSum l (i + 1)) l := by
  have loop : Runs frames ((List.range' 0 treeChildren).foldlM (statsChild i)
      (groupSum l (statsSum l i) i 0)) l (groupSum l (statsSum l i) i (0 + treeChildren)) l := by
    refine completes_fold (groupSum l (statsSum l i) i) 0 treeChildren fun m _ few => ?_
    have next : groupSum l (statsSum l i) i (m + 1) =
        (⟨(groupSum l (statsSum l i) i m).1.freeFrames +
        (l.children (i * treeChildren + m)).free, (groupSum l (statsSum l i) i m).1.freeHuge +
        ((l.children (i * treeChildren + m)).free == childSize).toNat,
        (groupSum l (statsSum l i) i m).1.freeTrees⟩,
        (groupSum l (statsSum l i) i m).2 + (l.children (i * treeChildren + m)).free) := by
      simp only [groupSum, partFree_succ, partHuge_succ, Nat.add_assoc]
    rw [next]
    exact completes_bind (runs_loadChild inside (by rwa [Nat.zero_add] at few)) (completes_ret _ _)
  have total : statsSum l (i + 1) = { (groupSum l (statsSum l i) i treeChildren).1 with
      freeTrees := (groupSum l (statsSum l i) i treeChildren).1.freeTrees +
        ((groupSum l (statsSum l i) i treeChildren).2 == treeSize).toNat } := by
    simp only [statsSum, List.range_succ, List.map_append, List.sum_append, List.countP_append,
      List.countP_singleton, List.map_cons, List.map_nil, List.sum_singleton, groupSum]
    congr 1
    change _ = _ + (groupFree l (i * treeChildren) == treeSize).toNat
    cases groupFree l (i * treeChildren) == treeSize <;> rfl
  rw [total]
  rw [Nat.zero_add] at loop
  exact completes_bind loop (completes_ret _ _)

theorem runs_lowerStats (accepted : l.frames ≤ maxPages) :
    Runs l.frames (lowerStatsLoop l.frames) l (lowerStats l) l := by
  have groups : childrenCount l.frames = l.childrenCount := by
    rw [childrenCount_eq accepted, Lower.childrenCount, Lower.childCount]
    simp only [divCeil, childSize, treeSize, treeChildren]
    omega
  have loop : Runs l.frames (lowerStatsLoop l.frames) l
      (statsSum l (0 + childrenCount l.frames)) l := by
    refine completes_fold (statsSum l) 0 _ fun i _ few => runs_statsGroup ?_
    rwa [Nat.zero_add] at few
  rw [Nat.zero_add, groups] at loop
  exact loop

-- The sums of `lower_stats_at` after `m` children of a tree.
private def treeSum (l : Lower) (start m : Nat) : Stats :=
  ⟨partFree l start m, partHuge l start m, 0⟩

private theorem runs_statsAtTree {start : Nat}
    (inside : start + treeChildren ≤ childrenCount frames * treeChildren) :
    Runs frames ((List.range' 0 treeChildren).foldlM (statsAtChild frames start) ⟨0, 0, 0⟩) l
      ⟨groupFree l start, groupHuge l start, 0⟩ l := by
  have loop : Runs frames
      ((List.range' 0 treeChildren).foldlM (statsAtChild frames start) ⟨0, 0, 0⟩)
      l (treeSum l start (0 + treeChildren)) l := by
    refine completes_fold (treeSum l start) 0 treeChildren fun m _ few => ?_
    rw [Nat.zero_add] at few
    rw [treeSum, treeSum, partFree_succ, partHuge_succ]
    exact runs_getLoad (by omega) (completes_ret _ _)
  rwa [Nat.zero_add] at loop

theorem runs_lowerStatsAt (accepted : l.frames ≤ maxPages) (frame order : Nat) :
    Runs l.frames (lowerStatsAtLoop l.frames frame order) l (lowerStatsAt l frame order) l := by
  have le := childCount_le accepted
  unfold lowerStatsAtLoop lowerStatsAt
  split_ifs with outside single huge tree
  · exact completes_ret _ _
  all_goals
    have child : childFromFrame frame < childCount l.frames := by
      rw [childCount_eq accepted]
      simp only [childFromFrame, divCeil, childSize]
      omega
  · refine runs_getLoad (child.trans_le le) ?_
    dsimp only
    split_ifs with whole part
    · exact completes_ret _ _
    · refine completes_bind (runs_loadRow child ?_) (completes_ret _ _)
      simp only [childSize, atomicSize, fieldN]
      omega
    · exact completes_ret _ _
  · exact runs_getLoad (child.trans_le le) (completes_ret _ _)
  · refine completes_bind (runs_statsAtTree ?_) (completes_ret _ _)
    have reach := child.trans_le le
    simp only [alignDown, treeChildren] at reach ⊢
    omega
  · exact completes_ret _ _

/-! ## The whole metadata -/

/-- The arrays of the three buffers are apart from each other, aligned, and as long as the reported
sizes at most, and the loops over the children stay within them and compute what the model says. -/
theorem metadata_fits {classing : Classing} (accepted : frames ≤ maxPages)
    (distinct : (classing.classes.map Prod.fst).Nodup)
    (room : localBytes + entryBytes * (classing.classes.map Prod.snd).sum < 2 ^ 64) :
    Fits cacheSize (llfreeMetadataSize classing frames).lower (lowerRegions frames) ∧
    Fits cacheSize (llfreeMetadataSize classing frames).trees (treeRegions frames) ∧
    Fits cacheSize (llfreeMetadataSize classing frames).locals (localRegions classing) ∧
    ∀ l : Lower, l.frames = frames →
      (∀ freeAll, Runs frames (lowerClearLoop frames freeAll) l () (lowerClear l freeAll)) ∧
      (∀ idx < sizeDivCeil frames treeSize,
        Runs frames (initTreeCbLoop (frameFromTree idx)) l (initTreeCb l idx) l) ∧
      Runs frames (lowerStatsLoop frames) l (lowerStats l) l ∧
      ∀ frame order,
        Runs frames (lowerStatsAtLoop frames frame order) l (lowerStatsAt l frame order) l := by
  refine ⟨lowerRegions_fit accepted, treeRegions_fit accepted, localRegions_fit distinct room, ?_⟩
  rintro l rfl
  refine ⟨runs_lowerClear accepted, fun idx inside => runs_initTreeCb ?_, runs_lowerStats accepted,
    runs_lowerStatsAt accepted⟩
  rwa [childrenCount_eq accepted, ← treeLen_eq accepted]

/-- A frame more than a tree, with two classes of two slots. -/
theorem metadata_fits_partial :
    Fits cacheSize 704 (lowerRegions 4097) ∧ Fits cacheSize 64 (treeRegions 4097) ∧
      Fits cacheSize 512 (localRegions (llfreeClassingSimple 2)) := by
  obtain ⟨lower, trees, locals, -⟩ := metadata_fits (show 4097 ≤ maxPages by decide)
    (show ((llfreeClassingSimple 2).classes.map Prod.fst).Nodup by decide) (by decide)
  exact ⟨lower, trees, locals⟩

end LLFree.Layout.Loops

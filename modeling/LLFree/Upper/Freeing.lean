/- module: LLFree/Upper/Freeing
   digest: The frees of disjoint allocated blocks commute. -/

import LLFree.Upper.Attached
import LLFree.Upper.Pristine
import LLFree.Upper.Puts

/-!
What a sequence of frees leaves is described without their order: the frames that became free, the
children that are still huge, and what each slot and each tree entry got back.
-/

set_option autoImplicit false
set_option relaxedAutoImplicit false

namespace LLFree.Upper.Freeing

open LLFree.Atomic.Program LLFree.Code.Types LLFree.Code.Entries LLFree.Code.Trees
open LLFree.Code.Shared LLFree.Code.Llfree LLFree.Lower.Holding LLFree.Lower.GetPut
open LLFree.Lower.Quiet LLFree.Lower.FrameSet LLFree.Lower.FreeCount LLFree.Upper.Slots
open LLFree.Upper.Steps LLFree.Upper.Calls LLFree.Upper.Sequential LLFree.Upper.Balance
open LLFree.Upper.Conservation LLFree.Upper.Tidied LLFree.Upper.Offline LLFree.Upper.Attached
open LLFree.Upper.Pristine LLFree.Upper.Puts

variable {K : Config} {fits : Fits K} {s t : Llfree Lower} {l l' : Lower} {u : Upper}

/-! ## The lower allocator -/

theorem words_determined {N : Nat} (cons : Consistent N l) (cons' : Consistent N l')
    (free : ∀ g, IsFree l g ↔ IsFree l' g)
    (kinds : ∀ c < entriesOf N, (l.children c).huge = true ↔ (l'.children c).huge = true) :
    (∀ r < l.rowCount, l.rows r = l'.rows r) ∧
      ∀ c < l.entryCount, l.children c = l'.children c := by
  have entries := cons.backed.entryCount_eq
  have entries' := cons'.backed.entryCount_eq
  have real : l.childCount = l'.childCount := by
    rw [cons.backed.childCount_eq, cons'.backed.childCount_eq]
  constructor
  · intro r inside
    have child : r / 8 < l.childCount := by
      simp only [Lower.rowCount, fieldN] at inside
      omega
    have bound := child.trans_le (childCount_le_entryCount l)
    have row : r / 8 * 8 + r % 8 = r := by omega
    have less : r % 8 < 8 := Nat.mod_lt r (by decide)
    have kind := kinds (r / 8) (entries ▸ bound)
    cases huge : (l.children (r / 8)).huge with
    | true =>
      have zero := (cons.huge _ bound huge).2 child _ less
      have zero' := (cons'.huge _ (by omega) (kind.mp huge)).2 (real ▸ child) _ less
      rw [row] at zero zero'
      rw [zero, zero']
    | false =>
      have huge' : (l'.children (r / 8)).huge = false := by
        simpa [huge] using kind
      refine BitVec.eq_of_getLsbD_eq fun i small => ?_
      have same := free (r * 64 + i)
      have here : (r * 64 + i) / 512 = r / 8 := by omega
      have word : (r * 64 + i) / 64 = r := by omega
      have bit : (r * 64 + i) % 64 = i := by omega
      simp only [IsFree, here, huge, huge', bitSet, word, bit, child, real ▸ child,
        true_and] at same
      cases one : (l.rows r).getLsbD i with
      | false => exact (same.mp one).symm
      | true =>
        cases other : (l'.rows r).getLsbD i with
        | false => exact absurd (same.mpr other) (by simp [one])
        | true => rfl
  · intro c inside
    have kind := kinds c (entries ▸ inside)
    have inside' : c < l'.entryCount := by omega
    have count : (l.children c).free = (l'.children c).free := by
      rw [← child_free cons inside, ← child_free cons' inside', among, among,
        Finset.filter_congr fun g _ => free g]
    refine Child.ext count ?_
    cases huge : (l.children c).huge with
    | true => exact (kind.mp huge).symm
    | false =>
      cases huge' : (l'.children c).huge with
      | true => simp [huge, huge'] at kind
      | false => rfl

/-! ## Blocks to free -/

structure Release where
  frame : Nat
  request : Request

namespace Release

def tree (b : Release) : Nat := treeFromFrame b.frame
def count (b : Release) : Nat := 2 ^ b.request.order
def block (b : Release) : Set Nat := blockSet b.frame b.request.order

def Apart (b d : Release) : Prop := ∀ g ∈ b.block, g ∉ d.block

end Release

/-- Frees one block after the other; `none` when a call fails or an assertion does. -/
def putAll (K : Config) : List Release → Llfree Lower → Option (Llfree Lower)
  | [], s => some s
  | b :: rest, s => match (Call.put b.frame b.request).run K s with
    | some (some r, s') => if r.error = .ok then putAll K rest s' else none
    | _ => none

/-- The block can be freed: a valid request for at most a huge frame, all its frames are allocated,
and a huge frame is held as one. -/
structure Releasable (K : Config) (l : Lower) (b : Release) : Prop where
  checked : Checked K b.request (some b.frame)
  small : b.request.order ≤ hugeOrder
  taken : ∀ g ∈ b.block, ¬ IsFree l g
  whole : b.request.order = hugeOrder → (l.children (b.frame / 512)).huge = true

def slotFor (u : Upper) (b : Release) : Option Nat :=
  b.request.slot.filter fun i => (u.slots b.request.cls i).present &&
    treeFromRow (u.slots b.request.cls i).startRow == b.tree

theorem slotFor_some {b : Release} {i : Nat} :
    slotFor u b = some i ↔ ToSlot u b.request b.tree i := by
  simp [slotFor, ToSlot, Option.filter_eq_some_iff]

theorem slotFor_none {b : Release} : slotFor u b = none ↔ ∀ i, ¬ ToSlot u b.request b.tree i := by
  simp only [← slotFor_some, Option.eq_none_iff_forall_ne_some, ne_eq]

def slotShare (u : Upper) (bs : List Release) (c i : Nat) : Nat :=
  (bs.map fun b => if b.request.cls = c ∧ slotFor u b = some i then b.count else 0).sum

def treeShare (u : Upper) (bs : List Release) (t : Nat) : Nat :=
  (bs.map fun b => if b.tree = t ∧ slotFor u b = none then b.count else 0).sum

def restocked (K : Config) (tree : Tree) (n : Nat) : Tree := if n = 0 then tree else raised K tree n

structure Restocked (fits : Fits K) (s : Llfree Lower) (bs : List Release) (t : Llfree Lower) :
    Prop where
  sound : Sound (plainPromise K) (words fits) t 0
  free : ∀ g, IsFree t.lower g ↔ IsFree s.lower g ∨ ∃ b ∈ bs, g ∈ b.block
  kinds : ∀ c < entriesOf K.frames, (t.lower.children c).huge = true ↔
    (s.lower.children c).huge = true ∧ ∀ b ∈ bs, b.frame / 512 ≠ c
  trees : ∀ i, t.upper.trees i = restocked K (s.upper.trees i) (treeShare s.upper bs i)
  slots : ∀ c i, t.upper.slots c i =
    { s.upper.slots c i with free := (s.upper.slots c i).free + slotShare s.upper bs c i }

theorem Restocked.perm {bs bs' : List Release} (restocked : Restocked fits s bs t)
    (perm : bs.Perm bs') : Restocked fits s bs' t := by
  refine ⟨restocked.sound, fun g => ?_, fun c inside => ?_, fun i => ?_, fun c i => ?_⟩
  · simp only [restocked.free g, perm.mem_iff]
  · simp only [restocked.kinds c inside, perm.mem_iff]
  · rw [restocked.trees, treeShare, treeShare, (perm.map _).sum_eq]
  · rw [restocked.slots, slotShare, slotShare, (perm.map _).sum_eq]

theorem Restocked.same {bs : List Release} {t' : Llfree Lower} (one : Restocked fits s bs t)
    (other : Restocked fits s bs t') : SameState K t t' := by
  have cons : Consistent K.frames t.lower := one.sound.good
  have cons' : Consistent K.frames t'.lower := other.sound.good
  have words := words_determined cons cons'
    (fun g => (one.free g).trans (other.free g).symm)
    (fun c inside => (one.kinds c inside).trans (other.kinds c inside).symm)
  refine ⟨by rw [cons.frames, cons'.frames], words.1, words.2, fun i _ => ?_, fun c i _ => ?_⟩
  · rw [one.trees, other.trees]
  · rw [one.slots, other.slots]

/-! ## One free -/

theorem raised_restocked {tree : Tree} {n m : Nat} (some : 0 < m)
    (room : tree.free + n + m ≤ treeSize) :
    raised K (restocked K tree n) m = restocked K tree (m + n) := by
  have more : m + n ≠ 0 := by omega
  rw [restocked, restocked, if_neg more]
  split_ifs with zero
  · rw [zero, Nat.add_zero]
  · have partly : ¬ tree.free + n = treeSize := by omega
    have total : tree.free + (m + n) = tree.free + n + m := by omega
    simp only [raised, partly, false_and, if_false, total]

theorem restocked_free (tree : Tree) (n : Nat) : (restocked K tree n).free = tree.free + n := by
  rw [restocked]
  split_ifs with zero
  · rw [zero, Nat.add_zero]
  · rfl

private theorem put_tidy {b : Release} (small : b.request.order ≤ hugeOrder) :
    TidyCall K (.put b.frame b.request) t := by
  have lower : ∀ v, TidyStep (.lower (.put b.frame b.request.order)) v := by
    intro v big
    exact absurd big (Nat.not_lt_of_le small)
  unfold TidyCall
  cases valid : validateRequest K b.request (some b.frame) with
  | false =>
    simp only [Call.prog, llfreePut, valid, if_true]
    trivial
  | true =>
    simp only [Call.prog, llfreePut, valid, Bool.true_eq_false, if_false, lowerPutStep, llLocalPut,
      localInc, treesPut, Prog.step_bind, Prog.ret_bind]
    refine ⟨lower _, fun r v _ => ?_⟩
    dsimp only
    split_ifs
    · trivial
    · cases b.request.slot with
      | none => exact ⟨trivial, fun _ _ _ => trivial⟩
      | some i =>
        refine ⟨trivial, fun taken w _ => ?_⟩
        cases taken with
        | true => trivial
        | false => exact ⟨trivial, fun _ _ _ => trivial⟩

private theorem fits_counters {b : Release} (sound : Sound (plainPromise K) (words fits) t 0)
    (able : Releasable K t.lower b) :
    (t.upper.trees b.tree).free + b.count ≤ treeSize ∧
      ∀ i, ToSlot t.upper b.request b.tree i →
        (t.upper.slots b.request.cls i).free + b.count ≤ treeSize := by
  have valid := able.checked.target b.frame rfl
  have order := able.small
  simp only [hugeOrder] at order
  have inside : b.tree < K.treesLen := by
    have bound := valid.1
    have pos : 0 < 2 ^ b.request.order := Nat.two_pow_pos _
    simp only [Release.tree, treeFromFrame, Config.treesLen, divCeil, treeSize]
    omega
  have balance : _ = treeFree (freeSet t.lower) b.tree := tree_frames sound inside
  change _ + _ + 0 = _ at balance
  have taken : blockSet b.frame b.request.order ∩ freeSet t.lower = ∅ := by
    apply Set.eq_empty_of_forall_notMem
    rintro g ⟨within, free⟩
    exact able.taken g within free
  have after := treeFree_give (t := b.tree) valid.2 (show b.request.order ≤ 12 by omega) taken
  rw [if_pos (show b.frame / 4096 = b.tree from rfl)] at after
  have bound := treeFree_le (freeSet t.lower ∪ blockSet b.frame b.request.order) b.tree
  have total : ∑ p ∈ holders K t.upper b.tree, (t.upper.slots p.1 p.2).free +
      (t.upper.trees b.tree).free + b.count ≤ treeSize := by
    simp only [Release.count, treeSize]
    omega
  refine ⟨by omega, ?_⟩
  rintro i ⟨named, present, here⟩
  have member : (b.request.cls, i) ∈ holders K t.upper b.tree :=
    mem_holders.mpr ⟨able.checked.slot i named, present, here⟩
  have part := Finset.add_sum_erase (holders K t.upper b.tree)
    (fun p : Nat × Nat => (t.upper.slots p.1 p.2).free) member
  dsimp only at part
  omega

private theorem share_cons_slot (u : Upper) (b : Release) (bs : List Release) (c i : Nat) :
    slotShare u (b :: bs) c i =
      (if b.request.cls = c ∧ slotFor u b = some i then b.count else 0) + slotShare u bs c i := rfl

private theorem share_cons_tree (u : Upper) (b : Release) (bs : List Release) (i : Nat) :
    treeShare u (b :: bs) i =
      (if b.tree = i ∧ slotFor u b = none then b.count else 0) + treeShare u bs i := rfl

private theorem slotFor_restocked {bs : List Release} (before : Restocked fits s bs t)
    (b : Release) :
    slotFor t.upper b = slotFor s.upper b := by
  simp only [slotFor, before.slots]

private theorem returned_restocks {b : Release} {bs : List Release} {v : Upper}
    (before : Restocked fits s bs t) (returned : Returned K t.upper b.request b.tree v) :
    (∀ i, v.trees i = restocked K (s.upper.trees i) (treeShare s.upper (b :: bs) i)) ∧
      ∀ c i, v.slots c i = { s.upper.slots c i with
        free := (s.upper.slots c i).free + slotShare s.upper (b :: bs) c i } := by
  have same := slotFor_restocked before b
  cases returned with
  | slot j held room =>
    have goes := slotFor_some.mpr held
    rw [same] at goes
    constructor
    · intro i
      rw [setSlot_trees, before.trees, share_cons_tree, if_neg, Nat.zero_add]
      rintro ⟨-, none⟩
      rw [goes] at none
      cases none
    · intro c i
      rw [share_cons_slot, goes]
      by_cases here : c = b.request.cls ∧ i = j
      · obtain ⟨rfl, rfl⟩ := here
        rw [setSlot_self, before.slots, if_pos ⟨rfl, rfl⟩]
        simp only [Release.count, Nat.add_assoc, Nat.add_comm (2 ^ b.request.order)]
      · rw [setSlot_other _ _ here, before.slots, if_neg, Nat.zero_add]
        rintro ⟨rfl, equal⟩
        exact here ⟨rfl, (Option.some.inj equal).symm⟩
  | tree other room =>
    have goes := slotFor_none.mpr other
    rw [same] at goes
    constructor
    · intro i
      rw [share_cons_tree]
      by_cases here : i = b.tree
      · subst here
        rw [before.trees, restocked_free] at room
        rw [setTree_trees, Function.update_self, before.trees, if_pos ⟨rfl, goes⟩,
          raised_restocked (Nat.two_pow_pos _) room]
        rfl
      · rw [setTree_trees, Function.update_of_ne here, before.trees, if_neg, Nat.zero_add]
        rintro ⟨rfl, -⟩
        exact here rfl
    · intro c i
      rw [setTree_slots, before.slots, share_cons_slot, if_neg, Nat.zero_add]
      rintro ⟨-, some⟩
      rw [goes] at some
      cases some

private theorem put_restocks (some : 0 < K.treesLen) {b : Release} {bs : List Release}
    (before : Restocked fits s bs t) (able : Releasable K t.lower b) :
    ∃ t', (Call.put b.frame b.request).run K t = Option.some (Option.some (llfreeOk 0 0), t') ∧
      Restocked fits s (b :: bs) t' := by
  have cons : Consistent K.frames t.lower := before.sound.good
  have valid := able.checked.target b.frame rfl
  have kind : b.request.order < 9 ∨
      b.request.order = 9 ∧ (t.lower.children (b.frame / 512)).huge = true := by
    rcases Nat.lt_or_eq_of_le able.small with less | whole
    · exact Or.inl less
    · exact Or.inr ⟨whole, able.whole whole⟩
  obtain ⟨l', done, -, freed⟩ := put_allocated cons valid kind able.taken
  obtain ⟨counter, slots⟩ := fits_counters before.sound able
  obtain ⟨v, returned⟩ : ∃ v, Returned K t.upper b.request b.tree v := by
    cases goes : slotFor t.upper b with
    | none => exact ⟨_, .tree (slotFor_none.mp goes) counter⟩
    | some i => exact ⟨_, .slot i (slotFor_some.mp goes) (slots i (slotFor_some.mp goes))⟩
  have run : (Call.put b.frame b.request).run K t =
      Option.some (Option.some (llfreeOk 0 0), ⟨l', v⟩) := run_put able.checked done returned
  have sound := call_tidy plain_supported not_false some (by simp) before.sound
    (put_tidy able.small) run
  obtain ⟨trees, slots⟩ := returned_restocks before returned
  refine ⟨⟨l', v⟩, run, sound, fun g => ?_, fun c inside => ?_, trees, slots⟩
  · have apart : IsFree l' g ↔ IsFree t.lower g ∨ g ∈ b.block := by
      by_cases within : g ∈ b.block
      · exact iff_of_true (freed.free g within) (Or.inr within)
      · exact (freed.others g within).trans (or_iff_left within).symm
    rw [apart, before.free g, List.exists_mem_cons_iff, or_assoc, or_comm (a := ∃ d ∈ bs, _)]
  · rw [put_kinds cons valid kind able.taken done inside, before.kinds c inside]
    simp only [List.mem_cons, forall_eq_or_imp]
    tauto

private theorem able_restocked {b : Release} {bs : List Release} (before : Restocked fits s bs t)
    (able : Releasable K s.lower b) (apart : ∀ d ∈ bs, d.Apart b) :
    Releasable K t.lower b := by
  refine ⟨able.checked, able.small, ?_, ?_⟩
  · intro g within free
    rcases (before.free g).mp free with old | ⟨d, member, inside⟩
    · exact able.taken g within old
    · exact apart d member g inside within
  · intro whole
    have valid := able.checked.target b.frame rfl
    have bound : b.frame / 512 < entriesOf K.frames := valid_entry valid
    rw [before.kinds _ bound]
    refine ⟨able.whole whole, fun d member here => ?_⟩
    -- a block within a huge frame is not disjoint from it
    have aligned : 512 ∣ b.frame := by
      have unit := valid.2
      rwa [whole] at unit
    have first : d.frame ∈ d.block := ⟨le_refl _, Nat.lt_add_of_pos_right (Nat.two_pow_pos _)⟩
    have inside : d.frame ∈ b.block := by
      have size : 2 ^ b.request.order = 512 := by
        rw [whole]
        rfl
      refine ⟨by omega, ?_⟩
      rw [size]
      omega
    exact apart d member d.frame first inside

/-! ## Sequences of frees -/

theorem run_putAll (some : 0 < K.treesLen) (todo : List Release) {finished : List Release}
    (before : Restocked fits s finished t) (able : ∀ b ∈ todo, Releasable K s.lower b)
    (apart : todo.Pairwise Release.Apart)
    (others : ∀ b ∈ todo, ∀ d ∈ finished, d.Apart b) :
    ∃ t', putAll K todo t = Option.some t' ∧ Restocked fits s (todo.reverse ++ finished) t' := by
  induction todo generalizing finished t with
  | nil => exact ⟨t, rfl, before⟩
  | cons b todo ih =>
    obtain ⟨first, rest⟩ := List.pairwise_cons.mp apart
    obtain ⟨t', run, after⟩ := put_restocks some before
      (able_restocked before (able b List.mem_cons_self) (others b List.mem_cons_self))
    obtain ⟨t'', done, last⟩ :=
      ih after (fun d member => able d (List.mem_cons_of_mem b member)) rest (by
        intro d member e finished
        rcases List.mem_cons.mp finished with rfl | old
        · exact first d member
        · exact others d (List.mem_cons_of_mem b member) e old)
    refine ⟨t'', ?_, ?_⟩
    · rw [putAll, run]
      exact done
    · rwa [List.reverse_cons, List.append_assoc]

/-- The blocks of `bs` can be freed, in any order: they are allocated and disjoint. -/
structure AllReleasable (K : Config) (l : Lower) (bs : List Release) : Prop where
  each : ∀ b ∈ bs, Releasable K l b
  apart : bs.Pairwise Release.Apart

theorem AllReleasable.perm {bs bs' : List Release} (able : AllReleasable K l bs)
    (perm : bs.Perm bs') : AllReleasable K l bs' :=
  ⟨fun b member => able.each b (perm.mem_iff.mpr member),
    (perm.pairwise_iff fun one g there here => one g here there).mp able.apart⟩

/-- Frees of disjoint allocated blocks succeed in every order, and the order leaves no trace. -/
theorem frees_commute {mode : InitMode} {s₀ : Llfree Lower} (fits : Fits K) (fresh : FreshMode mode)
    (init : Initialised K mode s₀) (run : History K ServedCalls () s₀ () s) {bs bs' : List Release}
    (able : AllReleasable K s.lower bs) (perm : bs.Perm bs') :
    ∃ t t', putAll K bs s = some t ∧ putAll K bs' s = some t' ∧ SameState K t t' := by
  obtain ⟨trees, start⟩ := parked_init fits fresh init
  have sound : Sound (plainPromise K) (words fits) s 0 :=
    run.keeps (I := fun _ u => Sound (plainPromise K) (words fits) u 0) start.sound
      fun _ _ _ _ _ _ kept plain done => plain_sound plain_supported trees not_false kept plain done
  have fresh_start : Restocked fits s [] s := by
    refine ⟨sound, by simp, by simp, fun i => rfl, fun c i => rfl⟩
  obtain ⟨t, done, last⟩ := run_putAll trees bs fresh_start able.each able.apart (by simp)
  have able' := able.perm perm
  obtain ⟨t', done', last'⟩ := run_putAll trees bs' fresh_start able'.each able'.apart (by simp)
  rw [List.append_nil] at last last'
  have back := (bs'.reverse_perm.trans perm.symm).trans bs.reverse_perm.symm
  exact ⟨t, t', done, done', last.same (last'.perm back)⟩

def twoFrames (slot : Option Nat) : List Release := [⟨0, ⟨0, 0, some 0⟩⟩, ⟨1, ⟨0, 0, slot⟩⟩]

private theorem twoFrames_releasable {slot : Option Nat}
    (valid : ∀ b ∈ twoFrames slot, validateRequest K b.request (some b.frame) = true)
    (taken : ¬ IsFree l 0 ∧ ¬ IsFree l 1) : AllReleasable K l (twoFrames slot) := by
  have single : ∀ b ∈ twoFrames slot, b.block = {b.frame} := by
    intro b member
    have order : b.request.order = 0 := by
      rcases List.mem_pair.mp member with rfl | rfl <;> rfl
    ext g
    rw [Release.block, order]
    exact ⟨fun here => Nat.le_antisymm (Nat.le_of_lt_succ here.2) here.1,
      fun same => ⟨Nat.le_of_eq same.symm, Nat.lt_succ_of_le (Nat.le_of_eq same)⟩⟩
  constructor
  · intro b member
    refine ⟨checked_of_valid (valid b member), ?_, ?_, ?_⟩
    · rcases List.mem_pair.mp member with rfl | rfl <;> exact Nat.zero_le _
    · rw [single b member]
      rintro g rfl
      rcases List.mem_pair.mp member with rfl | rfl
      · exact taken.1
      · exact taken.2
    · rcases List.mem_pair.mp member with rfl | rfl <;> intro whole <;> cases whole
  · apply List.pairwise_pair.mpr
    intro g first second
    rw [single _ List.mem_cons_self] at first
    rw [single _ (List.mem_cons_of_mem _ List.mem_cons_self)] at second
    exact absurd (first.symm.trans second) Nat.zero_ne_one

/-- Two frames of one huge allocation, freed to a slot and to the tree that it holds. -/
theorem frees_commute_two :
    ∃ t t', putAll ⟨4096, llfreeClassingSimple 1⟩ (twoFrames none)
        ((Call.get none ⟨9, 0, some 0⟩).after ⟨4096, llfreeClassingSimple 1⟩
          (initZeroed ⟨4096, llfreeClassingSimple 1⟩ .free)) = some t ∧
      putAll ⟨4096, llfreeClassingSimple 1⟩ (twoFrames none).reverse
        ((Call.get none ⟨9, 0, some 0⟩).after ⟨4096, llfreeClassingSimple 1⟩
          (initZeroed ⟨4096, llfreeClassingSimple 1⟩ .free)) = some t' ∧
      SameState ⟨4096, llfreeClassingSimple 1⟩ t t' :=
  frees_commute (by decide) (Or.inl rfl) (initZeroed_initialised (by decide))
    (.call (.get none ⟨9, 0, some 0⟩) (.start () _)
      (Call.run_after (r := some (llfreeOk 0 0)) (by decide +kernel))
      ⟨Or.inr rfl, by intro _ _ _ same; cases same⟩)
    (twoFrames_releasable (by decide) (by decide +kernel)) (List.reverse_perm _).symm

/-- Where slots confuse trees, a slot that names the first tree but holds the last one; two frames
of the first tree are taken without it. -/
def overfilled : Llfree Lower :=
  afterAll oversized [.get none ⟨0, 0, some 0⟩, .get (some 0) ⟨0, 0, none⟩,
    .get (some 1) ⟨0, 0, none⟩] oversizedFree

/-- Freed to this slot, the two frames are more than a tree has. -/
theorem frees_overflow :
    Initialised oversized .free oversizedFree ∧
      History oversized ServedCalls () oversizedFree () overfilled ∧
      AllReleasable oversized overfilled.lower (twoFrames (some 0)) ∧
      putAll oversized (twoFrames (some 0)) overfilled = none := by
  refine ⟨oversizedFree_initialised, .calls (.start () _) _ (by decide +kernel) ?_,
    twoFrames_releasable (by decide +kernel) (by decide +kernel), ?_⟩
  · intro c member t r
    have small : ∃ target slot, c = .get target ⟨0, 0, slot⟩ := by
      simp only [List.mem_cons, List.not_mem_nil, or_false] at member
      rcases member with rfl | rfl | rfl
      · exact ⟨_, _, rfl⟩
      · exact ⟨_, _, rfl⟩
      · exact ⟨_, _, rfl⟩
    obtain ⟨target, slot, rfl⟩ := small
    exact ⟨Or.inl (Nat.zero_le _), by intro _ _ _ same; cases same⟩
  · have failed : (putAll oversized (twoFrames (some 0)) overfilled).isNone = true := by
      decide +kernel
    exact Option.isNone_iff_eq_none.mp failed

end LLFree.Upper.Freeing

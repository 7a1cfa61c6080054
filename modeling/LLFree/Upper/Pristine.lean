/- module: LLFree/Upper/Pristine
   digest: Once everything is freed and the slots are drained nothing is left of a run. -/

import LLFree.Upper.Balance
import LLFree.Upper.Frames

set_option autoImplicit false
set_option relaxedAutoImplicit false

namespace LLFree.Upper.Pristine

open LLFree.Atomic.Program LLFree.Code.Types LLFree.Code.Entries LLFree.Code.Lower
open LLFree.Code.Trees LLFree.Code.Local LLFree.Code.Shared LLFree.Code.Llfree
open LLFree.Lower.Holding LLFree.Lower.GetPut LLFree.Lower.Quiet LLFree.Lower.FrameSet
open LLFree.Lower.FreeCount LLFree.Upper.Ledger LLFree.Upper.Slots LLFree.Upper.Steps
open LLFree.Upper.Sequential LLFree.Upper.Balance LLFree.Upper.Frames

/-! ## Frames handed out -/

/-- Calls on any block. What is remembered is the set of frames that were handed out and not
freed since. -/
inductive FrameCall : Set Nat → Llfree Lower → Call → Option Result → Set Nat → Prop
  | get (out : Set Nat) (s : Llfree Lower) (frame : Option Nat) (request : Request) (r : Result)
      (row : RowOrHuge request.order) : FrameCall out s (.get frame request) (some r)
        (if r.error = .ok then out ∪ blockSet r.frame request.order else out)
  | put (out : Set Nat) (s : Llfree Lower) (frame : Nat) (request : Request) (r : Result)
      (row : RowOrHuge request.order) : FrameCall out s (.put frame request) (some r)
        (if r.error = .ok then out \ blockSet frame request.order else out)
  | drain (out : Set Nat) (s : Llfree Lower) : FrameCall out s .drain none out

structure SameState (K : Config) (s t : Llfree Lower) : Prop where
  frames : s.lower.frames = t.lower.frames
  rows : ∀ r < s.lower.rowCount, s.lower.rows r = t.lower.rows r
  children : ∀ c < s.lower.entryCount, s.lower.children c = t.lower.children c
  trees : ∀ i < K.treesLen, s.upper.trees i = t.upper.trees i
  slots : ∀ c i, K.HasSlot c i → s.upper.slots c i = t.upper.slots c i

variable {K : Config} {fits : Fits K} {s s' t : Llfree Lower} {l l' : Lower} {order : Nat}

/-! ## The view of the free frames -/

noncomputable def outside (N : Nat) (l : Lower) : Nat → Int := by
  classical
  exact fun g => if g < N ∧ ¬ IsFree l g then 1 else 0

def inside (f order : Nat) : Nat → Int := fun g => if Within f order g then 1 else 0

theorem outside_took {N f : Nat} (valid : Valid N f order) (took : Took f order l l') :
    outside N l' = outside N l + inside f order := by
  classical
  funext g
  simp only [outside, inside, Pi.add_apply]
  by_cases within : Within f order g
  · have free := took.free g within
    have taken := took.taken g within
    have below : g < N := within.2.trans_le valid.1
    simp [within, free, taken, below]
  · simp [within, took.others g within]

theorem outside_put {N f : Nat} (valid : Valid N f order) (taken : blockSet f order ∩ freeSet l = ∅)
    (after : freeSet l' = freeSet l ∪ blockSet f order) :
    outside N l = outside N l' + inside f order := by
  classical
  funext g
  have free : IsFree l' g ↔ IsFree l g ∨ Within f order g := by
    change g ∈ freeSet l' ↔ _
    rw [after]
    rfl
  simp only [outside, inside, Pi.add_apply, free]
  by_cases within : Within f order g
  · have below : g < N := within.2.trans_le valid.1
    have held : ¬ IsFree l g := by
      intro free
      have both : g ∈ blockSet f order ∩ freeSet l := ⟨within, free⟩
      rw [taken] at both
      exact both
    simp [within, held, below]
  · simp [within]

theorem outside_same {N : Nat} (same : SameFree l l') : outside N l' = outside N l := by
  classical
  funext g
  simp only [outside, same g]

def Shows (K : Config) (l : Lower) (m : Nat → Int) : Prop :=
  Consistent K.frames l ∧ outside K.frames l = m

private theorem free_gets (fits : Fits K) (start order : Nat) (target : Option Nat) (l : Lower)
    (r : Result) (l' : Lower) (m : Nat → Int) (row : RowOrHuge order)
    (valid : ∀ f, target = some f → Valid K.frames f order) (_ : True) (shows : Shows K l m)
    (run : Prog.run LoOp.exec (lowerGet K.frames start order target) l = some (r, l')) :
    (r.error = .ok ∧ Valid K.frames r.frame order ∧ (∀ f, target = some f → r.frame = f) ∧
        Shows K l' (m + inside r.frame order)) ∨
      (r.error ≠ .ok ∧ Shows K l' m) := by
  obtain ⟨cons, rfl⟩ := shows
  have small : order ≤ 9 := by
    simp only [RowOrHuge, atomicOrder, hugeOrder] at row
    omega
  have args : GetArgs K.frames start target := by
    refine ⟨fun none => start_of_run (small.trans (by omega)) (none ▸ run), ?_⟩
    intro f same
    have fits' := (valid f same).1
    have reach := reach_of_fits fits
    have pos : 0 < 2 ^ order := Nat.two_pow_pos order
    omega
  obtain ⟨cons', outcome⟩ := get_sound cons args small run
  rcases outcome with ⟨f, rfl, fits', took, hit, -⟩ | ⟨error, same⟩
  · exact Or.inl ⟨rfl, fits', hit, cons', outside_took fits' took⟩
  · refine Or.inr ⟨?_, cons', outside_same same⟩
    rcases error with rfl | ⟨rfl, -⟩ <;> simp

noncomputable def freeView (fits : Fits K) : FrameView K (Nat → Int) where
  orders := RowOrHuge
  guard _ _ := True
  inv := Shows K
  taken := inside
  gets := free_gets fits

private theorem free_put {f : Nat} (row : RowOrHuge order) (l : Lower) (r : Result) (l' : Lower)
    (F : Nat → Int) (valid : Valid K.frames f order)
    (inv : (freeView fits).inv l (inside f order + F))
    (run : Prog.run LoOp.exec (lowerPut K.frames f order) l = some (r, l')) :
    (r.error = .ok ∧ (freeView fits).inv l' (0 + F)) ∨
      (r.error ≠ .ok ∧ (freeView fits).inv l' (inside f order + F)) := by
  obtain ⟨cons, total⟩ := inv
  have reach := reach_of_fits fits
  have pos : 0 < 2 ^ order := Nat.two_pow_pos order
  have fits' := valid.1
  obtain ⟨r', u, run', cons', spec⟩ := call_refines cons (.put f order) ⟨row, by omega⟩
  have same : some (r, l') = some (r', u) := run.symm.trans run'
  obtain ⟨rfl, rfl⟩ := Prod.mk.inj (Option.some.inj same)
  rcases spec with ⟨ok, -, taken, after⟩ | ⟨error, after⟩
  · refine Or.inl ⟨ok, cons', ?_⟩
    have moved := outside_put valid taken after
    rw [total, add_comm] at moved
    rw [zero_add]
    exact (add_right_cancel moved).symm
  · refine Or.inr ⟨error, cons', ?_⟩
    rw [← total]
    exact outside_same fun g => Set.ext_iff.mp after g

private theorem unguarded (c : Call) (s : Llfree Lower) : Guarded (freeView fits) c s := by
  have same : (freeView fits).Meets = fun _ _ => True := by
    funext o t
    cases o <;> rfl
  rw [Guarded, same]
  exact Prog.along_true _ _

def Follows (K : Config) (out : Set Nat) (s : Llfree Lower) : Prop :=
  Consistent K.frames s.lower ∧ ∀ g, g ∈ out ↔ g < K.frames ∧ ¬ IsFree s.lower g

private theorem mem_of_outside {N g : Nat} : outside N l g = 1 ↔ g < N ∧ ¬ IsFree l g := by
  classical
  simp [outside]

private theorem outside_bit (N : Nat) (l : Lower) (g : Nat) :
    outside N l g = 0 ∨ outside N l g = 1 := by
  classical
  by_cases held : g < N ∧ ¬ IsFree l g
  · exact Or.inr (if_pos held)
  · exact Or.inl (if_neg held)

private theorem outside_union {N f : Nat} (total : outside N l' = inside f order + outside N l)
    (g : Nat) : outside N l' g = 1 ↔ outside N l g = 1 ∨ g ∈ blockSet f order := by
  have sum : outside N l' g = inside f order g + outside N l g := congrFun total g
  have after := outside_bit N l' g
  by_cases within : Within f order g
  · rw [inside, if_pos within] at sum
    exact iff_of_true (by rcases outside_bit N l g with bit | bit <;> omega) (Or.inr within)
  · rw [inside, if_neg within, zero_add] at sum
    rw [sum]
    exact (or_iff_left within).symm

private theorem outside_diff {N f : Nat} (total : outside N l = inside f order + outside N l')
    (g : Nat) : outside N l' g = 1 ↔ outside N l g = 1 ∧ g ∉ blockSet f order := by
  have sum : outside N l g = inside f order g + outside N l' g := congrFun total g
  have before := outside_bit N l g
  by_cases within : Within f order g
  · rw [inside, if_pos within] at sum
    refine iff_of_false (fun one => ?_) fun both => both.2 within
    omega
  · rw [inside, if_neg within, zero_add] at sum
    rw [sum]
    exact (and_iff_left within).symm

private theorem call_follows {out out' : Set Nat} {c : Call} {r : Option Result}
    (fits : Fits K) (call : FrameCall out s c r out') (follows : Follows K out s)
    (run : c.run K s = some (r, s')) : Follows K out' s' := by
  obtain ⟨cons, members⟩ := follows
  have inv : (freeView fits).inv s.lower (outside K.frames s.lower) := ⟨cons, rfl⟩
  cases call with
  | get frame request r row =>
    rcases frames_get row (unguarded _ s) inv run with
      ⟨ok, -, -, cons', total⟩ | ⟨error, cons', total⟩
    · rw [if_pos ok]
      refine ⟨cons', fun g => ?_⟩
      rw [← mem_of_outside, outside_union total, Set.mem_union, members, mem_of_outside]
    · rw [if_neg error]
      refine ⟨cons', fun g => ?_⟩
      rw [members, ← mem_of_outside, ← mem_of_outside, total]
  | put frame request r row =>
    have split : (freeView fits).inv s.lower (inside frame request.order +
        (outside K.frames s.lower - inside frame request.order)) := by
      rw [add_sub_cancel]
      exact inv
    rcases frames_put (fun l r l' F => free_put row l r l' F) (unguarded _ s) split run with
      ⟨ok, cons', total⟩ | ⟨error, cons', total⟩
    · rw [if_pos ok]
      refine ⟨cons', fun g => ?_⟩
      rw [zero_add] at total
      have sum : outside K.frames s.lower =
          inside frame request.order + outside K.frames s'.lower := by
        rw [total, add_sub_cancel]
      rw [← mem_of_outside, outside_diff sum, Set.mem_sdiff, members, mem_of_outside]
    · rw [if_neg error]
      refine ⟨cons', fun g => ?_⟩
      rw [add_sub_cancel] at total
      rw [members, ← mem_of_outside, ← mem_of_outside, total]
  | drain =>
    rw [Follows, drain_lower run]
    exact ⟨cons, members⟩

/-! ## Draining -/

private theorem drain_slot {c i : Nat} {u : Unit}
    (run : Prog.run (UpOp.exec K) (do
      let old ← llLocalDrain c i
      if old.present then treesUnreserve (treeFromRow old.startRow) old.free old.cls
      else return () : UpProg Unit) s = some (u, s')) :
    s'.upper.slots = (s.upper.setSlot c i noReserved).slots := by
  simp only [llLocalDrain, localSwap, treesUnreserve, makeResult, Prog.step_bind, Prog.ret_bind,
    Prog.pure_eq, Prog.run_step, UpOp.exec, TableOp.exec] at run
  split_ifs at run with has
  · simp only [Option.map_some, Option.bind_some] at run
    split_ifs at run
    · simp only [Prog.run_step, UpOp.exec, TableOp.exec] at run
      split_ifs at run with inside
      · simp only [Option.map_map, Option.bind_eq_some_iff, Option.map_eq_some_iff] at run
        obtain ⟨x, ⟨new, -, rfl⟩, done⟩ := run
        obtain ⟨-, rfl⟩ := Prod.mk.inj (Option.some.inj done)
        cases new <;> rfl
      · cases run
    · obtain ⟨-, rfl⟩ := Prod.mk.inj (Option.some.inj run)
      rfl
  · cases run

private theorem each_empties {f : Nat × Nat → UpProg Unit}
    (empties : ∀ p t t' u, Prog.run (UpOp.exec K) (f p) t = some (u, t') →
      t'.upper.slots = (t.upper.setSlot p.1 p.2 noReserved).slots)
    (xs : List (Nat × Nat)) {u : Unit} {c i : Nat}
    (run : Prog.run (UpOp.exec K) (Prog.each xs f) s = some (u, s'))
    (start : (c, i) ∈ xs ∨ s.upper.slots c i = noReserved) : s'.upper.slots c i = noReserved := by
  induction xs generalizing s with
  | nil =>
    obtain ⟨-, rfl⟩ := Prod.mk.inj (Option.some.inj run)
    exact start.resolve_left (by simp)
  | cons p rest ih =>
    obtain ⟨v, t, first, tail⟩ := Prog.run_bind_eq_some.mp run
    have slots := empties p s t v first
    apply ih tail
    by_cases here : c = p.1 ∧ i = p.2
    · obtain ⟨rfl, rfl⟩ := here
      rw [slots]
      exact Or.inr (setSlot_self ..)
    · rw [slots, setSlot_other _ _ here]
      apply start.imp_left
      intro member
      exact (List.mem_cons.mp member).resolve_left fun same => here (Prod.mk.inj same)

theorem drain_slots {a : Option Result} (run : Call.drain.run K s = some (a, s')) (c i : Nat)
    (has : K.HasSlot c i) : s'.upper.slots c i = noReserved := by
  obtain ⟨u, t, done, last⟩ := Prog.run_bind_eq_some.mp run
  obtain ⟨-, rfl⟩ := Prod.mk.inj (Option.some.inj last)
  exact each_empties (fun _ _ _ _ first => drain_slot first) (allSlots K) done
    (Or.inl (mem_allSlots.mpr has))

/-! ## The pristine state -/

private theorem words_of_free (cons : Consistent K.frames l) (whole : childSize ∣ K.frames)
    (free : ∀ g < K.frames, IsFree l g) :
    (∀ c < l.entryCount, c < l.childCount → l.children c = ⟨512, false⟩) ∧
      ∀ r < l.rowCount, l.rows r = 0#64 := by
  have real : l.childCount * 512 = K.frames := by
    obtain ⟨k, total⟩ := whole
    rw [Lower.childCount, cons.frames]
    simp only [divCeil, childSize] at total ⊢
    omega
  constructor
  · intro c inside child
    have counter := child_free cons inside
    have all : among (IsFree l) (c * 512) 512 = 512 := by
      rw [among, Finset.filter_true_of_mem, Nat.card_Ico]
      · omega
      · intro g member
        have range := Finset.mem_Ico.mp member
        exact free g (by omega)
    have kind : (l.children c).huge = false := by
      have first := (free (c * 512) (by omega)).2.1
      rwa [Nat.mul_div_cancel c (by omega)] at first
    exact Child.ext (counter.symm.trans all) kind
  · intro r inside
    refine BitVec.eq_of_getLsbD_eq fun i less => ?_
    have bound : r * 64 + i < K.frames := by
      rw [Lower.rowCount, fieldN] at inside
      omega
    have clear := (free _ bound).2.2
    rw [bitSet] at clear
    have row : (r * 64 + i) / 64 = r := by omega
    have bit : (r * 64 + i) % 64 = i := by omega
    rw [row, bit] at clear
    rw [clear]
    simp

/-- The promise of the classings of the library: trees counted as entirely free have the default
class. -/
def pristinePromise (standard : Standard K) : Promise K where
  configured := False
  segregated := False
  pristine := True
  default_known := unknown
  by_class := unordered
  never_invalid _ := ByClass.never_invalid standard.byClass

theorem tree_of_free {P : Promise K} (pristine : P.pristine) (sound : Sound P (words fits) s 0)
    {i : Nat} (inside : i < K.treesLen) (idle : (s.upper.trees i).reserved = false)
    (free : ∀ g, g / treeSize = i → IsFree s.lower g) :
    s.upper.trees i = ⟨false, K.defaultClass, treeSize⟩ := by
  have all : treeFree (freeSet s.lower) i = treeSize := treeFree_of_full free
  have counter : (s.upper.trees i).free = treeSize := by
    rw [idle_counter sound inside idle, groupFree_eq sound.good inside]
    exact all
  exact Tree.ext idle (sound.books.full pristine i inside counter) counter

theorem idle_of_empty {P : Promise K} (sound : Sound P (words fits) s 0)
    (empty : ∀ c i, K.HasSlot c i → s.upper.slots c i = noReserved) {i : Nat}
    (inside : i < K.treesLen) : (s.upper.trees i).reserved = false := by
  have owned := sound.books.owned i inside
  rw [add_zero, slotTickets_empty empty, owners_zero] at owned
  cases reserved : (s.upper.trees i).reserved with
  | true => simp [reserved] at owned
  | false => rfl

/-- Two allocators with all frames free, empty slots and no call in progress are the same. -/
theorem same_of_free {P : Promise K} (pristine : P.pristine) (whole : treeSize ∣ K.frames)
    (sound : Sound P (words fits) s 0) (sound' : Sound P (words fits) t 0)
    (empty : ∀ c i, K.HasSlot c i → s.upper.slots c i = noReserved)
    (empty' : ∀ c i, K.HasSlot c i → t.upper.slots c i = noReserved)
    (free : ∀ g < K.frames, IsFree s.lower g) (free' : ∀ g < K.frames, IsFree t.lower g) :
    SameState K s t := by
  have cons : Consistent K.frames s.lower := sound.good
  have cons' : Consistent K.frames t.lower := sound'.good
  have children : childSize ∣ K.frames := Dvd.dvd.trans ⟨8, rfl⟩ whole
  have words := words_of_free cons children free
  have words' := words_of_free cons' children free'
  have frames : s.lower.frames = t.lower.frames := by rw [cons.frames, cons'.frames]
  refine ⟨frames, fun r inside => ?_, fun c inside => ?_, fun i inside => ?_, fun c i has => ?_⟩
  · rw [words.2 r inside,
      words'.2 r (by simpa only [Lower.rowCount, Lower.childCount, frames] using inside)]
  · have inside' : c < t.lower.entryCount := by
      simpa only [Lower.entryCount, Lower.childCount, frames] using inside
    have count : s.lower.childCount = t.lower.childCount := by
      rw [Lower.childCount, Lower.childCount, frames]
    by_cases child : c < s.lower.childCount
    · rw [words.1 c inside child, words'.1 c inside' (count ▸ child)]
    · rw [cons.padding inside (by omega), cons'.padding inside' (by omega)]
  · have below : ∀ g, g / treeSize = i → g < K.frames := by
      intro g here
      obtain ⟨k, total⟩ := whole
      simp only [Config.treesLen, divCeil, treeSize] at inside total here
      omega
    rw [tree_of_free pristine sound inside (idle_of_empty sound empty inside)
        fun g here => free g (below g here),
      tree_of_free pristine sound' inside (idle_of_empty sound' empty' inside)
        fun g here => free' g (below g here)]
  · rw [empty c i has, empty' c i has]

/-! ## Runs -/

private theorem FrameCall.plain {out out' : Set Nat} {c : Call} {r : Option Result}
    (call : FrameCall out s c r out') : PlainCall c s := by
  cases call with
  | get frame request r row => exact ⟨row, by simp⟩
  | put frame request r row => exact ⟨row, by simp⟩
  | drain => exact ⟨trivial, by simp⟩

/-- After any such calls the books agree with the slots alone, and an entirely free tree that is not
reserved has the default class. -/
theorem pristine_reached (standard : Standard K) (fits : Fits K) {out : Set Nat}
    (init : Initialised K .free s) (run : History K FrameCall ∅ s out s') :
    Sound (pristinePromise standard) (words fits) s' 0 := by
  obtain ⟨rebuilt, start⟩ := sound_init (pristinePromise standard) fits (Or.inl rfl) init
  exact run.keeps (I := fun _ u => Sound (pristinePromise standard) (words fits) u 0) start
    fun _ _ _ _ _ _ sound call done => plain_sound False.elim (treesLen_pos rebuilt) not_false sound
      call.plain done

/-- When every frame that was handed out is freed again, a drain leaves the allocator as it was
after initialisation. -/
theorem freed_pristine (standard : Standard K) (fits : Fits K) (whole : treeSize ∣ K.frames)
    (init : Initialised K .free s) (run : History K FrameCall ∅ s ∅ s') :
    ∃ t, Call.drain.run K s' = some (none, t) ∧ SameState K s t := by
  obtain ⟨rebuilt, start⟩ := sound_init (pristinePromise standard) fits (Or.inl rfl) init
  obtain ⟨t, drained, sound'⟩ := run_drain (pristine_reached standard fits init run)
  obtain ⟨buffers, init⟩ := init
  obtain ⟨-, lower⟩ := init_rebuilt init (by simp)
  have all : freeSet s.lower = {g | g < K.frames} := by
    rw [← (Prod.mk.inj lower).2]
    exact init_free buffers.lower K.frames
  have follows : Follows K ∅ s := by
    refine ⟨start.good, fun g => iff_of_false (Set.notMem_empty g) ?_⟩
    rintro ⟨less, held⟩
    exact held (all.ge less)
  have last := run.keeps (I := fun out u => Follows K out u) follows
    fun _ _ _ _ _ _ follows call done => call_follows fits call follows done
  have back : ∀ g < K.frames, IsFree t.lower g := by
    intro g less
    rw [drain_lower drained]
    by_contra held
    exact (last.2 g).mpr ⟨less, held⟩
  exact ⟨t, drained, same_of_free trivial whole start sound' rebuilt.slots (drain_slots drained)
    (fun g less => all.ge less) back⟩

/-- Two frames that were allocated together through a slot are freed one by one. -/
theorem freed_pristine_pieces :
    ∃ s' t, History ⟨4096, llfreeClassingSimple 1⟩ FrameCall ∅
        (initZeroed ⟨4096, llfreeClassingSimple 1⟩ .free) ∅ s' ∧
      Call.drain.run ⟨4096, llfreeClassingSimple 1⟩ s' = some (none, t) ∧
      SameState ⟨4096, llfreeClassingSimple 1⟩
        (initZeroed ⟨4096, llfreeClassingSimple 1⟩ .free) t := by
  have freed : ((∅ ∪ blockSet 0 1) \ blockSet 0 0) \ blockSet 1 0 = ∅ := by
    refine Set.eq_empty_of_forall_notMem fun g left => ?_
    obtain ⟨⟨block, first⟩, second⟩ := left
    simp only [blockSet, Within, Set.mem_union, Set.mem_empty_iff_false, false_or,
      Set.mem_ofPred_eq] at block first second
    omega
  have run : ∃ s', History ⟨4096, llfreeClassingSimple 1⟩ FrameCall ∅
      (initZeroed ⟨4096, llfreeClassingSimple 1⟩ .free)
      (((∅ ∪ blockSet 0 1) \ blockSet 0 0) \ blockSet 1 0) s' :=
    ⟨_, .call (.put 1 ⟨0, 1, none⟩)
      (.call (.put 0 ⟨0, 0, some 0⟩)
        (.call (.get none ⟨1, 0, some 0⟩) (.start _ _)
          (Call.run_after (r := some (llfreeOk 0 0)) (by decide +kernel))
          (.get ∅ _ none ⟨1, 0, some 0⟩ (llfreeOk 0 0) (Or.inl (by decide))))
        (Call.run_after (r := some (llfreeOk 0 0)) (by decide +kernel))
        (.put (∅ ∪ blockSet 0 1) _ 0 ⟨0, 0, some 0⟩ (llfreeOk 0 0) (Or.inl (by decide))))
      (Call.run_after (r := some (llfreeOk 0 0)) (by decide +kernel))
      (.put ((∅ ∪ blockSet 0 1) \ blockSet 0 0) _ 1 ⟨0, 1, none⟩ (llfreeOk 0 0)
        (Or.inl (by decide)))⟩
  rw [freed] at run
  obtain ⟨s', run⟩ := run
  obtain ⟨t, drained, same⟩ := freed_pristine ⟨1, le_refl 1, Or.inl rfl⟩ (by decide) ⟨1, rfl⟩
    (initZeroed_initialised (by decide)) run
  exact ⟨s', t, run, drained, same⟩

end LLFree.Upper.Pristine

/- module: LLFree/Upper/Sequential
   digest: Complete calls one after the other, on the words of the lower allocator. -/

import LLFree.Code.Setup
import LLFree.Upper.Calls

set_option autoImplicit false
set_option relaxedAutoImplicit false

namespace LLFree.Upper.Sequential

open LLFree.Atomic.Program LLFree.Atomic.Escrow LLFree.Code.Types LLFree.Code.Entries
open LLFree.Code.Lower LLFree.Code.Trees LLFree.Code.Local LLFree.Code.Shared LLFree.Code.Llfree
open LLFree.Code.Setup LLFree.Lower.Quiet LLFree.Lower.FrameSet LLFree.Lower.FreeCount
open LLFree.Upper.Ledger LLFree.Upper.Moves LLFree.Upper.Slots LLFree.Upper.Steps
open LLFree.Upper.Calls

/-! ## Calls and runs -/

inductive Call where
  | get (frame : Option Nat) (request : Request)
  | put (frame : Nat) (request : Request)
  | drain
  | changeTree (turns : Nat) (matcher : TreeMatch) (change : TreeChange)

def Call.prog (K : Config) : Call → UpProg (Option Result)
  | .get frame request => llfreeGet K frame request >>= fun r => pure (some r)
  | .put frame request => llfreePut K frame request >>= fun r => pure (some r)
  | .drain => llfreeDrain K >>= fun _ => pure none
  | .changeTree turns matcher change =>
    llfreeChangeTree K turns matcher change >>= fun r => pure (some r)

def Call.run (K : Config) (c : Call) (s : Llfree Lower) : Option (Option Result × Llfree Lower) :=
  Prog.run (UpOp.exec K) (c.prog K) s

/-- Finite sequences of complete calls. `H` is what the callers remember: `step h s c r h'` says
that `c` may be called in state `s`, and what is remembered after result `r`. -/
inductive History {H : Type} (K : Config)
    (step : H → Llfree Lower → Call → Option Result → H → Prop) :
    H → Llfree Lower → H → Llfree Lower → Prop
  | start (h : H) (s : Llfree Lower) : History K step h s h s
  | call {h h' h'' : H} {s s' s'' : Llfree Lower} {r : Option Result} (c : Call)
      (before : History K step h s h' s') (run : c.run K s' = some (r, s''))
      (next : step h' s' c r h'') : History K step h s h'' s''

structure Lent where
  frame : Nat
  order : Nat
  cls : Nat
  deriving DecidableEq

/-- Clients allocate anything and free only blocks they hold, with the order of the allocation.
A successful call changes what they hold. -/
inductive ClientCall (allowed : Call → Llfree Lower → Prop) :
    List Lent → Llfree Lower → Call → Option Result → List Lent → Prop
  | get (held : List Lent) (s : Llfree Lower) (frame : Option Nat) (request : Request) (r : Result)
      (ok : allowed (.get frame request) s) :
      ClientCall allowed held s (.get frame request) (some r)
        (if r.error = .ok then ⟨r.frame, request.order, r.cls⟩ :: held else held)
  | put (held : List Lent) (s : Llfree Lower) (b : Lent) (request : Request) (r : Result)
      (ok : allowed (.put b.frame request) s) (own : b ∈ held) (same : request.order = b.order) :
      ClientCall allowed held s (.put b.frame request) (some r)
        (if r.error = .ok then held.erase b else held)
  | drain (held : List Lent) (s : Llfree Lower) : ClientCall allowed held s .drain none held

def Call.after (K : Config) (c : Call) (s : Llfree Lower) : Llfree Lower :=
  ((c.run K s).getD (none, s)).2

theorem Call.run_after {K : Config} {c : Call} {s : Llfree Lower} {r : Option Result}
    (done : (c.run K s).map Prod.fst = some r) : c.run K s = some (r, c.after K s) := by
  obtain ⟨⟨r', s'⟩, run, rfl⟩ := Option.map_eq_some_iff.mp done
  rw [Call.after, run]
  rfl

def afterAll (K : Config) (calls : List Call) (s : Llfree Lower) : Llfree Lower :=
  calls.foldl (fun t c => c.after K t) s

def completes (K : Config) : List Call → Llfree Lower → Bool
  | [], _ => true
  | c :: calls, s => (c.run K s).isSome && completes K calls (c.after K s)

theorem History.calls {K : Config} {step : Unit → Llfree Lower → Call → Option Result → Unit → Prop}
    {s s' : Llfree Lower} (before : History K step () s () s') (calls : List Call)
    (done : completes K calls s' = true) (next : ∀ c ∈ calls, ∀ t r, step () t c r ()) :
    History K step () s () (afterAll K calls s') := by
  induction calls generalizing s' with
  | nil => exact before
  | cons c calls ih =>
    obtain ⟨here, rest⟩ := Bool.and_eq_true_iff.mp done
    obtain ⟨⟨r, t⟩, run⟩ := Option.isSome_iff_exists.mp here
    have same : c.after K s' = t := by
      rw [Call.after, run]
      rfl
    apply ih _ rest fun d member => next d (List.mem_cons_of_mem c member)
    rw [same]
    exact .call c before run (next c List.mem_cons_self s' r)

theorem History.keeps {H : Type} {K : Config}
    {step : H → Llfree Lower → Call → Option Result → H → Prop} {I : H → Llfree Lower → Prop}
    {h h' : H} {s s' : Llfree Lower}
    (run : History K step h s h' s') (start : I h s)
    (call : ∀ k c r k' t t', I k t → step k t c r k' → c.run K t = some (r, t') → I k' t') :
    I h' s' := by
  induction run with
  | start => exact start
  | call c before run next ih => exact call _ c _ _ _ _ (ih start) next run

/-! ## The lower allocator on its words -/

/-- The orders that a row or a whole child serves. -/
def RowOrHuge (order : Nat) : Prop := order ≤ atomicOrder ∨ order = hugeOrder

instance (order : Nat) : Decidable (RowOrHuge order) :=
  inferInstanceAs (Decidable (order ≤ atomicOrder ∨ order = hugeOrder))

theorem rowOrHuge_small (order : Nat) (row : RowOrHuge order) : order ≤ 12 := by
  simp only [RowOrHuge, atomicOrder, hugeOrder] at row
  omega

/-- Calls of these orders. -/
def RowCall : Call → Llfree Lower → Prop
  | .get _ request, _ => RowOrHuge request.order
  | .put _ request, _ => RowOrHuge request.order
  | _, _ => True

private theorem allowed_of_asked {N : Nat} (reach : N ≤ 2 ^ 63) {c : LowerCall}
    (asked : Asked N RowOrHuge c) : CallAllowed N c := by
  cases c with
  | get start order target =>
    refine ⟨asked.1, asked.2.1, fun f same => ?_⟩
    have fits := (asked.2.2 f same).1
    have pos : 0 < 2 ^ order := Nat.two_pow_pos order
    omega
  | put frame order =>
    have fits := asked.2.1
    have pos : 0 < 2 ^ order := Nat.two_pow_pos order
    exact ⟨asked.1, by omega⟩

def wordsModel (N : Nat) (reach : N ≤ 2 ^ 63) : LowerModel Lower N where
  next c l r l' := Prog.run LoOp.exec (c.prog N) l = some (r, l')
  fails c l := Prog.run LoOp.exec (c.prog N) l = none
  stats frame order l := lowerStatsAt l frame order
  free := freeSet
  good := Consistent N
  orders := RowOrHuge
  small := rowOrHuge_small
  runs c l good asked stuck := by
    obtain ⟨r, l', run, -⟩ := call_refines good c (allowed_of_asked reach asked)
    rw [stuck] at run
    cases run
  moves c l r l' good asked run := by
    obtain ⟨r', l'', run', good', spec⟩ := call_refines good c (allowed_of_asked reach asked)
    rw [run] at run'
    obtain ⟨rfl, rfl⟩ := Prod.mk.inj (Option.some.inj run')
    exact ⟨good', spec⟩

variable {K : Config}

theorem reach_of_fits (fits : Fits K) : K.frames ≤ 2 ^ 63 := by
  unfold Fits at fits
  omega

abbrev words (fits : Fits K) : LowerModel Lower K.frames := wordsModel K.frames (reach_of_fits fits)

variable {P : Promise K} {fits : Fits K} {s : Llfree Lower} {m : Tickets} {α : Type}

theorem words_next (reach : K.frames ≤ 2 ^ 63) {o : UpOp} {r : o.Res} {s s' : Llfree Lower}
    (done : UpOp.exec K o s = some (r, s')) :
    (upperSys K (wordsModel K.frames reach)).next o s r s' := by
  cases o with
  | lower c =>
    obtain ⟨x, run, same⟩ := Option.map_eq_some_iff.mp done
    obtain ⟨rfl, rfl⟩ := Prod.mk.inj same
    exact ⟨x.2, run, rfl⟩
  | lowerStatsAt frame order =>
    obtain ⟨rfl, rfl⟩ := Prod.mk.inj (Option.some.inj done)
    exact ⟨rfl, rfl⟩
  | table o =>
    obtain ⟨x, run, same⟩ := Option.map_eq_some_iff.mp done
    obtain ⟨rfl, rfl⟩ := Prod.mk.inj same
    exact ⟨x.2, run, rfl⟩

theorem words_runs (P : Promise K) (fits : Fits K) :
    (upperAccounting P (words fits)).sys.Runs (fun _ _ => True) (UpOp.exec K) := by
  refine ⟨fun o s r s' _ done => words_next _ done, fun o s stuck => ?_⟩
  cases o with
  | lower c => exact Option.map_eq_none_iff.mp stuck
  | lowerStatsAt frame order => cases stuck
  | table o =>
    have none : o.exec K s.upper = none := Option.map_eq_none_iff.mp stuck
    cases o with
    | treesUnreserve idx free cls => exact Or.inl none
    | _ => exact none

theorem run_safe {p : UpProg α} {x : Tickets} {Q : α → Tickets → Prop}
    (safe : (upperAccounting P (words fits)).Ok p x Q) (sound : Sound P (words fits) s (x + m)) :
    ∃ r s' y, Prog.run (UpOp.exec K) p s = some (r, s') ∧ Q r y ∧
      Sound P (words fits) s' (y + m) :=
  Accounting.run_total (fun stuck => stuck) (words_runs P fits) safe sound

/-! ## Initialisation -/

/-- The allocator after a successful `llfree_init`. -/
def Initialised (K : Config) (mode : InitMode) (s : Llfree Lower) : Prop :=
  ∃ buffers, llfreeInit K mode buffers = some (llfreeOk 0 0, s)

def initZeroed (K : Config) (mode : InitMode) : Llfree Lower :=
  let buffers := ⟨zeroed, fun _ => ⟨false, 0, 0⟩, fun _ _ => noReserved⟩
  ((llfreeInit K mode buffers).getD (llfreeErr .init, buffers)).2

abbrev oneTree : Config := ⟨4096, llfreeClassingSimple 1⟩
abbrev twoWhole : Config := ⟨8192, llfreeClassingSimple 1⟩

theorem initZeroed_initialised {mode : InitMode} (done : (llfreeInit K mode
      ⟨zeroed, fun _ => ⟨false, 0, 0⟩, fun _ _ => noReserved⟩).map Prod.fst = some (llfreeOk 0 0)) :
    Initialised K mode (initZeroed K mode) := by
  obtain ⟨⟨r, s⟩, init, same⟩ := Option.map_eq_some_iff.mp done
  obtain rfl : r = llfreeOk 0 0 := same
  refine ⟨_, init.trans ?_⟩
  rw [initZeroed, init]
  rfl

/-- What `llfree_init` leaves behind, but for the mode that trusts the buffers. -/
structure Rebuilt (K : Config) (s : Llfree Lower) : Prop where
  frames : minPages ≤ K.frames ∧ K.frames ≤ maxPages
  classes : 1 ≤ K.numClasses ∧ K.numClasses ≤ maxClasses
  trees : ∀ t < K.treesLen, s.upper.trees t = ⟨false, K.defaultClass, groupFree s.lower (t * 8)⟩
  slots : ∀ c i, K.HasSlot c i → s.upper.slots c i = noReserved

theorem init_rebuilt {mode : InitMode} {buffers : Llfree Lower}
    (init : llfreeInit K mode buffers = some (llfreeOk 0 0, s)) (fresh : mode ≠ .none) :
    Rebuilt K s ∧ lowerInit buffers.lower K.frames mode = (llfreeErr .ok, s.lower) := by
  unfold llfreeInit at init
  split_ifs at init with classes frames
  · cases init
  · cases lower : lowerInit buffers.lower K.frames mode with
    | mk res l =>
      simp only [lower] at init
      have done : res = llfreeErr .ok := by
        cases mode with
        | unknown =>
          obtain ⟨rfl, -⟩ := Prod.mk.inj lower
          cases init
        | _ =>
          obtain ⟨rfl, -⟩ := Prod.mk.inj lower
          rfl
      subst done
      simp only [llfreeErr_error, ne_eq, not_true, if_false, Option.map_eq_some_iff, Prod.mk.injEq,
        true_and] at init
      obtain ⟨trees, built, rfl⟩ := init
      simp only [treesInit, if_neg fresh] at built
      split_ifs at built with all
      cases built
      refine ⟨⟨by omega, classes, fun t inside => ?_, fun c i has => if_pos has⟩, rfl⟩
      have entry := all t inside
      simp only [inside, if_true]
      unfold treeNew at entry ⊢
      split_ifs at entry ⊢ with bounds
      · rfl
      · cases entry

theorem treesLen_pos (rebuilt : Rebuilt K s) : 0 < K.treesLen := by
  have low := rebuilt.frames.1
  simp only [Config.treesLen, divCeil, treeSize, minPages] at low ⊢
  omega

theorem init_default {mode : InitMode} {buffers : Llfree Lower}
    (init : llfreeInit K mode buffers = some (llfreeOk 0 0, s)) (fresh : mode ≠ .none) :
    K.defaultClass < maxClasses := by
  obtain ⟨rebuilt, lower⟩ := init_rebuilt init fresh
  have sizes := rebuilt.frames
  unfold llfreeInit at init
  rw [if_pos rebuilt.classes, if_neg (by omega), lower] at init
  simp only [llfreeErr_error, ne_eq, not_true, if_false, Option.map_eq_some_iff] at init
  obtain ⟨trees, built, -⟩ := init
  simp only [treesInit, if_neg fresh] at built
  split_ifs at built with all
  have entry := all 0 (treesLen_pos rebuilt)
  unfold treeNew at entry
  split_ifs at entry with bounds
  · exact bounds.2
  · cases entry

theorem slotTickets_empty {u : Upper} (empty : ∀ c i, K.HasSlot c i → u.slots c i = noReserved) :
    slotTickets K u = 0 := by
  refine Finset.sum_eq_zero fun p member => ?_
  rw [empty _ _ (mem_slotIds.mp member), slotTicket_none]

theorem sound_of_rebuilt (P : Promise K) (fits : Fits K) (rebuilt : Rebuilt K s)
    (cons : Consistent K.frames s.lower) : Sound P (words fits) s 0 := by
  refine ⟨cons, fun c i has => ?_, ?_⟩
  · rw [rebuilt.slots c i has]
    exact slotOk_none
  · rw [slotTickets_empty rebuilt.slots, add_zero]
    have entry := rebuilt.trees
    refine ⟨by simp, fun t inside => ?_, fun t inside => ?_, fun _ t inside => ?_, by simp,
      fun on => ⟨fun t inside => ?_, by simp⟩, fun _ t inside _ => ?_⟩
    · rw [entry t inside, counted_zero, Nat.add_zero]
      exact groupFree_eq cons inside
    · rw [entry t inside]
      rfl
    · exact treeFree_le _ t
    · rw [entry t inside]
      exact P.default_known on
    · rw [entry t inside]

/-- The allocator after `llfree_init` with all frames free or all allocated. -/
def FreshMode (mode : InitMode) : Prop := mode = .free ∨ mode = .alloc

theorem FreshMode.ne_none {mode : InitMode} (fresh : FreshMode mode) : mode ≠ .none := by
  rintro rfl
  rcases fresh with bad | bad <;> cases bad

theorem sound_init {mode : InitMode} (P : Promise K) (fits : Fits K) (fresh : FreshMode mode)
    (init : Initialised K mode s) : Rebuilt K s ∧ Sound P (words fits) s 0 := by
  obtain ⟨buffers, init⟩ := init
  obtain ⟨rebuilt, lower⟩ := init_rebuilt init fresh.ne_none
  exact ⟨rebuilt, sound_of_rebuilt P fits rebuilt
    (fresh_consistent ⟨buffers.lower, mode, fresh, lower⟩)⟩

/-! ## Calls -/

/-- The class ids are `0 .. num_classes - 1` and the default class is one of them. -/
structure Numbered (K : Config) : Prop where
  ids : (K.classing.classes.map Prod.fst).Perm (List.range K.numClasses)
  default : K.defaultClass < K.numClasses

theorem Numbered.known (numbered : Numbered K) {c : Nat} (locals : K.locals c ≠ none) :
    c < K.numClasses := by
  have found : ∃ len, K.classing.classes.reverse.lookup c = some len := by
    simp only [Config.locals, classLocals] at locals
    split_ifs at locals
    · exact absurd rfl locals
    · exact Option.ne_none_iff_exists'.mp locals
  obtain ⟨len, found⟩ := found
  obtain ⟨pre, post, split, -⟩ := List.lookup_eq_some_iff.mp found
  have member : c ∈ K.classing.classes.map Prod.fst := by
    refine List.mem_map.mpr ⟨(c, len), ?_, rfl⟩
    rw [← List.mem_reverse, split]
    simp
  exact List.mem_range.mp ((numbered.ids.mem_iff).mp member)

/-- The two classings of the library, for at least one core. -/
def Standard (K : Config) : Prop :=
  ∃ n, 1 ≤ n ∧ (K.classing = llfreeClassingSimple n ∨ K.classing = llfreeClassingMovable n)

theorem Standard.byClass (standard : Standard K) : ByClass K.policy := by
  obtain ⟨n, -, same | same⟩ := standard
  · intro requested target free
    simp only [Config.policy, same, llfreeClassingSimple, llfreeSimplePolicy]
    split_ifs <;> rfl
  · intro requested target free
    simp only [Config.policy, same, llfreeClassingMovable, llfreeMovablePolicy]
    split_ifs <;> rfl

theorem Standard.numbered (standard : Standard K) : Numbered K := by
  obtain ⟨n, -, same | same⟩ := standard
  · refine ⟨?_, ?_⟩ <;> rw [Config.numClasses, same]
    · rfl
    · rw [Config.defaultClass, same]
      exact Nat.lt_succ_self 1
  · refine ⟨?_, ?_⟩ <;> rw [Config.numClasses, same]
    · rfl
    · rw [Config.defaultClass, same]
      exact Nat.lt_succ_self 2

theorem ByClass.never_invalid (order : ByClass K.policy) (requested target free : Nat) :
    (K.policy requested target free).type ≠ .invalid := by
  rw [order]
  split_ifs <;> simp

def Supported (P : Promise K) : Prop := P.configured → Numbered K

theorem run_get (frame : Option Nat) {request : Request} (support : Supported P)
    (some : 0 < K.treesLen) (sound : Sound P (words fits) s m) (row : RowOrHuge request.order) :
    ∃ r s' y, (Call.get frame request).run K s = Option.some (Option.some r, s') ∧
      Got P request.cls request.order frame r y ∧ Sound P (words fits) s' (y + m) := by
  rw [← zero_add m] at sound
  obtain ⟨r, s', y, run, got, sound'⟩ := run_safe
    (safe_llfreeGet fits some (fun on c => (support on).known) row) sound
  exact ⟨r, s', y, by rw [Call.run, Call.prog, Prog.run_bind_some run]; rfl, got, sound'⟩

theorem run_put {frame c : Nat} {request : Request} {x : Tickets} (support : Supported P)
    (sound : Sound P (words fits) s (x + m)) (row : RowOrHuge request.order)
    (own : x = live (frame / 4096) (2 ^ request.order) c ∨ ¬ P.segregated ∧ x = 0) :
    ∃ r s' y, (Call.put frame request).run K s = some (some r, s') ∧
      (r.error = .ok ∧ y = 0 ∨ r.error ≠ .ok ∧ y = x) ∧ Sound P (words fits) s' (y + m) := by
  obtain ⟨r, s', y, run, put, sound'⟩ := run_safe
    (safe_llfreePut (fun on c => (support on).known) row own) sound
  exact ⟨r, s', y, by rw [Call.run, Call.prog, Prog.run_bind_some run]; rfl, put, sound'⟩

theorem run_drain (sound : Sound P (words fits) s m) :
    ∃ s', Call.drain.run K s = some (none, s') ∧ Sound P (words fits) s' m := by
  rw [← zero_add m] at sound
  obtain ⟨r, s', y, run, rfl, sound'⟩ := run_safe safe_llfreeDrain sound
  rw [zero_add] at sound'
  exact ⟨s', by rw [Call.run, Call.prog, Prog.run_bind_some run]; rfl, sound'⟩

theorem forget_live {x : Tickets} {k n c : Nat} (sound : Sound P (words fits) s (x + m))
    (out : x = live k n c ∨ x = 0) : Sound P (words fits) s m := by
  rcases out with rfl | rfl
  · refine ⟨sound.good, sound.slots, drop_live (t := k) (n := n) (c := c) ?_⟩
    have books := sound.books
    rwa [add_left_comm] at books
  · rwa [zero_add] at sound

theorem get_forgets (frame : Option Nat) {request : Request} (support : Supported P)
    (some : 0 < K.treesLen) (sound : Sound P (words fits) s m) (row : RowOrHuge request.order) :
    ∃ r s', (Call.get frame request).run K s = Option.some (Option.some r, s') ∧
      Sound P (words fits) s' m := by
  obtain ⟨r, s', y, run, got, sound'⟩ := run_get frame support some sound row
  refine ⟨r, s', run, forget_live (k := r.frame / 4096) (n := 2 ^ request.order)
    (c := r.cls) sound' ?_⟩
  exact got.imp (fun ok => ok.2.1) fun err => err.2

theorem put_forgets (frame : Nat) {request : Request} (support : Supported P)
    (mixed : ¬ P.segregated) (sound : Sound P (words fits) s m) (row : RowOrHuge request.order) :
    ∃ r s', (Call.put frame request).run K s = some (some r, s') ∧ Sound P (words fits) s' m := by
  rw [← zero_add m] at sound
  obtain ⟨r, s', y, run, put, sound'⟩ := run_put (c := 0) support sound row (Or.inr ⟨mixed, rfl⟩)
  refine ⟨r, s', run, forget_live (k := 0) (n := 0) (c := 0) sound' (Or.inr ?_)⟩
  exact put.elim (fun ok => ok.2) fun err => err.2

def PlainCall (c : Call) (s : Llfree Lower) : Prop :=
  RowCall c s ∧ ∀ turns matcher change, c ≠ .changeTree turns matcher change

theorem plain_total {c : Call} (support : Supported P) (some : 0 < K.treesLen)
    (mixed : ¬ P.segregated) (sound : Sound P (words fits) s m) (plain : PlainCall c s) :
    ∃ r s', c.run K s = Option.some (r, s') ∧ Sound P (words fits) s' m := by
  obtain ⟨row, other⟩ := plain
  cases c with
  | get frame request =>
    obtain ⟨r, s', run, sound'⟩ := get_forgets frame support some sound row
    exact ⟨_, s', run, sound'⟩
  | put frame request =>
    obtain ⟨r, s', run, sound'⟩ := put_forgets frame support mixed sound row
    exact ⟨_, s', run, sound'⟩
  | drain =>
    obtain ⟨s', run, sound'⟩ := run_drain sound
    exact ⟨_, s', run, sound'⟩
  | changeTree turns matcher change => exact absurd rfl (other turns matcher change)

theorem plain_sound {c : Call} {r : Option Result} {s' : Llfree Lower} (support : Supported P)
    (some : 0 < K.treesLen) (mixed : ¬ P.segregated) (sound : Sound P (words fits) s m)
    (plain : PlainCall c s) (run : c.run K s = Option.some (r, s')) :
    Sound P (words fits) s' m := by
  obtain ⟨a, t, done, sound'⟩ := plain_total support some mixed sound plain
  rw [run] at done
  obtain ⟨-, rfl⟩ := Prod.mk.inj (Option.some.inj done)
  exact sound'

/-! ## Class changes -/

structure Reclass (P : Promise K) (change : TreeChange) : Prop where
  mixed : ¬ P.segregated
  used : ¬ P.pristine
  operation : change.operation = .none
  known : P.configured → change.cls ≠ classNone → change.cls < K.numClasses

private theorem run_changeAt {turns idx : Nat} {matcher : TreeMatch} {change : TreeChange}
    (reclass : Reclass P change) (inside : idx < K.treesLen) (sound : Sound P (words fits) s m) :
    ∃ r s', Prog.run (UpOp.exec K) (treesChangeAt (turns + 1) matcher change idx) s = some (r, s') ∧
      Sound P (words fits) s' m := by
  simp only [treesChangeAt, treesLoad, changeLoop, treesCas, Prog.step_bind,
    Prog.ret_bind, Prog.pure_eq, Prog.run_step, UpOp.exec, TableOp.exec, inside, if_true,
    Option.map_some, Option.bind_some, reclass.operation]
  cases step : treeChange (s.upper.trees idx) matcher.cls matcher.free change.cls .none 0 with
  | none => exact ⟨_, s, rfl, sound⟩
  | some tree =>
    have sound' : Sound P (words fits) s (0 + 0 + m) := by simpa using sound
    have moved := sound'.tree inside (move_change reclass.mixed reclass.used reclass.known step)
    refine ⟨llfreeOk 0 0, { s with upper := s.upper.setTree idx tree }, ?_, by simpa using moved⟩
    simp [Prog.run_step, UpOp.exec, TableOp.exec, inside]

theorem run_changeTree (turns : Nat) (matcher : TreeMatch) {change : TreeChange}
    (some : 0 < K.treesLen) (reclass : Reclass P change) (sound : Sound P (words fits) s m) :
    ∃ r s', (Call.changeTree (turns + 1) matcher change).run K s = Option.some (r, s') ∧
      Sound P (words fits) s' m := by
  have call : ∃ r s', Prog.run (UpOp.exec K) (llfreeChangeTree K (turns + 1) matcher change) s =
      Option.some (r, s') ∧ Sound P (words fits) s' m := by
    simp only [llfreeChangeTree]
    split_ifs
    · exact ⟨_, s, rfl, sound⟩
    · cases matcher.id with
      | some idx =>
        dsimp only
        split_ifs with outside
        · exact ⟨_, s, rfl, sound⟩
        · exact run_changeAt reclass (Nat.lt_of_not_le outside) sound
      | none =>
        obtain ⟨r, s', run, sound'⟩ := Prog.run_firstSome_keeps
          (I := fun t => Sound P (words fits) t m) (f := fun i => (do
            let res ← treesChangeAt (turns + 1) matcher change (searchIdx 0 K.treesLen i)
            return if res.error ≠ .memory then Option.some res else none : UpProg (Option Result)))
          (List.range' 0 (K.treesLen - 0)) sound fun i _ t kept => by
          obtain ⟨r, t', run, kept'⟩ := run_changeAt reclass (searchIdx_lt some) kept
          exact ⟨_, t', by rw [Prog.run_bind_some run]; rfl, kept'⟩
        exact ⟨_, s', by rw [treesSearch, Prog.run_bind_some run]; rfl, sound'⟩
  obtain ⟨r, s', run, sound'⟩ := call
  exact ⟨Option.some r, s', by rw [Call.run, Call.prog, Prog.run_bind_some run]; rfl, sound'⟩

end LLFree.Upper.Sequential

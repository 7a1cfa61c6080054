/- module: LLFree/Upper/Callers
   digest: Clients that remember their calls and the results, and the histories of these calls. -/

import LLFree.Upper.Midway

/-!
The records of a client do not show which calls it has made. A caller remembers them, so that the
history of a pool of callers consists of calls with their arguments, and of results.
-/

set_option autoImplicit false
set_option relaxedAutoImplicit false

namespace LLFree.Upper.Callers

open LLFree.Atomic.Program LLFree.Atomic.Expansion LLFree.Atomic.Pool LLFree.Atomic.Histories
open LLFree.Atomic.Refinement LLFree.Code.Types LLFree.Code.Entries LLFree.Code.Shared
open LLFree.Code.Llfree LLFree.Code.Stack LLFree.Lower.Holding LLFree.Lower.FrameSet
open LLFree.Upper.Ledger LLFree.Upper.Slots LLFree.Upper.Steps LLFree.Upper.Sequential
open LLFree.Upper.Conservation
open LLFree.Upper.Segregation LLFree.Upper.Blocks LLFree.Upper.Overwritten LLFree.Upper.Lending
open LLFree.Upper.Layers LLFree.Upper.Concurrent LLFree.Upper.Lives LLFree.Upper.Midway

variable {K : Config} {W : Drift K}

/-! ## Calls -/

inductive ApiOp where
  | get (frame : Option Nat) (request : Request)
  | put (b : Lent) (request : Request)
  | drain

abbrev ApiOp.Res : ApiOp → Type
  | .get .. => Result
  | .put .. => Result
  | .drain => Unit

def ApiOp.prog (K : Config) : (o : ApiOp) → UpProg o.Res
  | .get frame request => llfreeGet K frame request
  | .put b request => llfreePut K b.frame request
  | .drain => llfreeDrain K

/-- The calls that a client may make: what it keeps of its records meanwhile, and what it makes of
the result. -/
inductive ApiCall (K : Config) : Client → Client → (o : ApiOp) → (o.Res → Client) → Prop
  | get (h : Client) (frame : Option Nat) (request : Request)
      (served : request.order ≤ treeOrder → Served request.order frame) :
      ApiCall K h h (.get frame request) (h.received request)
  | put (h : Client) (b : Lent) (request : Request) (own : b ∈ h.lent)
      (same : request.order = b.order) :
      ApiCall K h (h.without b) (.put b request)
        (h.released b (validateRequest K request (some b.frame)))
  | drain (h : Client) : ApiCall K h h .drain fun _ => h

theorem clientThread_iff {h k : Client} {p : UpProg Client} : ClientThread K h k p ↔
    ∃ o f, ApiCall K h k o f ∧ p = (ApiOp.prog K o >>= fun r => .ret (f r)) := by
  constructor
  · intro thread
    cases thread with
    | get frame request served => exact ⟨_, _, .get h frame request served, rfl⟩
    | put b request own same => exact ⟨_, _, .put h b request own same, rfl⟩
    | drain => exact ⟨_, _, .drain h, rfl⟩
  · rintro ⟨o, f, call, rfl⟩
    cases call with
    | get frame request served => exact .get h frame request served
    | put b request own same => exact .put h b request own same
    | drain => exact .drain h

/-! ## Callers -/

structure Caller where
  client : Client
  /-- The call under way. -/
  asks : Option ApiOp
  /-- The calls that have returned, the latest one first. -/
  answers : List ((o : ApiOp) × o.Res)

def callers {ι : Type} (h : ι → Client) : ι → Caller := fun i => ⟨h i, none, []⟩

def CallerThread (K : Config) (c k : Caller) (q : Prog ApiOp ApiOp.Res Caller) : Prop :=
  ∃ (l : Client) (o : ApiOp) (f : o.Res → Client), ApiCall K c.client l o f ∧
    k = ⟨l, some o, c.answers⟩ ∧
    q = .step o fun r => .ret ⟨f r, none, ⟨o, r⟩ :: c.answers⟩

def UpCall (K : Config) (c k : Caller) (p : UpProg Caller) : Prop :=
  ∃ q, CallerThread K c k q ∧ p = expand (ApiOp.prog K) q

def WordCall (K : Config) (c k : Caller) (p : WordProg Caller) : Prop :=
  ∃ q, UpCall K c k q ∧ p = words K q

theorem upCall_iff {c k : Caller} {p : UpProg Caller} : UpCall K c k p ↔
    ∃ (l : Client) (o : ApiOp) (f : o.Res → Client), ApiCall K c.client l o f ∧
      k = ⟨l, some o, c.answers⟩ ∧
      p = (ApiOp.prog K o >>= fun r => .ret ⟨f r, none, ⟨o, r⟩ :: c.answers⟩) := by
  constructor
  · rintro ⟨_, ⟨l, o, f, call, rfl, rfl⟩, rfl⟩
    exact ⟨l, o, f, call, rfl, rfl⟩
  · rintro ⟨l, o, f, call, rfl, rfl⟩
    exact ⟨_, ⟨l, o, f, call, rfl, rfl⟩, rfl⟩

theorem upCall_client {c k : Caller} {p : UpProg Caller} (up : UpCall K c k p) :
    ClientThread K c.client k.client (p >>= fun c => .ret c.client) := by
  obtain ⟨l, o, f, call, rfl, rfl⟩ := upCall_iff.mp up
  rw [Prog.assoc]
  exact clientThread_iff.mpr ⟨o, f, call, rfl⟩

theorem wordCall_client {c k : Caller} {p : WordProg Caller} (call : WordCall K c k p) :
    StackCall K c.client k.client (p >>= fun c => .ret c.client) := by
  obtain ⟨q, up, rfl⟩ := call
  refine ⟨_, upCall_client up, ?_⟩
  rw [Code.Stack.words, Code.Stack.words, expand_bind]
  rfl

theorem wordCall_of_client {c : Caller} {l : Client} {p : WordProg Client}
    (call : StackCall K c.client l p) :
    ∃ k q, WordCall K c k q ∧ k.client = l ∧ (q >>= fun c => .ret c.client) = p := by
  obtain ⟨q, thread, rfl⟩ := call
  obtain ⟨o, f, api, rfl⟩ := clientThread_iff.mp thread
  refine ⟨_, _, ⟨_, upCall_iff.mpr ⟨l, o, f, api, rfl, rfl⟩, rfl⟩, rfl, ?_⟩
  rw [Code.Stack.words, Code.Stack.words, expand_bind, expand_bind, Prog.assoc]
  rfl

/-! ## Histories -/

abbrev StackCallers (ι : Type) := Threads WordOp WordOp.Res (Llfree Lower) Int Caller ι
abbrev LendingCallers (ι : Type) := Threads UpOp UpOp.Res (Llfree Loans) Amount Caller ι

abbrev Events (ι : Type) := List (Event Caller ι)

variable {ι : Type} [DecidableEq ι] {s : Llfree Lower} {h : ι → Client} {T : StackCallers ι}
  {es : Events ι} {under : ι → Bool}

/-- The histories of interleavings of accesses. -/
def CallersHear (W : Drift K) (s : Llfree Lower) (h : ι → Client) (es : Events ι)
    (under : ι → Bool) (T : StackCallers ι) : Prop :=
  Heard (stackSys W) (fun _ _ => 1) (WordCall K) (Threads.idle s (callers h)) es under T

/-- The histories when calls of the lower allocator are indivisible. -/
def LendingHear (W : Drift K) (base : Set Nat) (x : Llfree Loans) (h : ι → Client) (es : Events ι)
    (under : ι → Bool) (U : LendingCallers ι) : Prop :=
  Heard (lendingSys W base) upperDelta (UpCall K) (Threads.idle x (callers h)) es under U

/-- The clients of callers do what clients do, and every interleaving of clients has a history. -/
theorem stack_iff_callers {T : StackThreads ι} : StackReaches W s h T ↔
    ∃ es under T', CallersHear W s h es under T' ∧ forget Caller.client T' = T := by
  constructor
  · intro reach
    obtain ⟨T', more, same⟩ : ∃ T' : StackCallers ι, Reaches (stackSys W) (fun _ _ => (1 : Int))
        (WordCall K) (Threads.idle s (callers h)) T' ∧ forget Caller.client T' = T :=
      reaches_remember (fun _ _ _ => wordCall_of_client) reach
    obtain ⟨es, under, heard⟩ := heard_of_reaches more
    exact ⟨es, under, T', heard, same⟩
  · rintro ⟨es, under, T', heard, rfl⟩
    exact reaches_forget (fun _ _ _ => wordCall_client) heard.reaches

/-! ## Indivisible lower calls -/

variable [Fintype ι] {P : Promise K} {base : Leftover K.frames}

private theorem callers_faultless (fits : Fits K) (some : 0 < K.treesLen) (support : Supported P)
    (steady : P.pristine → W.Exact) (rooted : Rooted P base s h) {U : LendingCallers ι}
    (reach : Reaches (lendingSys W base.frames) upperDelta (UpCall K)
      (Threads.idle ⟨allLoans h, s.upper⟩ (callers h)) U) :
    Faultless (lendingSys W base.frames) U := by
  have clients : LendingReaches W base.frames ⟨allLoans h, s.upper⟩ h (forget Caller.client U) :=
    reaches_forget (fun _ _ _ => upCall_client) reach
  obtain ⟨m, n, booked⟩ := lending_booked fits some support steady rooted.begun clients
  exact faultless_of_forget (booked_faultless booked)

/-- Behind callers that interleave accesses there are callers with the same history whose lower
calls are indivisible. -/
theorem callers_behind (fits : Fits K) (some : 0 < K.treesLen) (support : Supported P)
    (steady : P.pristine → W.Exact) (rooted : Rooted P base s h)
    (heard : CallersHear W s h es under T) :
    ∃ U d, LendingHear W base.frames ⟨allLoans h, s.upper⟩ h es under U ∧
      Simulated (layer W base) U T d :=
  simulated_heard (layer_sound fits base)
    (fun _ => callers_faultless fits some support steady rooted)
    (simulated_idle rooted.explained (callers h)) heard

/-- Pool `T` of single accesses looks like pool `U`, in which calls of the lower allocator are
indivisible and its memory is nothing but the blocks that are out. -/
structure LooksLike (K : Config) (base : Set Nat) (T : StackCallers ι) (U : LendingCallers ι) :
    Prop where
  upper : T.mem.upper = U.mem.upper
  kept : T.kept = U.kept
  /-- A call has come to its end in `U` when it has in `T`, with the same result. -/
  idle : ∀ i c, T.thread i = .ret c → U.thread i = .ret c
  free : freeSet T.mem.lower ⊆ freeOf K.frames base U.mem.lower
  rest : AllIdle T → freeSet T.mem.lower = freeOf K.frames base U.mem.lower

/-- Every history of calls whose accesses interleave is one of indivisible lower calls on a set of
free frames: the same calls begin and return in the same order, with the same results. -/
theorem stack_refines (fits : Fits K) (life : Life W s h) (heard : CallersHear W s h es under T) :
    ∃ base U, freeSet s.lower = freeOf K.frames base (allLoans h) ∧
      LendingHear W base ⟨allLoans h, s.upper⟩ h es under U ∧ LooksLike K base T U := by
  have support : Supported (plainPromise K) := False.elim
  obtain ⟨base, rooted⟩ := lives_rooted fits support False.elim id life
  obtain ⟨U, d, heard', sim⟩ :=
    callers_behind fits (lives_some life) support False.elim rooted heard
  have rel : Explained K base T.mem U.mem (∑ i, d i) := sim.rel
  refine ⟨base.frames, U, free_eq_of_explained rooted.explained, heard', rel.upper, sim.kept,
    fun i c quiet => (simulated_ret sim quiet).1, free_of_explained rel, fun idle => ?_⟩
  rw [Finset.sum_eq_zero fun i _ => (simulated_ret sim (idle i).choose_spec).2] at rel
  exact free_eq_of_explained rel

/-! ## Two callers at once -/

private def asks (T : StackCallers ι) (i : ι) : StackCallers ι :=
  T.enter i ⟨⟨[], 0⟩, some (.get none ⟨0, 0, some 0⟩), []⟩
    (words oneTree (llfreeGet oneTree none ⟨0, 0, some 0⟩ >>= fun r =>
      .ret ⟨Client.received ⟨[], 0⟩ ⟨0, 0, some 0⟩ r, none, [⟨.get none ⟨0, 0, some 0⟩, r⟩]⟩))

/-- Two callers allocate a frame each. Caller `j` has lowered the counter of the tree, and caller
`i` has found its frame. -/
def bothAsk (i j : ι) : StackCallers ι :=
  (asks (asks (Threads.idle (initZeroed oneTree .free) (callers (newcomers ι))) i) j).acts
    (WordOp.exec oneTree) (fun _ _ => 1) [i, j, i, j, i, i]

def oneAnswer (i j : ι) : Events ι :=
  [.begins i ⟨⟨[], 0⟩, some (.get none ⟨0, 0, some 0⟩), []⟩,
    .begins j ⟨⟨[], 0⟩, some (.get none ⟨0, 0, some 0⟩), []⟩,
    .returns i ⟨⟨[⟨0, 0, 0⟩], 0⟩, none, [⟨.get none ⟨0, 0, some 0⟩, llfreeOk 0 0⟩]⟩]

theorem bothAsk_heard (W : Drift oneTree) : ∃ under,
    CallersHear W (initZeroed oneTree .free) (newcomers (Fin 2)) (oneAnswer 0 1) under
      (bothAsk 0 1) := by
  have call : ∀ c : Caller, c.client = ⟨[], 0⟩ → ApiCall oneTree c.client ⟨[], 0⟩
      (.get none ⟨0, 0, some 0⟩) (Client.received ⟨[], 0⟩ ⟨0, 0, some 0⟩) := by
    intro c fresh
    rw [fresh]
    exact .get ⟨[], 0⟩ none ⟨0, 0, some 0⟩ fun _ => ⟨by decide, by simp⟩
  have first : CallersHear W (initZeroed oneTree .free) (newcomers (Fin 2)) _ _ _ :=
    .begins 0 ⟨⟨[], 0⟩, none, []⟩ _ _ .nil rfl rfl
      ⟨_, upCall_iff.mpr ⟨_, _, _, call _ rfl, rfl, rfl⟩, rfl⟩
  have both : CallersHear W (initZeroed oneTree .free) (newcomers (Fin 2)) _ _ _ :=
    .begins 1 ⟨⟨[], 0⟩, none, []⟩ _ _ first rfl rfl
      ⟨_, upCall_iff.mpr ⟨_, _, _, call _ rfl, rfl, rfl⟩, rfl⟩
  have acted := both.scheduled (fun _ _ _ _ done => stackSys_exec done) [0, 1, 0, 1, 0, 0]
    (by decide +kernel)
  exact ⟨_, .returns 0 _ acted rfl rfl⟩

theorem stack_refines_both : ∃ (base : Set Nat) (under : Fin 2 → Bool) (U : _),
    (∀ c, (bothAsk (0 : Fin 2) 1).thread 1 ≠ .ret c) ∧
      LendingHear oneTreeDrift base ⟨0, (initZeroed oneTree .free).upper⟩ (newcomers (Fin 2))
        (oneAnswer 0 1) under U ∧ LooksLike oneTree base (bothAsk 0 1) U := by
  obtain ⟨under, heard⟩ := bothAsk_heard oneTreeDrift
  obtain ⟨base, U, -, heard', same⟩ := stack_refines (by decide)
    (.first .free _ (Or.inl rfl) (initZeroed_initialised (by decide))) heard
  exact ⟨base, under, U, fun _ idle => (by cases idle), heard', same⟩

end LLFree.Upper.Callers

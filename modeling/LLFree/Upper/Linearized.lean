/- module: LLFree/Upper/Linearized
   digest: Every call takes effect at one moment, however its accesses interleave with others. -/

import LLFree.Upper.Callers

/-!
Seen from its clients the allocator is a set of blocks that are out. An allocation adds a block of
frames that lie in no other, a free takes its block away, a drain does nothing. The programs of
the calls carry this out: an allocation takes effect when it returns, for nobody can tell the
block it has found from one that is still free, and a free takes effect when it begins.
-/

set_option autoImplicit false
set_option relaxedAutoImplicit false

namespace LLFree.Upper.Linearized

open LLFree.Atomic.Program LLFree.Atomic.Escrow LLFree.Atomic.Pool LLFree.Atomic.Histories
open LLFree.Atomic.Refinement LLFree.Code.Types LLFree.Code.Entries LLFree.Code.Shared
open LLFree.Code.Llfree LLFree.Lower.GetPut LLFree.Lower.FrameSet LLFree.Upper.Ledger
open LLFree.Upper.Slots
open LLFree.Upper.Steps LLFree.Upper.Calls LLFree.Upper.Sequential LLFree.Upper.Conservation
open LLFree.Upper.Segregation LLFree.Upper.Taking LLFree.Upper.Blocks LLFree.Upper.Overwritten
open LLFree.Upper.Lending LLFree.Upper.Layers LLFree.Upper.Concurrent LLFree.Upper.Lives
open LLFree.Upper.Midway LLFree.Upper.Callers

/-! ## The allocator that its clients see -/

abbrev Out := Multiset Lent

def outLoans (x : Out) : Loans := x.map fun b => (b.frame, b.order)

def outTickets (x : Out) : Tickets :=
  (x.map fun b => live (b.frame / 4096) (2 ^ b.order) b.cls).sum

/-- What a call may do. An invalid request is refused and changes nothing. A valid allocation
hands out a block of frames that are in no other, at the frame it was asked for, or finds no
memory; a valid free succeeds. -/
def apiNext (K : Config) (base : Set Nat) : (o : ApiOp) → Out → o.Res → Out → Prop
  | .get frame request, x, r, x' =>
    (validateRequest K request frame = true ∧
        (r.error = .ok ∧ Valid K.frames r.frame request.order ∧
          blockSet r.frame request.order ⊆ freeOf K.frames base (outLoans x) ∧
          (∀ f, frame = some f → r.frame = f) ∧ x' = ⟨r.frame, request.order, r.cls⟩ ::ₘ x ∨
        r.error = .memory ∧ x' = x)) ∨
      (validateRequest K request frame = false ∧ r = llfreeErr .argument ∧ x' = x)
  | .put b request, x, r, x' =>
    (validateRequest K request (some b.frame) = true ∧ r = llfreeOk 0 0 ∧ x' = x.erase b) ∨
      (validateRequest K request (some b.frame) = false ∧ r = llfreeErr .argument ∧ x' = x)
  | .drain, x, _, x' => x' = x

/-- The allocator of the calls. A request that the words do not serve, or a free of a block that
is not out or with another order, counts as a fault. -/
def apiSys (K : Config) (base : Set Nat) : Sys ApiOp ApiOp.Res Out where
  next := apiNext K base
  fails
    | .get frame request, _ => ¬ (request.order ≤ treeOrder → Served request.order frame)
    | .put b request, x => b ∉ x ∨ request.order ≠ b.order
    | .drain, _ => False

variable {K : Config} {W : Drift K} {base : Set Nat} {P : Promise K}

def apiLayer (W : Drift K) (P : Promise K) (base : Set Nat) :
    Layer ApiOp ApiOp.Res Out UpOp UpOp.Res (Llfree Loans) (Tickets × Loans) where
  abs := apiSys K base
  sys := lendingSys W base
  impl := ApiOp.prog K
  rel s x m := Sound P (blocksModel K.frames base) s (m.1 + outTickets x) ∧
    s.lower = m.2 + outLoans x

/-! ## Blocks that are out -/

theorem outLoans_cons (b : Lent) (x : Out) :
    outLoans (b ::ₘ x) = {(b.frame, b.order)} + outLoans x := by
  rw [outLoans, Multiset.map_cons, Multiset.singleton_add]
  rfl

theorem outTickets_cons (b : Lent) (x : Out) :
    outTickets (b ::ₘ x) = live (b.frame / 4096) (2 ^ b.order) b.cls + outTickets x := by
  rw [outTickets, Multiset.map_cons, Multiset.sum_cons]
  rfl

theorem outLoans_add (x y : Out) : outLoans (x + y) = outLoans x + outLoans y :=
  Multiset.map_add ..

theorem outTickets_add (x y : Out) : outTickets (x + y) = outTickets x + outTickets y := by
  rw [outTickets, Multiset.map_add, Multiset.sum_add]
  rfl

/-! ## Every call takes effect at one moment -/

section Calls

variable {α : Type} {m : Tickets} {n : Loans}

theorem ok_books {p : UpProg α} {Q : α → Tickets → Prop} {Q' : α → Loans → Prop}
    (books : (driftAccounting W P (blocksModel K.frames base)).Ok p m Q)
    (loans : (loanAccounting K base).Ok p n Q') :
    (apiLayer W P base).accounting.Ok p (m, n) fun a y => Q a y.1 ∧ Q' a y.2 := by
  induction p generalizing m n with
  | ret a => exact ⟨trivial, books.2, loans.2⟩
  | abort => exact books
  | step o k ih =>
    refine ⟨trivial, fun t F inv => ?_⟩
    obtain ⟨s, x⟩ := t
    obtain ⟨sound, same⟩ : Sound P (blocksModel K.frames base) s (m + F.1 + outTickets x) ∧
      s.lower = n + F.2 + outLoans x := inv
    have sound' : Sound P (blocksModel K.frames base) s (m + (F.1 + outTickets x)) := by
      rw [← add_assoc]
      exact sound
    have owned : (loanAccounting K base).inv s (n + (F.2 + outLoans x)) :=
      ⟨by rw [same, add_assoc], sound.good⟩
    obtain ⟨fine, moves⟩ := books.2 s _ sound'
    refine ⟨?_, ?_⟩
    · rintro (stuck | misused)
      · exact fine stuck
      · exact not_misused loans owned misused
    · rintro r ⟨s', x'⟩ ⟨next, rfl⟩
      obtain ⟨m', sound'', -, rest⟩ := moves r s' next
      obtain ⟨n', owned', -, rest'⟩ := (loans.2 s _ owned).2 r s' (loan_allows next)
      refine ⟨(m', n'), ⟨?_, ?_⟩, rfl, ih r rest rest'⟩
      · change Sound P _ s' (m' + F.1 + outTickets x')
        rw [add_assoc]
        exact sound''
      · change s'.lower = n' + F.2 + outLoans x'
        rw [add_assoc]
        exact owned'.1

private theorem ok_lands {frame : Option Nat} {request : Request} {r : Result}
    (good : validateRequest K request frame = true) (ok : r.error = .ok)
    (hit : ∀ f, frame = some f → r.frame = f) :
    (apiLayer W P base).Lands (.get frame request) r
      (live (r.frame / 4096) (2 ^ request.order) r.cls, {(r.frame, request.order)}) := by
  intro s x F rel
  obtain ⟨sound, same⟩ : Sound P (blocksModel K.frames base) s
      (live (r.frame / 4096) (2 ^ request.order) r.cls + F.1 + outTickets x) ∧
    s.lower = {(r.frame, request.order)} + F.2 + outLoans x := rel
  have separate : Separate K.frames base ((r.frame, request.order) ::ₘ (F.2 + outLoans x)) := by
    rw [← Multiset.singleton_add, ← add_assoc, ← same]
    exact sound.good
  have valid : Valid K.frames r.frame request.order :=
    separate.valid _ (Multiset.mem_cons_self ..)
  refine ⟨⟨r.frame, request.order, r.cls⟩ ::ₘ x, Or.inl ⟨good, Or.inl ⟨ok, valid, ?_, hit, rfl⟩⟩,
    ?_, ?_⟩
  · intro g within
    refine ⟨within.2.trans_le valid.1, separate.clear _ (Multiset.mem_cons_self ..) g within,
      fun b own both => ?_⟩
    exact separate.apart _ _ rfl b (Multiset.mem_add.mpr (Or.inr own)) g ⟨within, both⟩
  · rw [outTickets_cons, ← add_assoc, add_comm F.1]
    exact sound
  · rw [outLoans_cons, ← add_assoc, add_comm F.2]
    exact same

private theorem none_lands {o : ApiOp} {r : o.Res} (next : ∀ x, apiNext K base o x r x) :
    (apiLayer W P base).Lands o r (0, 0) := by
  intro s x F rel
  refine ⟨x, next x, ?_⟩
  rwa [Prod.mk_zero_zero, zero_add] at rel

theorem get_pending (fits : Fits K) (some : 0 < K.treesLen) (support : Supported P)
    (steady : P.pristine → W.Exact) {frame : Option Nat} {request : Request}
    (served : request.order ≤ treeOrder → Served request.order frame) :
    (apiLayer W P base).Pending (.get frame request) (llfreeGet K frame request) 0 := by
  apply Layer.pending_of_ok
  by_cases order : request.order ≤ treeOrder
  · have books : (upperAccounting P (blocksModel K.frames base)).Ok (llfreeGet K frame request) 0
        (Got P request.cls request.order frame) :=
      safe_llfreeGet fits some (fun on c locals => (support on).known locals) (served order).1
    have loans : (loanAccounting K base).Ok (llfreeGet K frame request) 0 _ :=
      takes_llfreeGet loan_blockwise (served order)
    refine Accounting.safe_post (ok_books (safe_drift steady books) loans) ?_
    rintro r ⟨y, z⟩ ⟨got, takes⟩
    rcases takes with ⟨good, ⟨ok, -, hit, rfl⟩ | ⟨error, rfl⟩⟩ | ⟨bad, rfl, rfl⟩
    · rcases got with ⟨-, rfl, -⟩ | ⟨error, -⟩
      · exact ok_lands good ok hit
      · exact absurd ok error
    · obtain rfl : y = 0 := got.none (by simp [error])
      exact none_lands fun x => Or.inl ⟨good, Or.inr ⟨error, rfl⟩⟩
    · obtain rfl : y = 0 := got.none (by simp)
      exact none_lands fun x => Or.inr ⟨bad, rfl, rfl⟩
  · have refused : validateRequest K request frame = false := refused_order order
    simp only [llfreeGet, refused, if_true]
    exact ⟨trivial, none_lands fun x => Or.inr ⟨refused, rfl, rfl⟩⟩

theorem put_early (support : Supported P) (steady : P.pristine → W.Exact) {b : Lent}
    {request : Request} {s : Llfree Loans} {x : Out} {F : Tickets × Loans}
    (rel : (apiLayer W P base).rel s x F) (own : b ∈ x)
    (order : request.order = b.order) : (apiLayer W P base).Early (.put b request) s x F := by
  obtain ⟨sound, same⟩ : Sound P (blocksModel K.frames base) s (F.1 + outTickets x) ∧
    s.lower = F.2 + outLoans x := rel
  obtain ⟨rest, rfl⟩ := Multiset.exists_cons_of_mem own
  by_cases good : validateRequest K request (some b.frame) = true
  · have small : request.order ≤ hugeOrder := by
      rw [order]
      refine sound.good.small (b.frame, b.order) ?_
      rw [same, outLoans_cons]
      exact Multiset.mem_add.mpr
        (Or.inr (Multiset.mem_add.mpr (Or.inl (Multiset.mem_singleton_self _))))
    have books : (upperAccounting P (blocksModel K.frames base)).Ok (llfreePut K b.frame request)
        (live (b.frame / 4096) (2 ^ request.order) b.cls) _ :=
      safe_llfreePut (fun on c locals => (support on).known locals) small (Or.inl rfl)
    have loans : (loanAccounting K base).Ok (llfreePut K b.frame request)
        {(b.frame, request.order)} _ := loan_llfreePut
    refine ⟨llfreeOk 0 0, rest, (live (b.frame / 4096) (2 ^ request.order) b.cls,
      {(b.frame, request.order)}), Or.inl ⟨good, rfl, ?_⟩, ⟨?_, ?_⟩, ?_⟩
    · rw [Multiset.erase_cons_head]
    · rw [outTickets_cons, ← order, ← add_assoc, add_comm F.1] at sound
      exact sound
    · rw [outLoans_cons, ← order, ← add_assoc, add_comm F.2] at same
      exact same
    · refine Accounting.safe_post (ok_books (safe_drift steady books) loans) ?_
      rintro r ⟨y, z⟩ ⟨put, gives⟩
      rcases gives with ⟨-, ⟨rfl, rfl⟩ | ⟨never, -⟩⟩ | ⟨bad, -⟩
      · rcases put with ⟨-, rfl⟩ | ⟨error, -⟩
        · exact ⟨rfl, rfl⟩
        · exact absurd rfl error
      · exact never.elim
      · rw [good] at bad
        cases bad
  · have refused : validateRequest K request (some b.frame) = false := by simpa using good
    refine ⟨llfreeErr .argument, b ::ₘ rest, 0, Or.inr ⟨refused, rfl, rfl⟩, ?_, ?_⟩
    · rw [zero_add]
      exact ⟨sound, same⟩
    · simp only [Layer.Settled, apiLayer, ApiOp.prog, llfreePut, refused, if_true]
      exact ⟨trivial, rfl, rfl⟩

theorem drain_early (steady : P.pristine → W.Exact) {s : Llfree Loans} {x : Out}
    {F : Tickets × Loans}
    (rel : (apiLayer W P base).rel s x F) : (apiLayer W P base).Early .drain s x F := by
  have books : (upperAccounting P (blocksModel K.frames base)).Ok (llfreeDrain K) 0 _ :=
    safe_llfreeDrain
  have loans : (loanAccounting K base).Ok (llfreeDrain K) 0 _ :=
    neutral_llfreeDrain loan_blockwise 0
  refine ⟨(), x, 0, rfl, by rwa [zero_add],
    Accounting.safe_post (ok_books (safe_drift steady books) loans) ?_⟩
  rintro _ ⟨y, z⟩ ⟨rfl, rfl⟩
  exact ⟨rfl, rfl⟩

theorem apiLayer_sound (fits : Fits K) (some : 0 < K.treesLen) (support : Supported P)
    (steady : P.pristine → W.Exact) :
    (apiLayer W P base).Sound := by
  intro o s x F rel fine
  cases o with
  | get frame request => exact Or.inl (get_pending fits some support steady (not_not.mp fine))
  | put b request =>
    obtain ⟨own, order⟩ := not_or.mp fine
    exact Or.inr (put_early support steady rel (not_not.mp own) (not_not.mp order))
  | drain => exact Or.inr (drain_early steady rel)

end Calls

/-! ## Callers -/

def apiAccounting (K : Config) (base : Set Nat) : Accounting ApiOp ApiOp.Res Out Out Int where
  sys := apiSys K base
  inv x m := x = m
  amt := 0
  delta _ _ := 0
  mayAbort := False

def apiBacking : Backing Caller Out where
  held c m := m = c.client.lent
  keeps _ _ := True

theorem api_calls : Calls (apiAccounting K base) apiBacking 0 (CallerThread K) := by
  refine ⟨fun c k p m x F held _ thread => ?_, fun _ _ _ => rfl⟩
  obtain ⟨h, asks, answers⟩ := c
  obtain rfl : m = h.lent := held
  obtain ⟨l, o, f, call, rfl, rfl⟩ := thread
  change ApiCall K h l o f at call
  cases call with
  | get frame request served =>
    refine ⟨trivial, fun x F inv => ⟨fun fault => fault served, fun r x' next => ?_⟩⟩
    obtain rfl : x = h.lent + F := inv
    rcases next with ⟨-, ⟨ok, -, -, -, rfl⟩ | ⟨error, rfl⟩⟩ | ⟨-, rfl, rfl⟩
    · refine ⟨_, ?_, rfl, trivial, rfl⟩
      rw [Client.received, if_pos ok]
      exact (Multiset.cons_add ..).symm
    · refine ⟨_, rfl, rfl, trivial, ?_⟩
      change _ = ((Client.received h request r).lent : Out)
      rw [Client.received, if_neg (by simp [error])]
    · exact ⟨_, rfl, rfl, trivial, rfl⟩
  | put b request own same =>
    have mine : b ∈ (h.lent : Out) := own
    refine ⟨trivial, fun x F inv => ⟨fun fault => ?_, fun r x' next => ?_⟩⟩
    · obtain rfl : x = h.lent + F := inv
      exact fault.elim (fun other => other (Multiset.mem_add.mpr (Or.inl mine))) (absurd same)
    · obtain rfl : x = h.lent + F := inv
      rcases next with ⟨-, rfl, rfl⟩ | ⟨refused, rfl, rfl⟩
      · exact ⟨_, Multiset.erase_add_left_pos F mine, rfl, trivial, rfl⟩
      · exact ⟨_, rfl, rfl, trivial, rfl⟩
  | drain =>
    refine ⟨trivial, fun x F inv => ⟨False.elim, ?_⟩⟩
    rintro r x' rfl
    exact ⟨_, inv, rfl, trivial, rfl⟩

abbrev ApiCallers (ι : Type) := Threads ApiOp ApiOp.Res Out Int Caller ι

variable {ι : Type} [Fintype ι] [DecidableEq ι] {s : Llfree Lower} {h : ι → Client}
  {T : StackCallers ι} {U : ApiCallers ι} {es : Events ι} {under : ι → Bool}

def allOut (h : ι → Client) : Out := ∑ i, ((h i).lent : Out)

/-- The histories when each call is a single step. -/
def ApiHear (K : Config) (base : Set Nat) (h : ι → Client) (es : Events ι) (under : ι → Bool)
    (U : ApiCallers ι) : Prop :=
  Heard (apiSys K base) (fun _ _ => 0) (CallerThread K) (Threads.idle (allOut h) (callers h)) es
    under U

theorem api_faultless (reach : Reaches (apiSys K base) (fun _ _ => 0) (CallerThread K)
    (Threads.idle (allOut h) (callers h)) U) : Faultless (apiSys K base) U := by
  have start : Balanced (apiAccounting K base) apiBacking 0
      (Threads.idle (allOut h) (callers h)) fun i => (h i).lent :=
    balanced_idle api_calls (add_zero _).symm (fun _ => rfl) fun _ => trivial
  obtain ⟨m, balanced⟩ := balanced_reaches api_calls start reach
  exact balanced_no_fault (fun stuck => stuck) balanced

/-! ## Linearization -/

theorem outLoans_allOut (h : ι → Client) : outLoans (allOut h) = allLoans h := by
  have sum : ∀ A : Finset ι, outLoans (∑ i ∈ A, ((h i).lent : Out)) =
      ∑ i ∈ A, loansOf (h i).lent := by
    intro A
    induction A using Finset.induction_on with
    | empty => rfl
    | insert i A new ih => rw [Finset.sum_insert new, Finset.sum_insert new, outLoans_add, ih]; rfl
  exact sum Finset.univ

theorem outTickets_allOut (h : ι → Client) :
    outTickets (allOut h) = ∑ i, lentTickets (h i).lent := by
  have sum : ∀ A : Finset ι,
      outTickets (∑ i ∈ A, ((h i).lent : Out)) = ∑ i ∈ A, lentTickets (h i).lent := by
    intro A
    induction A using Finset.induction_on with
    | empty => rfl
    | insert i A new ih =>
      rw [Finset.sum_insert new, Finset.sum_insert new, outTickets_add, ih]; rfl
  exact sum Finset.univ

/-- Pool `T` of single accesses looks like pool `U`, in which the calls are indivisible. -/
structure SeenAs (K : Config) (base : Set Nat) (T : StackCallers ι) (U : ApiCallers ι) :
    Prop where
  kept : T.kept = U.kept
  /-- A call has taken effect in `U` when it has come to its end in `T`, with the same result. -/
  idle : ∀ i c, T.thread i = .ret c → U.thread i = .ret c
  free : freeSet T.mem.lower ⊆ freeOf K.frames base (outLoans U.mem)
  rest : AllIdle T → freeSet T.mem.lower = freeOf K.frames base (outLoans U.mem)

/-- However the accesses of the callers interleave, in any life: their history is one of an
allocator of which each call is a single step, on nothing but the blocks that are out. The same
calls begin and return in the same order with the same results, and each takes effect at one moment
between its begin and its return. -/
theorem calls_linearize (fits : Fits K) (life : Life W s h) (heard : CallersHear W s h es under T) :
    ∃ base U, freeSet s.lower = freeOf K.frames base (outLoans (allOut h)) ∧
      ApiHear K base h es under U ∧ SeenAs K base T U := by
  have support : Supported (plainPromise K) := False.elim
  have some := lives_some life
  obtain ⟨base, rooted⟩ := lives_rooted fits support False.elim id life
  obtain ⟨V, d, lending, sim⟩ := callers_behind fits some support False.elim rooted heard
  have explained : Explained K base T.mem V.mem (∑ i, d i) := sim.rel
  have start : (apiLayer W (plainPromise K) base.frames).rel ⟨allLoans h, s.upper⟩
      (allOut h) 0 := by
    refine ⟨?_, ?_⟩
    · rw [outTickets_allOut, Prod.fst_zero, zero_add]
      exact rooted.begun.sound
    · rw [outLoans_allOut, Prod.snd_zero, zero_add]
  obtain ⟨U, e, api, sim'⟩ : ∃ U e, ApiHear K base.frames h es under U ∧
      Simulated (apiLayer W (plainPromise K) base.frames) U V e :=
    simulated_heard (apiLayer_sound fits some support False.elim) (fun _ => api_faultless)
      (simulated_idle start (callers h)) lending
  obtain ⟨-, same⟩ : _ ∧ V.mem.lower = (∑ i, e i).2 + outLoans U.mem := sim'.rel
  have back : ∀ i c, T.thread i = .ret c → U.thread i = .ret c ∧ d i = 0 ∧ e i = 0 := by
    intro i c quiet
    obtain ⟨here, none⟩ := simulated_ret sim quiet
    obtain ⟨here', none'⟩ := simulated_ret sim' here
    exact ⟨here', none, none'⟩
  refine ⟨base.frames, U, ?_, api, sim.kept.trans sim'.kept, fun i c quiet => (back i c quiet).1,
    (free_of_explained explained).trans ?_, fun idle => ?_⟩
  · rw [outLoans_allOut]
    exact free_eq_of_explained rooted.explained
  · rintro g ⟨below, clear, out⟩
    refine ⟨below, clear, fun b own => out b ?_⟩
    rw [same]
    exact Multiset.mem_add.mpr (Or.inr own)
  · rw [Finset.sum_eq_zero fun i _ => (back i _ (idle i).choose_spec).2.1] at explained
    rw [Finset.sum_eq_zero fun i _ => (back i _ (idle i).choose_spec).2.2, Prod.snd_zero,
      zero_add] at same
    rw [← same]
    exact free_eq_of_explained explained

/-- Two callers allocate at once, and one of them has its answer. -/
theorem calls_linearize_both : ∃ (base : Set Nat) (under : Fin 2 → Bool) (U : _),
    (∀ c, (bothAsk (0 : Fin 2) 1).thread 1 ≠ .ret c) ∧
      ApiHear oneTree base (newcomers (Fin 2)) (oneAnswer 0 1) under U ∧
        SeenAs oneTree base (bothAsk 0 1) U := by
  obtain ⟨under, heard⟩ := bothAsk_heard oneTreeDrift
  obtain ⟨base, U, -, api, same⟩ := calls_linearize (by decide)
    (.first .free _ (Or.inl rfl) (initZeroed_initialised (by decide))) heard
  exact ⟨base, under, U, fun _ idle => (by cases idle), api, same⟩

end LLFree.Upper.Linearized

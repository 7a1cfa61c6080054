/- module: LLFree/Atomic/Refinement
   digest: Interleavings of expanded programs refine interleavings of indivisible operations. -/

import LLFree.Atomic.Expansion
import LLFree.Atomic.Histories

/-!
Operations of an abstract memory are carried out by programs over a concrete one, and other
threads act between their steps. Each operation is to take effect at one moment, which may be
the beginning of its program, its return, or any step in between. At all times `rel` explains
the concrete memory by the abstract one and by what the programs under way hold back.
-/

set_option autoImplicit false
set_option relaxedAutoImplicit false

namespace LLFree.Atomic.Refinement

open LLFree.Atomic.Program LLFree.Atomic.Escrow LLFree.Atomic.Pool LLFree.Atomic.Histories
open LLFree.Atomic.Expansion

variable {OpA Op : Type} {ResA : OpA → Type} {Res : Op → Type} {A S M DA D H ι : Type}

/-- An abstract memory, a concrete one, the programs that carry out the operations, and how the
concrete memory is explained. -/
structure Layer (OpA : Type) (ResA : OpA → Type) (A Op : Type) (Res : Op → Type) (S M : Type) where
  abs : Sys OpA ResA A
  sys : Sys Op Res S
  impl : (o : OpA) → Prog Op Res (ResA o)
  rel : S → A → M → Prop

namespace Layer

variable [AddCommMonoid M]

def accounting (Y : Layer OpA ResA A Op Res S M) : Accounting Op Res (S × A) M Int where
  sys :=
    { next := fun o s r s' => Y.sys.next o s.1 r s'.1 ∧ s'.2 = s.2
      fails := fun o s => Y.sys.fails o s.1 }
  inv s m := Y.rel s.1 s.2 m
  amt := 0
  delta _ _ := 0
  mayAbort := False

/-- Answer `b` with `y` held back completes operation `o` in any memory. -/
def Lands (Y : Layer OpA ResA A Op Res S M) (o : OpA) (b : ResA o) (y : M) : Prop :=
  ∀ s x F, Y.rel s x (y + F) → ∃ x', Y.abs.next o x b x' ∧ Y.rel s x' F

/-- Operation `o`, with `p` left of its program, has taken effect with answer `a`. -/
def Settled (Y : Layer OpA ResA A Op Res S M) {o : OpA} (a : ResA o) (p : Prog Op Res (ResA o))
    (m : M) : Prop :=
  Y.accounting.Ok p m fun b y => b = a ∧ y = 0

/-- Operation `o`, with the program left of its own, is still to take effect: after one of the
steps to come, or at the return. -/
def Pending (Y : Layer OpA ResA A Op Res S M) (o : OpA) : Prog Op Res (ResA o) → M → Prop
  | .ret b, m => Y.Lands o b m
  | .abort, _ => False
  | .step p f, m => ∀ s x F, Y.rel s x (m + F) → ¬ Y.abs.fails o x → ¬ Y.sys.fails p s ∧
      ∀ r s', Y.sys.next p s r s' →
        (∃ m', Y.rel s' x (m' + F) ∧ Pending Y o (f r) m') ∨
          ∃ a x' m', Y.abs.next o x a x' ∧ Y.rel s' x' (m' + F) ∧ Y.Settled a (f r) m'

def Early (Y : Layer OpA ResA A Op Res S M) (o : OpA) (s : S) (x : A) (F : M) : Prop :=
  ∃ a x' m, Y.abs.next o x a x' ∧ Y.rel s x' (m + F) ∧ Y.Settled a (Y.impl o) m

def Sound (Y : Layer OpA ResA A Op Res S M) : Prop :=
  ∀ o s x F, Y.rel s x F → ¬ Y.abs.fails o x → Y.Pending o (Y.impl o) 0 ∨ Y.Early o s x F

theorem pending_of_ok {Y : Layer OpA ResA A Op Res S M} {o : OpA} {p : Prog Op Res (ResA o)} {m : M}
    (safe : Y.accounting.Ok p m (Y.Lands o)) : Y.Pending o p m := by
  induction p generalizing m with
  | ret b => exact safe.2
  | abort => exact safe
  | step p f ih =>
    intro s x F rel _
    obtain ⟨fine, moves⟩ := safe.2 (s, x) F rel
    refine ⟨fine, fun r s' next => Or.inl ?_⟩
    obtain ⟨m', rel', -, rest⟩ := moves r (s', x) ⟨next, rfl⟩
    exact ⟨m', rel', ih r rest⟩

def calls (Y : Layer OpA ResA A Op Res S M) (call : H → H → Prog OpA ResA H → Prop)
    (h k : H) (p : Prog Op Res H) : Prop := ∃ q, call h k q ∧ p = expand Y.impl q

/-- How far a concrete thread is when the abstract one has `q` left: both idle, or the concrete
one within the program of an operation that is still to take effect or has done so. -/
inductive Stage (Y : Layer OpA ResA A Op Res S M) : Prog OpA ResA H → Prog Op Res H → M → Prop
  | ret (h : H) : Stage Y (.ret h) (.ret h) 0
  | pending (o : OpA) (k : ResA o → Prog OpA ResA H) (p : Op) (f : Res p → Prog Op Res (ResA o))
      (m : M) (wait : Y.Pending o (.step p f) m) :
      Stage Y (.step o k) (.step p f >>= fun r => expand Y.impl (k r)) m
  | settled (o : OpA) (k : ResA o → Prog OpA ResA H) (a : ResA o) (p : Op)
      (f : Res p → Prog Op Res (ResA o)) (m : M)
      (done : Y.Settled a (.step p f) m) :
      Stage Y (k a) (.step p f >>= fun r => expand Y.impl (k r)) m

end Layer

section Pools

variable [AddCommMonoid M] [AddCommGroup DA] [AddCommGroup D] [DecidableEq ι]
  {Y : Layer OpA ResA A Op Res S M} {deltaA : (o : OpA) → ResA o → DA}
  {call : H → H → Prog OpA ResA H → Prop} {i : ι}

/-- No thread stands at a failed assertion or before a failing operation. -/
def Faultless (sys : Sys OpA ResA A) (T : Threads OpA ResA A DA H ι) : Prop :=
  ∀ i, T.thread i ≠ .abort ∧ ∀ o k, T.thread i = .step o k → ¬ sys.fails o T.mem

/-- Thread `i` of `T` catches up with a concrete thread that has `p` left and holds `m` back. -/
def CatchesUp (Y : Layer OpA ResA A Op Res S M) (deltaA : (o : OpA) → ResA o → DA) (i : ι)
    (T : Threads OpA ResA A DA H ι) (p : Prog Op Res H) (s : S) (F : M) : Prop :=
  ∃ T' m', Relation.ReflTransGen (ActStep Y.abs deltaA i) T T' ∧ T'.kept = T.kept ∧
    (∀ j, j ≠ i → T'.thread j = T.thread j) ∧ Y.rel s T'.mem (m' + F) ∧ Y.Stage (T'.thread i) p m'

private theorem CatchesUp.head {T : Threads OpA ResA A DA H ι} {p : Prog Op Res H} {s : S} {F : M}
    {o : OpA} {k : ResA o → Prog OpA ResA H} {a : ResA o} {x' : A} (here : T.thread i = .step o k)
    (next : Y.abs.next o T.mem a x')
    (rest : CatchesUp Y deltaA i ⟨x', Function.update T.thread i (k a), T.kept,
      Function.update T.ledger i (T.ledger i + deltaA o a)⟩ p s F) :
    CatchesUp Y deltaA i T p s F := by
  obtain ⟨T', m', acts, kept, others, rel, stage⟩ := rest
  refine ⟨T', m', .head (.act T o k a x' here next) acts, kept, fun j other => ?_, rel, stage⟩
  rw [others j other]
  exact Function.update_of_ne other ..

/-- Whenever the abstract thread has `q` left, it catches up with one that is about to begin the
expansion of `q`. -/
def Follows (Y : Layer OpA ResA A Op Res S M) (deltaA : (o : OpA) → ResA o → DA)
    (call : H → H → Prog OpA ResA H → Prop) (i : ι) (q : Prog OpA ResA H) : Prop :=
  ∀ (T : Threads OpA ResA A DA H ι) s F, T.thread i = q →
    (∀ T', Reaches Y.abs deltaA call T T' → Faultless Y.abs T') → Y.rel s T.mem F →
      CatchesUp Y deltaA i T (expand Y.impl q) s F

variable {o : OpA} {k : ResA o → Prog OpA ResA H} {T : Threads OpA ResA A DA H ι}
  {p : Prog Op Res (ResA o)} {s : S} {m F : M}

private theorem catches_pending (rest : ∀ r, Follows Y deltaA call i (k r))
    (faultless : ∀ T', Reaches Y.abs deltaA call T T' → Faultless Y.abs T')
    (here : T.thread i = .step o k) (rel : Y.rel s T.mem (m + F)) (wait : Y.Pending o p m) :
    CatchesUp Y deltaA i T (p >>= fun r => expand Y.impl (k r)) s F := by
  cases p with
  | ret b =>
    obtain ⟨x', next, rel'⟩ := wait s T.mem F rel
    refine .head here next (rest b _ s F (Function.update_self ..) (fun T' reach => ?_) rel')
    exact faultless T' (.head (.act T i o k b x' here next) reach)
  | abort => exact absurd wait id
  | step p f =>
    refine ⟨T, m, .refl, rfl, fun _ _ => rfl, rel, ?_⟩
    rw [here]
    exact .pending o k p f m wait

private theorem catches_settled {a : ResA o} (rest : ∀ r, Follows Y deltaA call i (k r))
    (faultless : ∀ T', Reaches Y.abs deltaA call T T' → Faultless Y.abs T')
    (here : T.thread i = k a) (rel : Y.rel s T.mem (m + F)) (done : Y.Settled a p m) :
    CatchesUp Y deltaA i T (p >>= fun r => expand Y.impl (k r)) s F := by
  cases p with
  | ret b =>
    obtain ⟨-, rfl, rfl⟩ := done
    rw [zero_add] at rel
    exact rest b T s F here faultless rel
  | abort => exact absurd done id
  | step p f =>
    refine ⟨T, m, .refl, rfl, fun _ _ => rfl, rel, ?_⟩
    rw [here]
    exact .settled o k a p f m done

private theorem catches_effect {a : ResA o} {x' : A} (rest : ∀ r, Follows Y deltaA call i (k r))
    (faultless : ∀ T', Reaches Y.abs deltaA call T T' → Faultless Y.abs T')
    (here : T.thread i = .step o k) (next : Y.abs.next o T.mem a x') (rel : Y.rel s x' (m + F))
    (done : Y.Settled a p m) :
    CatchesUp Y deltaA i T (p >>= fun r => expand Y.impl (k r)) s F := by
  refine .head here next
    (catches_settled rest (fun T' reach => ?_) (Function.update_self ..) rel done)
  exact faultless T' (.head (.act T i o k a x' here next) reach)

theorem follows (sound : Y.Sound) (q : Prog OpA ResA H) : Follows Y deltaA call i q := by
  induction q with
  | ret h =>
    intro T s F here _ rel
    refine ⟨T, 0, .refl, rfl, fun _ _ => rfl, by rwa [zero_add], ?_⟩
    rw [here]
    exact .ret h
  | abort =>
    intro T s F here faultless _
    exact absurd here (faultless T .refl i).1
  | step o k ih =>
    intro T s F here faultless rel
    rcases sound o s T.mem F rel ((faultless T .refl i).2 o k here) with
      wait | ⟨a, x', m, next, rel', done⟩
    · exact catches_pending ih faultless here (by rwa [zero_add]) wait
    · exact catches_effect ih faultless here next rel' done

/-! ## Pools -/

variable [Fintype ι] {delta : (o : Op) → Res o → D} {P P' : Threads Op Res S D H ι} {n : ι → M}

/-- The concrete pool is where the abstract one is, but for what its threads hold back. -/
structure Simulated (Y : Layer OpA ResA A Op Res S M) (T : Threads OpA ResA A DA H ι)
    (P : Threads Op Res S D H ι) (n : ι → M) : Prop where
  rel : Y.rel P.mem T.mem (∑ i, n i)
  stage : ∀ i, Y.Stage (T.thread i) (P.thread i) (n i)
  kept : P.kept = T.kept

omit [AddCommGroup D] in
private theorem simulated_of_catches {T₀ : Threads OpA ResA A DA H ι} (stages : ∀ j, j ≠ i →
      Y.Stage (T₀.thread j) (P'.thread j) (n j)) (kept : P'.kept = T₀.kept)
    (catches : CatchesUp Y deltaA i T₀ (P'.thread i) P'.mem (∑ j ∈ Finset.univ.erase i, n j)) :
    ∃ T' n', Relation.ReflTransGen (ActStep Y.abs deltaA i) T₀ T' ∧ Simulated Y T' P' n' := by
  obtain ⟨T', m', acts, same, others, rel, stage⟩ := catches
  refine ⟨T', Function.update n i m', acts, ?_, fun j => ?_, kept.trans same.symm⟩
  · rw [sum_update]
    exact rel
  · by_cases other : j = i
    · subst other
      rw [Function.update_self]
      exact stage
    · rw [Function.update_of_ne other, others j other]
      exact stages j other

omit [DecidableEq ι] [AddCommGroup D] [AddCommGroup DA] in
theorem simulated_ret (sim : Simulated Y T P n) {i : ι} {h : H} (idle : P.thread i = .ret h) :
    T.thread i = .ret h ∧ n i = 0 := by
  have stage := sim.stage i
  rw [idle] at stage
  generalize T.thread i = t at stage ⊢
  generalize n i = x at stage ⊢
  cases stage
  exact ⟨rfl, rfl⟩

theorem simulated_begins {h k : H} {q : Prog OpA ResA H} (sound : Y.Sound)
    (faultless : ∀ T', Reaches Y.abs deltaA call T T' → Faultless Y.abs T')
    (sim : Simulated Y T P n) (idle : P.thread i = .ret h) (allowed : call h k q) :
    ∃ T' n', Relation.ReflTransGen (ActStep Y.abs deltaA i) (T.enter i k q) T' ∧
      Simulated Y T' (P.enter i k (expand Y.impl q)) n' := by
  obtain ⟨quiet, none⟩ := simulated_ret sim idle
  refine simulated_of_catches (n := n) (fun j other => ?_) ?_ ?_
  · simp only [Threads.enter, Function.update_of_ne other]
    exact sim.stage j
  · simp only [Threads.enter, sim.kept]
  · simp only [Threads.enter, Function.update_self]
    refine follows sound q _ _ _ (Function.update_self ..)
      (fun T' reach => faultless T' (.head (.start T i h k q quiet allowed) reach)) ?_
    have rel := sim.rel
    rwa [sum_split n i, none, zero_add] at rel

theorem simulated_acts (sound : Y.Sound)
    (faultless : ∀ T', Reaches Y.abs deltaA call T T' → Faultless Y.abs T')
    (sim : Simulated Y T P n) (step : ActStep Y.sys delta i P P') :
    ∃ T' n', Relation.ReflTransGen (ActStep Y.abs deltaA i) T T' ∧ Simulated Y T' P' n' := by
  cases step with
  | act o' f r s' next effect =>
    have stage := sim.stage i
    have rel := sim.rel
    rw [next] at stage
    rw [sum_split n i] at rel
    refine simulated_of_catches (i := i) (n := n) (fun j other => ?_) sim.kept ?_
    · simp only [Function.update_of_ne other]
      exact sim.stage j
    · simp only [Function.update_self]
      generalize here : T.thread i = t at stage
      generalize n i = x at stage rel
      cases stage with
      | pending o k p f m wait =>
        rcases (wait P.mem T.mem _ rel ((faultless T .refl i).2 o k here)).2 r s' effect with
          ⟨m', rel', still⟩ | ⟨a, x', m', next', rel', done⟩
        · exact catches_pending (fun r => follows sound (k r)) faultless here rel' still
        · exact catches_effect (fun r => follows sound (k r)) faultless here next' rel' done
      | settled o k a p f m done =>
        obtain ⟨m', rel', -, rest⟩ := (done.2 (P.mem, T.mem) _ rel).2 r (s', T.mem) ⟨effect, rfl⟩
        exact catches_settled (fun r => follows sound (k r)) faultless here rel' rest

theorem simulated_heard {T₀ : Threads OpA ResA A DA H ι} {P₀ : Threads Op Res S D H ι}
    {n₀ : ι → M} {es : List (Event H ι)} {under : ι → Bool} (sound : Y.Sound)
    (faultless : ∀ T', Reaches Y.abs deltaA call T₀ T' → Faultless Y.abs T')
    (sim : Simulated Y T₀ P₀ n₀) (heard : Heard Y.sys delta (Y.calls call) P₀ es under P) :
    ∃ T n, Heard Y.abs deltaA call T₀ es under T ∧ Simulated Y T P n := by
  induction heard with
  | nil => exact ⟨T₀, n₀, .nil, sim⟩
  | begins i h k p before answered idle allowed ih =>
    obtain ⟨T, n, heard, sim⟩ := ih
    obtain ⟨q, allowed, rfl⟩ := allowed
    obtain ⟨T', n', acted, sim'⟩ := simulated_begins sound
      (fun U rest => faultless U (heard.reaches.trans rest)) sim idle allowed
    exact ⟨T', n',
      (Heard.begins i h k q heard answered (simulated_ret sim idle).1 allowed).acted acted, sim'⟩
  | acts i before step ih =>
    obtain ⟨T, n, heard, sim⟩ := ih
    obtain ⟨T', n', acted, sim'⟩ := simulated_acts sound
      (fun U rest => faultless U (heard.reaches.trans rest)) sim step
    exact ⟨T', n', heard.acted acted, sim'⟩
  | returns i h before late idle ih =>
    obtain ⟨T, n, heard, sim⟩ := ih
    exact ⟨T, n, .returns i h heard late (simulated_ret sim idle).1, sim⟩

theorem simulated_reaches (sound : Y.Sound)
    (faultless : ∀ T', Reaches Y.abs deltaA call T T' → Faultless Y.abs T')
    (sim : Simulated Y T P n) (run : Reaches Y.sys delta (Y.calls call) P P') :
    ∃ T' n', Reaches Y.abs deltaA call T T' ∧ Simulated Y T' P' n' := by
  obtain ⟨es, under, heard⟩ := heard_of_reaches run
  obtain ⟨T', n', heard', sim'⟩ := simulated_heard sound faultless sim heard
  exact ⟨T', n', heard'.reaches, sim'⟩

omit [DecidableEq ι] [AddCommGroup D] [AddCommGroup DA] in
theorem simulated_no_fault (sim : Simulated Y T P n) (faultless : Faultless Y.abs T) (i : ι) :
    P.thread i ≠ .abort ∧ ∀ o k, P.thread i = .step o k → ¬ Y.sys.fails o P.mem := by
  have stage := sim.stage i
  have rel := sim.rel
  classical
  rw [sum_split n i] at rel
  generalize P.thread i = t at stage ⊢
  generalize here : T.thread i = u at stage
  generalize n i = x at stage rel
  cases stage with
  | ret h => exact ⟨by simp, by simp⟩
  | pending o k p f m wait =>
    refine ⟨by simp, fun o' k' same fault => ?_⟩
    obtain ⟨rfl, -⟩ := Prog.step.inj same
    exact (wait P.mem T.mem _ rel ((faultless i).2 o k here)).1 fault
  | settled o k a p f m done =>
    refine ⟨by simp, fun o' k' same fault => ?_⟩
    obtain ⟨rfl, -⟩ := Prog.step.inj same
    exact (done.2 (P.mem, T.mem) _ rel).1 fault

omit [DecidableEq ι] in
theorem simulated_idle {s : S} {x : A} (rel : Y.rel s x 0) (h : ι → H) :
    Simulated Y (Threads.idle x h : Threads OpA ResA A DA H ι)
      (Threads.idle s h : Threads Op Res S D H ι) fun _ => 0 :=
  ⟨by rwa [Finset.sum_const_zero], fun i => .ret (h i), rfl⟩

end Pools

/-! ## Several books on one interleaving -/

section Books

variable {D' : Type} [AddCommGroup D] [AddCommGroup D'] [DecidableEq ι] {sys sys' : Sys Op Res S}
  {delta : (o : Op) → Res o → D} {delta' : (o : Op) → Res o → D'}
  {call : H → H → Prog Op Res H → Prop} {P P' : Threads Op Res S D H ι}

def relabel (P : Threads Op Res S D H ι) (ledger : ι → D') : Threads Op Res S D' H ι :=
  ⟨P.mem, P.thread, P.kept, ledger⟩

theorem reaches_wider (wider : ∀ o s r s', sys.next o s r s' → sys'.next o s r s')
    (run : Reaches sys delta call P P') : Reaches sys' delta call P P' := by
  refine Relation.ReflTransGen.mono (fun U U' step => ?_) _ _ run
  cases step with
  | start i h k p idle allowed => exact .start U i h k p idle allowed
  | act i o k r s next effect => exact .act U i o k r s next (wider o _ r s effect)

theorem reaches_relabel (wider : ∀ o s r s', sys.next o s r s' → sys'.next o s r s')
    (run : Reaches sys delta call P P') (ledger : ι → D') :
    ∃ ledger', Reaches sys' delta' call (relabel P ledger) (relabel P' ledger') := by
  induction run with
  | refl => exact ⟨ledger, .refl⟩
  | @tail U _ _ step ih =>
    obtain ⟨l, reach⟩ := ih
    cases step with
    | start i h k p idle allowed =>
      exact ⟨_, .tail reach (.start (relabel U l) i h k p idle allowed)⟩
    | act i o k r s next effect =>
      exact ⟨_, .tail reach (.act (relabel U l) i o k r s next (wider o _ r s effect))⟩

def forget {H' : Type} (f : H → H') (P : Threads Op Res S D H ι) : Threads Op Res S D H' ι :=
  ⟨P.mem, fun i => P.thread i >>= fun h => .ret (f h), fun i => f (P.kept i), P.ledger⟩

omit [AddCommGroup D] in
private theorem forget_update {H' : Type} (f : H → H') (U : Threads Op Res S D H ι) (i : ι)
    (p : Prog Op Res H) : (fun j => Function.update U.thread i p j >>= fun h => .ret (f h)) =
      Function.update (forget f U).thread i (p >>= fun h => .ret (f h)) := by
  funext j
  by_cases same : j = i
  · subst same
    simp only [Function.update_self]
  · simp only [Function.update_of_ne same, forget]

private theorem forget_enter {H' : Type} (f : H → H') (U : Threads Op Res S D H ι) (i : ι) (k : H)
    (p : Prog Op Res H) :
    forget f (U.enter i k p) = (forget f U).enter i (f k) (p >>= fun h => .ret (f h)) := by
  have kept : (fun j => f (Function.update U.kept i k j)) =
      Function.update (fun j => f (U.kept j)) i (f k) :=
    funext fun j => Function.apply_update (fun _ => f) U.kept i k j
  simp only [forget, Threads.enter, kept]
  rw [forget_update]
  rfl

theorem reaches_forget {H' : Type} {f : H → H'} {call' : H' → H' → Prog Op Res H' → Prop}
    (less : ∀ h k p, call h k p → call' (f h) (f k) (p >>= fun h => .ret (f h)))
    (run : Reaches sys delta call P P') :
    Reaches sys delta call' (forget f P) (forget f P') := by
  induction run with
  | refl => exact .refl
  | @tail U _ _ step ih =>
    refine ih.tail ?_
    cases step with
    | start i h k p idle allowed =>
      have quiet : (forget f U).thread i = .ret (f h) := by
        simp only [forget, idle, Prog.ret_bind]
      have step : Step sys delta call' (forget f U) _ :=
        .start (forget f U) i (f h) (f k) _ quiet (less h k p allowed)
      rwa [← Threads.enter, ← forget_enter] at step
    | act i o k r s next effect =>
      have running : (forget f U).thread i = .step o fun r => k r >>= fun h => .ret (f h) := by
        simp only [forget, next, Prog.step_bind]
      have step : Step sys delta call' (forget f U) _ := .act (forget f U) i o _ r s running effect
      rwa [← forget_update] at step

theorem reaches_remember {H' : Type} {f : H → H'} {call' : H' → H' → Prog Op Res H' → Prop}
    (more : ∀ h k p, call' (f h) k p → ∃ k' p', call h k' p' ∧ f k' = k ∧
      (p' >>= fun h => .ret (f h)) = p) {Q : Threads Op Res S D H' ι}
    (run : Reaches sys delta call' (forget f P) Q) :
    ∃ P', Reaches sys delta call P P' ∧ forget f P' = Q := by
  induction run with
  | refl => exact ⟨P, .refl, rfl⟩
  | tail _ step ih =>
    obtain ⟨U, reach, rfl⟩ := ih
    cases step with
    | start i h k p idle allowed =>
      cases here : U.thread i with
      | ret g =>
        simp only [forget, here, Prog.ret_bind, Prog.ret.injEq] at idle
        subst idle
        obtain ⟨k', p', begins, rfl, rfl⟩ := more g k p allowed
        exact ⟨U.enter i k' p', reach.tail (.start U i g k' p' here begins),
          forget_enter f U i k' p'⟩
      | abort => simp [forget, here] at idle
      | step o k => simp [forget, here] at idle
    | act i o k r s next effect =>
      cases here : U.thread i with
      | ret g => simp [forget, here] at next
      | abort => simp [forget, here] at next
      | step o' k' =>
        simp only [forget, here, Prog.step_bind, Prog.step.injEq] at next
        obtain ⟨rfl, same⟩ := next
        obtain rfl := eq_of_heq same
        refine ⟨_, reach.tail (.act U i o' k' r s here effect), ?_⟩
        simp only [forget]
        rw [forget_update]
        rfl

omit [AddCommGroup D] [DecidableEq ι] in
theorem faultless_of_forget {H' : Type} {f : H → H'} (faultless : Faultless sys (forget f P)) :
    Faultless sys P := by
  intro i
  obtain ⟨alive, fine⟩ := faultless i
  refine ⟨fun stuck => alive ?_, fun o k next => fine o (fun r => k r >>= fun h => .ret (f h)) ?_⟩
  · simp only [forget, stuck, Prog.abort_bind]
  · simp only [forget, next, Prog.step_bind]

end Books

end LLFree.Atomic.Refinement

/- module: LLFree/Atomic/Retrying
   digest: Updates carried out by a load and exchanges that are tried again when they are lost. -/

import LLFree.Atomic.Refinement

/-!
An update of a word is not one access. It loads the word, lets a callback compute the new value,
and exchanges it if the word is still the same; otherwise the callback runs again on the value
that the exchange has seen. The callback may have written variables by then. An update that stores
takes effect at its exchange, one that gives up takes effect where it has seen the word last.
-/

set_option autoImplicit false
set_option relaxedAutoImplicit false

namespace LLFree.Atomic.Retrying

open LLFree.Atomic.Program LLFree.Atomic.Escrow LLFree.Atomic.Pool LLFree.Atomic.Refinement

/-! ## Updates -/

/-- What a callback makes of the value it sees: a failed assertion, the result of giving up, or a
value to store, with the result and what is left in the variables if the exchange is lost. -/
inductive Attempt (V X R : Type) where
  | fails
  | gives (r : R)
  | stores (new : V) (r : R) (left : X)

/-- An update of one word: its place, its variables at first, and its callback. -/
structure Update (S X R : Type) where
  Val : Type
  load : S → Option Val
  store : Val → S → S
  vars : X
  attempt : Val → X → Attempt Val X R

variable {S X R : Type}

def Attempt.outcome {V : Type} (store : V → S) (s : S) : Attempt V X R → Option (R × S)
  | .fails => none
  | .gives r => some (r, s)
  | .stores new r _ => some (r, store new)

namespace Update

def once (u : Update S X R) (s : S) : Option (R × S) :=
  (u.load s).bind fun v => (u.attempt v u.vars).outcome (fun new => u.store new s) s

inductive Left (u : Update S X R) : X → Prop
  | vars : Left u u.vars
  | lost (v new : u.Val) (r : R) (x left : X) (before : Left u x)
      (stores : u.attempt v x = .stores new r left) : Left u left

def ofExec (exec : S → Option (R × S)) (x : X) : Update S X R where
  Val := S
  load := some
  store new _ := new
  vars := x
  attempt s _ := match exec s with
    | none => .fails
    | some (r, new) => .stores new r x

theorem once_ofExec (exec : S → Option (R × S)) (x : X) : (ofExec exec x).once = exec := by
  funext s
  simp only [once, ofExec, Option.bind_some]
  cases exec s <;> rfl

end Update

/-! ## Threads -/

variable {Op : Type} {Res : Op → Type} {H D ι : Type}

/-- How the operations of a memory are carried out: each by an update, unless it is a single
access. -/
structure Means (Op : Type) (Res : Op → Type) (S X : Type) where
  update : (o : Op) → Update S X (Res o)
  single : Op → Bool

/-- A thread between two operations, or in an update: it has seen a value, has run the callback
on it and on the variables as they were, and is about to exchange it. -/
inductive Trier (L : Means Op Res S X) (H : Type) where
  | between (p : Prog Op Res H)
  | trying (o : Op) (k : Res o → Prog Op Res H) (seen : (L.update o).Val) (left : X)

variable {L : Means Op Res S X}

def Trier.rest : Trier L H → Prog Op Res H
  | .between p => p
  | .trying o k _ _ => .step o k

/-- The callback of operation `o` runs on the word as it is: the thread gives up, or is about to
exchange. There is no answer from a failed assertion. -/
def Means.react (L : Means Op Res S X) (o : Op) (k : Res o → Prog Op Res H) (s : S) (left : X) :
    Option (Trier L H) :=
  match (L.update o).load s with
  | none => none
  | some v => match (L.update o).attempt v left with
    | .fails => none
    | .gives r => some (.between (k r))
    | .stores _ _ _ => some (.trying o k v left)

structure Triers (L : Means Op Res S X) (H ι : Type) where
  mem : S
  thread : ι → Trier L H
  kept : ι → H

def Triers.idle (L : Means Op Res S X) (s : S) (h : ι → H) : Triers L H ι :=
  ⟨s, fun i => .between (.ret (h i)), h⟩

def Triers.whole (P : Triers L H ι) (ledger : ι → D) : Threads Op Res S D H ι :=
  ⟨P.mem, fun i => (P.thread i).rest, P.kept, ledger⟩

variable [DecidableEq ι]

def Triers.moved (P : Triers L H ι) (i : ι) (t : Trier L H) (s : S) : Triers L H ι :=
  ⟨s, Function.update P.thread i t, P.kept⟩

/-- One access: an operation that is one, the load of an update, an exchange that succeeds, or one
that is lost. An exchange may be lost for no reason if they are `weak`. -/
inductive TryStep (L : Means Op Res S X) (weak : Prop) (call : H → H → Prog Op Res H → Prop) :
    Triers L H ι → Triers L H ι → Prop
  | start (P : Triers L H ι) (i : ι) (h k : H) (p : Prog Op Res H)
      (idle : P.thread i = .between (.ret h)) (allowed : call h k p) :
      TryStep L weak call P
        ⟨P.mem, Function.update P.thread i (.between p), Function.update P.kept i k⟩
  | access (P : Triers L H ι) (i : ι) (o : Op) (k : Res o → Prog Op Res H) (r : Res o) (s : S)
      (next : P.thread i = .between (.step o k)) (single : L.single o = true)
      (done : (L.update o).once P.mem = some (r, s)) :
      TryStep L weak call P (P.moved i (.between (k r)) s)
  | load (P : Triers L H ι) (i : ι) (o : Op) (k : Res o → Prog Op Res H) (t : Trier L H)
      (next : P.thread i = .between (.step o k)) (update : L.single o = false)
      (reaction : L.react o k P.mem (L.update o).vars = some t) :
      TryStep L weak call P (P.moved i t P.mem)
  | exchange (P : Triers L H ι) (i : ι) (o : Op) (k : Res o → Prog Op Res H)
      (seen new : (L.update o).Val) (x left : X) (r : Res o)
      (next : P.thread i = .trying o k seen x) (same : (L.update o).load P.mem = some seen)
      (stores : (L.update o).attempt seen x = .stores new r left) :
      TryStep L weak call P (P.moved i (.between (k r)) ((L.update o).store new P.mem))
  | lost (P : Triers L H ι) (i : ι) (o : Op) (k : Res o → Prog Op Res H)
      (seen new : (L.update o).Val) (x left : X) (r : Res o) (t : Trier L H)
      (next : P.thread i = .trying o k seen x)
      (changed : (L.update o).load P.mem = some seen → weak)
      (stores : (L.update o).attempt seen x = .stores new r left)
      (reaction : L.react o k P.mem left = some t) :
      TryStep L weak call P (P.moved i t P.mem)

abbrev TryReaches (L : Means Op Res S X) (weak : Prop) (call : H → H → Prog Op Res H → Prop) :
    Triers L H ι → Triers L H ι → Prop :=
  Relation.ReflTransGen (TryStep L weak call)

theorem tries_end {weak : Prop} {call : H → H → Prog Op Res H → Prop} {i : ι} {p : Prog Op Res H}
    {P : Triers L H ι} (here : P.thread i = .between p) {h : H} {s : S}
    (run : Prog.run (fun o => (L.update o).once) p P.mem = some (h, s)) :
    ∃ P', TryReaches L weak call P P' ∧ P'.mem = s ∧
      P'.thread = Function.update P.thread i (.between (.ret h)) ∧ P'.kept = P.kept := by
  induction p generalizing P with
  | ret a =>
    obtain ⟨rfl, rfl⟩ := Prod.mk.inj (Option.some.inj run)
    exact ⟨P, .refl, rfl, by rw [← here, Function.update_eq_self], rfl⟩
  | abort => cases run
  | step o k ih =>
    rw [Prog.run_step, Option.bind_eq_some_iff] at run
    obtain ⟨⟨r, t⟩, first, rest⟩ := run
    obtain ⟨P', reach, mem, thread, kept⟩ :=
      ih r (P := P.moved i (.between (k r)) t) (Function.update_self ..) rest
    have done : P'.thread = Function.update P.thread i (.between (.ret h)) := by
      rw [thread]
      exact Function.update_idem ..
    cases single : L.single o with
    | true => exact ⟨P', .head (.access P i o k r t here single first) reach, mem, done, kept⟩
    | false =>
      obtain ⟨v, seen, outcome⟩ := Option.bind_eq_some_iff.mp first
      cases attempt : (L.update o).attempt v (L.update o).vars with
      | fails => simp [attempt, Attempt.outcome] at outcome
      | gives r' =>
        rw [attempt] at outcome
        obtain ⟨rfl, rfl⟩ := Prod.mk.inj (Option.some.inj outcome)
        refine ⟨P', .head (.load P i o k _ here single ?_) reach, mem, done, kept⟩
        simp only [Means.react, seen, attempt]
      | stores new r' left =>
        rw [attempt] at outcome
        obtain ⟨rfl, rfl⟩ := Prod.mk.inj (Option.some.inj outcome)
        have loaded : TryStep L weak call P
            (P.moved i (.trying o k v (L.update o).vars) P.mem) := by
          apply TryStep.load P i o k _ here single
          simp only [Means.react, seen, attempt]
        have stored : TryStep L weak call (P.moved i (.trying o k v (L.update o).vars) P.mem)
            (P.moved i (.between (k r')) ((L.update o).store new P.mem)) := by
          have step : TryStep L weak call (P.moved i (.trying o k v (L.update o).vars) P.mem) _ :=
            .exchange _ i o k v new _ left r' (Function.update_self ..) seen attempt
          simp only [Triers.moved, Function.update_idem] at step ⊢
          exact step
        exact ⟨P', .head loaded (.head stored reach), mem, done, kept⟩

/-! ## Operations take effect as a whole -/

/-- System `sys` allows what an update does with any variables that lost attempts leave. -/
structure Means.Within (L : Means Op Res S X) (sys : Sys Op Res S) : Prop where
  access : ∀ o s r s', L.single o = true → (L.update o).once s = some (r, s') → sys.next o s r s'
  stuck : ∀ o s, L.single o = true → (L.update o).once s = none → sys.fails o s
  absent : ∀ o s, (L.update o).load s = none → sys.fails o s
  fails : ∀ o s v x, (L.update o).Left x → (L.update o).load s = some v →
    (L.update o).attempt v x = .fails → sys.fails o s
  gives : ∀ o s v x r, (L.update o).Left x → (L.update o).load s = some v →
    (L.update o).attempt v x = .gives r → sys.next o s r s
  stores : ∀ o s v x new r left, (L.update o).Left x → (L.update o).load s = some v →
    (L.update o).attempt v x = .stores new r left → sys.next o s r ((L.update o).store new s)

def Trier.Fair : Trier L H → Prop
  | .between _ => True
  | .trying o _ seen x => (L.update o).Left x ∧
    ∃ new r left, (L.update o).attempt seen x = .stores new r left

section Whole

variable {sys : Sys Op Res S} {weak : Prop} {call : H → H → Prog Op Res H → Prop}
  {P P' : Triers L H ι} [AddCommGroup D] {delta : (o : Op) → Res o → D}

theorem react_cases {o : Op} {k : Res o → Prog Op Res H} {s : S} {x : X} {t : Trier L H}
    (reaction : L.react o k s x = some t) : ∃ v, (L.update o).load s = some v ∧
      ((∃ r, (L.update o).attempt v x = .gives r ∧ t = .between (k r)) ∨
        ∃ new r left, (L.update o).attempt v x = .stores new r left ∧ t = .trying o k v x) := by
  unfold Means.react at reaction
  cases here : (L.update o).load s with
  | none => simp [here] at reaction
  | some v =>
    cases attempt : (L.update o).attempt v x with
    | fails => simp [here, attempt] at reaction
    | gives r =>
      simp only [here, attempt, Option.some.injEq] at reaction
      exact ⟨v, rfl, Or.inl ⟨r, attempt, reaction.symm⟩⟩
    | stores new r after =>
      simp only [here, attempt, Option.some.injEq] at reaction
      exact ⟨v, rfl, Or.inr ⟨new, r, after, attempt, reaction.symm⟩⟩

private theorem react_fair {o : Op} {k : Res o → Prog Op Res H} {s : S} {x : X} {t : Trier L H}
    (left : (L.update o).Left x) (reaction : L.react o k s x = some t) : t.Fair := by
  obtain ⟨v, -, ⟨r, -, rfl⟩ | ⟨new, r, after, stores, rfl⟩⟩ := react_cases reaction
  · trivial
  · exact ⟨left, new, r, after, stores⟩

theorem fair_step (fair : ∀ i, (P.thread i).Fair) (step : TryStep L weak call P P') (j : ι) :
    (P'.thread j).Fair := by
  have moved : ∀ {i : ι} {t : Trier L H}, t.Fair → (Function.update P.thread i t j).Fair := by
    intro i t mine
    by_cases same : j = i
    · subst same
      rwa [Function.update_self]
    · rw [Function.update_of_ne same]
      exact fair j
  cases step with
  | start i h k p idle allowed => exact moved trivial
  | access i o k r s next single done => exact moved trivial
  | load i o k t next update reaction => exact moved (react_fair .vars reaction)
  | exchange i o k seen new x left r next same stores => exact moved trivial
  | lost i o k seen new x left r t next changed stores reaction =>
    have mine := fair i
    rw [next] at mine
    exact moved (react_fair (.lost seen new r x left mine.1 stores) reaction)

private theorem rest_moved (P : Triers L H ι) (i : ι) (t : Trier L H) (s : S) :
    (fun j => ((P.moved i t s).thread j).rest) =
      Function.update (fun j => (P.thread j).rest) i t.rest := by
  funext j
  by_cases same : j = i
  · subst same
    simp only [Triers.moved, Function.update_self]
  · simp only [Triers.moved, Function.update_of_ne same]

theorem whole_step (within : L.Within sys) (fair : ∀ i, (P.thread i).Fair) (ledger : ι → D)
    (step : TryStep L weak call P P') :
    ∃ ledger', Reaches sys delta call (P.whole ledger) (P'.whole ledger') := by
  have still : ∀ i o k t, (P.thread i).rest = .step o k → t.rest = .step o k →
      (P.moved i t P.mem).whole ledger = P.whole ledger := by
    intro i o k t here there
    simp only [Triers.whole, rest_moved]
    rw [there, ← here, Function.update_eq_self]
    rfl
  have acts : ∀ i o k r t s, (P.thread i).rest = .step o k → t.rest = k r → sys.next o P.mem r s →
      Step sys delta call (P.whole ledger) ((P.moved i t s).whole
        (Function.update ledger i (ledger i + delta o r))) := by
    intro i o k r t s here there next
    simp only [Triers.whole, rest_moved]
    rw [there]
    exact .act (P.whole ledger) i o k r s here next
  have reacts : ∀ i o k t x, (P.thread i).rest = .step o k → (L.update o).Left x →
      L.react o k P.mem x = some t →
        ∃ ledger', Reaches sys delta call (P.whole ledger) ((P.moved i t P.mem).whole ledger') := by
    intro i o k t x here left reaction
    obtain ⟨v, seen, ⟨r, gives, rfl⟩ | ⟨new, r, after, -, rfl⟩⟩ := react_cases reaction
    · exact ⟨_, .single
        (acts i o k r _ P.mem here rfl (within.gives o P.mem v x r left seen gives))⟩
    · refine ⟨ledger, ?_⟩
      rw [still i o k _ here rfl]
  cases step with
  | start i h k p idle allowed =>
    refine ⟨Function.update ledger i 0, .single ?_⟩
    have quiet : (P.whole ledger).thread i = .ret h := by
      simp only [Triers.whole, idle, Trier.rest]
    have moved : (fun j => (Function.update P.thread i (.between p) j).rest) =
        Function.update (fun j => (P.thread j).rest) i p := rest_moved P i (.between p) P.mem
    simp only [Triers.whole]
    rw [moved]
    exact .start (P.whole ledger) i h k p quiet allowed
  | access i o k r s next single done =>
    refine ⟨_, .single (acts i o k r _ s ?_ rfl (within.access o P.mem r s single done))⟩
    rw [next]
    rfl
  | load i o k t next update reaction =>
    exact reacts i o k t _ (by rw [next]; rfl) .vars reaction
  | exchange i o k seen new x left r next same stores =>
    have mine := fair i
    rw [next] at mine
    refine ⟨_, .single (acts i o k r _ _ ?_ rfl
      (within.stores o P.mem seen x new r left mine.1 same stores))⟩
    rw [next]
    rfl
  | lost i o k seen new x left r t next changed stores reaction =>
    have mine := fair i
    rw [next] at mine
    exact reacts i o k t _ (by rw [next]; rfl) (.lost seen new r x left mine.1 stores) reaction

theorem whole_reaches (within : L.Within sys) (fair : ∀ i, (P.thread i).Fair) (ledger : ι → D)
    (run : TryReaches L weak call P P') :
    (∀ i, (P'.thread i).Fair) ∧
      ∃ ledger', Reaches sys delta call (P.whole ledger) (P'.whole ledger') := by
  induction run with
  | refl => exact ⟨fair, ledger, .refl⟩
  | @tail Q Q' _ step ih =>
    obtain ⟨fair', ledger', reach⟩ := ih
    obtain ⟨ledger'', more⟩ := whole_step within fair' ledger' step
    exact ⟨fair_step fair' step, ledger'', reach.trans more⟩

/-! ## Assertions -/

/-- Thread `i` is at no failed assertion, and its next access leads to none: neither a single
access, nor a callback that runs on the word as it is. -/
def Triers.Fine (P : Triers L H ι) (i : ι) : Prop :=
  match P.thread i with
  | .between (.ret _) => True
  | .between .abort => False
  | .between (.step o k) =>
    if L.single o then (L.update o).once P.mem ≠ none
    else L.react o k P.mem (L.update o).vars ≠ none
  | .trying o k seen x => ∀ new r left, (L.update o).attempt seen x = .stores new r left →
    L.react o k P.mem left ≠ none

private theorem react_fine {o : Op} {k : Res o → Prog Op Res H} {s : S} {x : X}
    (within : L.Within sys) (left : (L.update o).Left x) (fine : ¬ sys.fails o s) :
    (L.react o k s x : Option (Trier L H)) ≠ none := by
  unfold Means.react
  cases here : (L.update o).load s with
  | none => exact absurd (within.absent o s here) fine
  | some v =>
    cases attempt : (L.update o).attempt v x with
    | fails => exact absurd (within.fails o s v x left here attempt) fine
    | gives r => simp [attempt]
    | stores new r after => simp [attempt]

omit [DecidableEq ι] [AddCommGroup D] in
theorem fine_of_faultless (within : L.Within sys) (fair : ∀ i, (P.thread i).Fair) {ledger : ι → D}
    (faultless : Faultless sys (P.whole ledger)) (i : ι) : P.Fine i := by
  obtain ⟨alive, fine⟩ := faultless i
  have mine := fair i
  simp only [Triers.whole] at alive fine
  unfold Triers.Fine
  split
  · trivial
  · next here =>
    rw [here] at alive
    exact alive rfl
  · next o k here =>
    have safe := fine o k (by rw [here]; rfl)
    split_ifs with single
    · exact fun stuck => safe (within.stuck o P.mem single stuck)
    · exact react_fine within .vars safe
  · next o k seen x here =>
    intro new r left stores
    rw [here] at mine
    exact react_fine within (.lost seen new r x left mine.1 stores) (fine o k (by rw [here]; rfl))

end Whole

end LLFree.Atomic.Retrying

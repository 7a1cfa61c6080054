/- module: LLFree/Atomic/Pool
   digest: Interleavings of any number of threads, and the accounting that survives them. -/

import LLFree.Atomic.Escrow
import Mathlib.Algebra.BigOperators.Group.Finset.Basic
import Mathlib.Logic.Relation

set_option autoImplicit false
set_option relaxedAutoImplicit false

namespace LLFree.Atomic.Pool

open LLFree.Atomic.Program LLFree.Atomic.Escrow

variable {Op : Type} {Res : Op → Type} {S M D H ι : Type}

/-- Threads over a shared memory. A thread is idle with its private data `H`, or in the
middle of a call and keeps `kept` of it meanwhile. `ledger` is what the operations of the
current call moved so far. -/
structure Threads (Op : Type) (Res : Op → Type) (S D H ι : Type) where
  mem : S
  thread : ι → Prog Op Res H
  kept : ι → H
  ledger : ι → D

def Threads.idle [Zero D] (s : S) (h : ι → H) : Threads Op Res S D H ι :=
  ⟨s, fun i => .ret (h i), h, fun _ => 0⟩

def Threads.data (P : Threads Op Res S D H ι) (i : ι) : H :=
  match P.thread i with
  | .ret h => h
  | _ => P.kept i

variable [AddCommMonoid M] [AddCommGroup D] [DecidableEq ι]

/-- One scheduling step: an idle thread starts a call and keeps part of its data, or a running
thread performs its next operation. -/
inductive Step (sys : Sys Op Res S) (delta : (o : Op) → Res o → D)
    (call : H → H → Prog Op Res H → Prop) :
    Threads Op Res S D H ι → Threads Op Res S D H ι → Prop
  | start (P : Threads Op Res S D H ι) (i : ι) (h k : H) (p : Prog Op Res H)
      (idle : P.thread i = .ret h) (allowed : call h k p) :
      Step sys delta call P
        ⟨P.mem, Function.update P.thread i p, Function.update P.kept i k,
          Function.update P.ledger i 0⟩
  | act (P : Threads Op Res S D H ι) (i : ι) (o : Op) (k : Res o → Prog Op Res H) (r : Res o)
      (s : S) (next : P.thread i = .step o k) (effect : sys.next o P.mem r s) :
      Step sys delta call P
        ⟨s, Function.update P.thread i (k r), P.kept,
          Function.update P.ledger i (P.ledger i + delta o r)⟩

abbrev Reaches (sys : Sys Op Res S) (delta : (o : Op) → Res o → D)
    (call : H → H → Prog Op Res H → Prop) :
    Threads Op Res S D H ι → Threads Op Res S D H ι → Prop :=
  Relation.ReflTransGen (Step sys delta call)

/-- A scheduling step whose operation meets `meets` in the pool as it stands. -/
inductive GuardedStep (sys : Sys Op Res S) (delta : (o : Op) → Res o → D)
    (call : H → H → Prog Op Res H → Prop)
    (meets : Threads Op Res S D H ι → (o : Op) → Res o → Prop) :
    Threads Op Res S D H ι → Threads Op Res S D H ι → Prop
  | start (P : Threads Op Res S D H ι) (i : ι) (h k : H) (p : Prog Op Res H)
      (idle : P.thread i = .ret h) (allowed : call h k p) :
      GuardedStep sys delta call meets P
        ⟨P.mem, Function.update P.thread i p, Function.update P.kept i k,
          Function.update P.ledger i 0⟩
  | act (P : Threads Op Res S D H ι) (i : ι) (o : Op) (k : Res o → Prog Op Res H) (r : Res o)
      (s : S) (next : P.thread i = .step o k) (effect : sys.next o P.mem r s)
      (met : meets P o r) :
      GuardedStep sys delta call meets P
        ⟨s, Function.update P.thread i (k r), P.kept,
          Function.update P.ledger i (P.ledger i + delta o r)⟩

/-- A scheduling step next to which a history variable is kept. An operation meets `meets`, and
`record` is what the variable becomes. -/
inductive RecordedStep {G : Type} (sys : Sys Op Res S) (delta : (o : Op) → Res o → D)
    (call : H → H → Prog Op Res H → Prop)
    (meets : Threads Op Res S D H ι → G → ι → (o : Op) → Res o → Prop)
    (record : Threads Op Res S D H ι → G → ι → (o : Op) → Res o → G) :
    Threads Op Res S D H ι × G → Threads Op Res S D H ι × G → Prop
  | start (P : Threads Op Res S D H ι) (g : G) (i : ι) (h k : H) (p : Prog Op Res H)
      (idle : P.thread i = .ret h) (allowed : call h k p) :
      RecordedStep sys delta call meets record (P, g)
        (⟨P.mem, Function.update P.thread i p, Function.update P.kept i k,
          Function.update P.ledger i 0⟩, g)
  | act (P : Threads Op Res S D H ι) (g : G) (i : ι) (o : Op) (k : Res o → Prog Op Res H)
      (r : Res o) (s : S) (next : P.thread i = .step o k) (effect : sys.next o P.mem r s)
      (met : meets P g i o r) :
      RecordedStep sys delta call meets record (P, g)
        (⟨s, Function.update P.thread i (k r), P.kept,
          Function.update P.ledger i (P.ledger i + delta o r)⟩, record P g i o r)

omit [AddCommMonoid M] in
/-- A thread that runs alone reaches the end of its program, and the others stay where they are. -/
theorem reaches_end {sys : Sys Op Res S} {delta : (o : Op) → Res o → D}
    {call : H → H → Prog Op Res H → Prop} {exec : (o : Op) → S → Option (Res o × S)}
    (next : ∀ o s r s', exec o s = some (r, s') → sys.next o s r s') {i : ι} {p : Prog Op Res H}
    {P : Threads Op Res S D H ι} (here : P.thread i = p) {h : H} {s : S}
    (run : Prog.run exec p P.mem = some (h, s)) :
    ∃ P', Reaches sys delta call P P' ∧ P'.mem = s ∧
      P'.thread = Function.update P.thread i (.ret h) ∧ P'.kept = P.kept := by
  induction p generalizing P with
  | ret a =>
    obtain ⟨rfl, rfl⟩ := Prod.mk.inj (Option.some.inj run)
    exact ⟨P, .refl, rfl, by rw [← here, Function.update_eq_self], rfl⟩
  | abort => cases run
  | step o k ih =>
    rw [Prog.run_step, Option.bind_eq_some_iff] at run
    obtain ⟨⟨r, t⟩, first, rest⟩ := run
    obtain ⟨P', reach, same, thread, kept⟩ :=
      ih r (P := ⟨t, Function.update P.thread i (k r), P.kept,
      Function.update P.ledger i (P.ledger i + delta o r)⟩) (Function.update_self ..) rest
    refine ⟨P', .head (.act P i o k r t here (next o _ r t first)) reach, same, ?_, kept⟩
    rw [thread, Function.update_idem]

omit [AddCommMonoid M] in
theorem reaches_run {sys : Sys Op Res S} {delta : (o : Op) → Res o → D}
    {call : H → H → Prog Op Res H → Prop} {exec : (o : Op) → S → Option (Res o × S)}
    (next : ∀ o s r s', exec o s = some (r, s') → sys.next o s r s') {i : ι} {p : Prog Op Res H}
    {P : Threads Op Res S D H ι} (here : P.thread i = p) {h : H} {s : S}
    (run : Prog.run exec p P.mem = some (h, s)) :
    ∃ P', Reaches sys delta call P P' ∧ P'.mem = s := by
  obtain ⟨P', reach, same, -⟩ :=
    show ∃ P', Reaches sys delta call P P' ∧ P'.mem = s ∧ _ from reaches_end next here run
  exact ⟨P', reach, same⟩

/-! ## Schedules -/

section Schedules

variable {sys : Sys Op Res S} {delta : (o : Op) → Res o → D} {call : H → H → Prog Op Res H → Prop}
  {meets : Threads Op Res S D H ι → (o : Op) → Res o → Prop} {guard : Op → S → Prop}
  {exec : (o : Op) → S → Option (Res o × S)}

omit [AddCommMonoid M] in
theorem GuardedStep.step {P P' : Threads Op Res S D H ι}
    (guarded : GuardedStep sys delta call meets P P') : Step sys delta call P P' := by
  cases guarded with
  | start i h k p idle allowed => exact .start P i h k p idle allowed
  | act i o k r s next effect met => exact .act P i o k r s next effect

def Threads.enter (P : Threads Op Res S D H ι) (i : ι) (k : H) (p : Prog Op Res H) :
    Threads Op Res S D H ι :=
  ⟨P.mem, Function.update P.thread i p, Function.update P.kept i k, Function.update P.ledger i 0⟩

/-- Thread `i` performs its next operation, if it has one that succeeds. -/
def Threads.act (exec : (o : Op) → S → Option (Res o × S)) (delta : (o : Op) → Res o → D)
    (P : Threads Op Res S D H ι) (i : ι) : Threads Op Res S D H ι :=
  match P.thread i with
  | .step o k => match exec o P.mem with
    | some (r, s) => ⟨s, Function.update P.thread i (k r), P.kept,
        Function.update P.ledger i (P.ledger i + delta o r)⟩
    | none => P
  | _ => P

/-- Thread `i` has a next operation that succeeds and meets both conditions. -/
def Threads.ready (exec : (o : Op) → S → Option (Res o × S)) (guard : Op → S → Prop)
    (meets : Threads Op Res S D H ι → (o : Op) → Res o → Prop) [∀ o s, Decidable (guard o s)]
    [∀ P o r, Decidable (meets P o r)] (P : Threads Op Res S D H ι) (i : ι) : Bool :=
  match P.thread i with
  | .step o _ => match exec o P.mem with
    | some (r, _) => decide (guard o P.mem) && decide (meets P o r)
    | none => false
  | _ => false

variable [∀ o s, Decidable (guard o s)] [∀ P o r, Decidable (meets P o r)]

omit [AddCommMonoid M] in
theorem act_step {P : Threads Op Res S D H ι} {i : ι}
    (next : ∀ o s r s', guard o s → exec o s = some (r, s') → sys.next o s r s')
    (ready : P.ready exec guard meets i = true) :
    GuardedStep sys delta call meets P (P.act exec delta i) := by
  cases here : P.thread i with
  | ret h => simp [Threads.ready, here] at ready
  | abort => simp [Threads.ready, here] at ready
  | step o k =>
    cases done : exec o P.mem with
    | none => simp [Threads.ready, here, done] at ready
    | some x =>
      simp only [Threads.ready, here, done, Bool.and_eq_true, decide_eq_true_eq] at ready
      simp only [Threads.act, here, done]
      exact .act P i o k x.1 x.2 here (next o _ x.1 x.2 ready.1 done) ready.2

def Threads.acts (exec : (o : Op) → S → Option (Res o × S)) (delta : (o : Op) → Res o → D)
    (P : Threads Op Res S D H ι) (schedule : List ι) : Threads Op Res S D H ι :=
  schedule.foldl (Threads.act exec delta) P

def Threads.allReady (exec : (o : Op) → S → Option (Res o × S)) (delta : (o : Op) → Res o → D)
    (guard : Op → S → Prop) (meets : Threads Op Res S D H ι → (o : Op) → Res o → Prop)
    [∀ o s, Decidable (guard o s)] [∀ P o r, Decidable (meets P o r)] :
    Threads Op Res S D H ι → List ι → Bool
  | _, [] => true
  | P, i :: schedule => P.ready exec guard meets i &&
      allReady exec delta guard meets (P.act exec delta i) schedule

omit [AddCommMonoid M] in
theorem acts_steps {P : Threads Op Res S D H ι} {schedule : List ι}
    (next : ∀ o s r s', guard o s → exec o s = some (r, s') → sys.next o s r s')
    (ready : P.allReady exec delta guard meets schedule = true) :
    Relation.ReflTransGen (GuardedStep sys delta call meets) P (P.acts exec delta schedule) := by
  induction schedule generalizing P with
  | nil => exact .refl
  | cons i schedule ih =>
    obtain ⟨first, rest⟩ := Bool.and_eq_true_iff.mp ready
    exact .head (act_step next first) (ih rest)

/-- The threads of `schedule` act one after the other, and their history is recorded. -/
def Threads.actsRecorded {G : Type} (exec : (o : Op) → S → Option (Res o × S))
    (delta : (o : Op) → Res o → D)
    (record : Threads Op Res S D H ι → G → ι → (o : Op) → Res o → G) :
    Threads Op Res S D H ι × G → List ι → Threads Op Res S D H ι × G
  | x, [] => x
  | (P, g), i :: schedule => actsRecorded exec delta record (P.act exec delta i,
      match P.thread i with
      | .step o _ => match exec o P.mem with
        | some (r, _) => record P g i o r
        | none => g
      | _ => g) schedule

def Threads.allRecorded {G : Type} (exec : (o : Op) → S → Option (Res o × S))
    (delta : (o : Op) → Res o → D) (guard : Op → S → Prop)
    (meets : Threads Op Res S D H ι → G → ι → (o : Op) → Res o → Prop)
    (record : Threads Op Res S D H ι → G → ι → (o : Op) → Res o → G)
    [∀ o s, Decidable (guard o s)] [∀ P g i o r, Decidable (meets P g i o r)] :
    Threads Op Res S D H ι × G → List ι → Bool
  | _, [] => true
  | x, i :: schedule => x.1.ready exec guard (fun P o r => meets P x.2 i o r) i &&
      allRecorded exec delta guard meets record (actsRecorded exec delta record x [i]) schedule

omit [AddCommMonoid M] in
theorem recorded_steps {G : Type} {x : Threads Op Res S D H ι × G} {schedule : List ι}
    {meets : Threads Op Res S D H ι → G → ι → (o : Op) → Res o → Prop}
    {record : Threads Op Res S D H ι → G → ι → (o : Op) → Res o → G}
    [∀ P g i o r, Decidable (meets P g i o r)]
    (next : ∀ o s r s', guard o s → exec o s = some (r, s') → sys.next o s r s')
    (ready : Threads.allRecorded exec delta guard meets record x schedule = true) :
    Relation.ReflTransGen (RecordedStep sys delta call meets record) x
      (Threads.actsRecorded exec delta record x schedule) := by
  induction schedule generalizing x with
  | nil => exact .refl
  | cons i schedule ih =>
    obtain ⟨first, rest⟩ := Bool.and_eq_true_iff.mp ready
    refine .head ?_ (ih rest)
    obtain ⟨P, g⟩ := x
    cases here : P.thread i with
    | ret h => simp [Threads.ready, here] at first
    | abort => simp [Threads.ready, here] at first
    | step o k =>
      cases done : exec o P.mem with
      | none => simp [Threads.ready, here, done] at first
      | some x =>
        simp only [Threads.ready, here, done, Bool.and_eq_true, decide_eq_true_eq] at first
        simp only [Threads.act, here, done]
        exact .act P g i o k x.1 x.2 here (next o _ x.1 x.2 first.1 done) first.2

end Schedules

variable [Fintype ι]

/-- How private data is backed: `held` by the resource of an idle thread, `keeps` by the
resource of a thread at any point of a call. -/
structure Backing (H M : Type) where
  held : H → M → Prop
  keeps : H → M → Prop

/-- The memory is explained by the resources of all threads together with `R`, each ledger
measures the resource of its thread, and every thread is safe from where it stands. -/
structure Balanced (E : Accounting Op Res S M D) (B : Backing H M) (R : M)
    (P : Threads Op Res S D H ι) (m : ι → M) : Prop where
  inv : E.inv P.mem (∑ i, m i + R)
  ledger : ∀ i, E.amt (m i) = P.ledger i
  safe : ∀ i, E.Safe (B.keeps (P.kept i)) (P.thread i) (m i) B.held

theorem sum_split (m : ι → M) (i : ι) :
    ∑ j, m j = m i + ∑ j ∈ Finset.univ.erase i, m j :=
  (Finset.add_sum_erase _ _ (Finset.mem_univ i)).symm

theorem sum_update (m : ι → M) (i : ι) (x : M) :
    ∑ j, Function.update m i x j = x + ∑ j ∈ Finset.univ.erase i, m j := by
  rw [sum_split _ i, Function.update_self]
  congr 1
  refine Finset.sum_congr rfl fun j member => ?_
  rw [Function.update_of_ne (Finset.ne_of_mem_erase member)]

variable {E : Accounting Op Res S M D} {B : Backing H M} {R : M}
  {call : H → H → Prog Op Res H → Prop} {P P' : Threads Op Res S D H ι} {m : ι → M}

/-- What every call must be: safe from the data of its thread, which is free of charge. The
memory at the start of the call may be inspected. -/
structure Calls (E : Accounting Op Res S M D) (B : Backing H M) (R : M)
    (call : H → H → Prog Op Res H → Prop) : Prop where
  safe : ∀ h k p m s F, B.held h m → E.inv s (m + (F + R)) → call h k p →
    E.Safe (B.keeps k) p m B.held
  free : ∀ h m, B.held h m → E.amt m = 0

/-- One step preserves the balance: the stepping thread is safe against the remainder,
the other threads keep their resources. -/
theorem balanced_step (calls : Calls E B R call) (balanced : Balanced E B R P m)
    (step : Step E.sys E.delta call P P') : ∃ m', Balanced E B R P' m' := by
  have split := fun i => (congrArg (· + R) (sum_split m i)).trans (add_assoc _ _ R)
  cases step with
  | start i h k p idle allowed =>
    have own : B.held h (m i) := by
      have safe := balanced.safe i
      rw [idle] at safe
      exact safe.2
    refine ⟨m, balanced.inv, fun j => ?_, fun j => ?_⟩
    · by_cases same : j = i
      · subst same
        simp only [Function.update_self]
        exact calls.free h (m j) own
      · simp only [Function.update_of_ne same]
        exact balanced.ledger j
    · by_cases same : j = i
      · subst same
        simp only [Function.update_self]
        exact calls.safe h k p (m j) _ _ own (split j ▸ balanced.inv) allowed
      · simp only [Function.update_of_ne same]
        exact balanced.safe j
  | act i o k r s next effect =>
    have safe := balanced.safe i
    rw [next] at safe
    obtain ⟨x, inv', amount, rest⟩ := (safe.2 _ _ (split i ▸ balanced.inv)).2 r s effect
    refine ⟨Function.update m i x, ?_, fun j => ?_, fun j => ?_⟩
    · rw [sum_update, add_assoc]
      exact inv'
    · by_cases same : j = i
      · subst same
        simp only [Function.update_self]
        rw [amount, balanced.ledger j]
      · simp only [Function.update_of_ne same]
        exact balanced.ledger j
    · by_cases same : j = i
      · subst same
        simp only [Function.update_self]
        exact rest
      · simp only [Function.update_of_ne same]
        exact balanced.safe j

theorem balanced_reaches (calls : Calls E B R call) (balanced : Balanced E B R P m)
    (run : Reaches E.sys E.delta call P P') : ∃ m', Balanced E B R P' m' := by
  induction run with
  | refl => exact ⟨m, balanced⟩
  | tail _ step ih =>
    obtain ⟨m', balanced'⟩ := ih
    exact balanced_step calls balanced' step

def Threads.haunted {G : Type} (T : Threads Op Res S D H ι) (g : G) :
    Threads Op Res (S × G) D H ι :=
  ⟨(T.mem, g), T.thread, T.kept, T.ledger⟩

/-- An accounting with ghost data holds along recorded steps, when the ghost data can follow every
operation and `J` relates it to the history. -/
theorem balanced_recorded {G X : Type} {E : Accounting Op Res (S × X) M D} {sys : Sys Op Res S}
    {meets : Threads Op Res S D H ι → G → ι → (o : Op) → Res o → Prop}
    {record : Threads Op Res S D H ι → G → ι → (o : Op) → Res o → G}
    {J : (ι → Prog Op Res H) → G → X → Prop} {T T' : Threads Op Res S D H ι} {g g' : G}
    (calls : Calls E B R call)
    (begins : ∀ P g x i h k p, J P g x → call h k p → J (Function.update P i p) g x)
    (acts : ∀ T g x m i o k r s, Balanced E B R (T.haunted x) m → J T.thread g x →
      T.thread i = .step o k → sys.next o T.mem r s → meets T g i o r →
      ∃ x', E.sys.next o (T.mem, x) r (s, x') ∧
        J (Function.update T.thread i (k r)) (record T g i o r) x')
    (start : ∃ x m, Balanced E B R (T.haunted x) m ∧ J T.thread g x)
    (run : Relation.ReflTransGen (RecordedStep sys E.delta call meets record) (T, g) (T', g')) :
    ∃ x m, Balanced E B R (T'.haunted x) m ∧ J T'.thread g' x := by
  generalize here : (T', g') = now at run
  induction run generalizing T' g' with
  | refl =>
    obtain ⟨rfl, rfl⟩ := Prod.mk.inj here
    exact start
  | tail _ step ih =>
    cases step with
    | start U u i h k p idle allowed =>
      obtain ⟨x, m, balanced, related⟩ := ih rfl
      obtain ⟨rfl, rfl⟩ := Prod.mk.inj here
      obtain ⟨m', balanced'⟩ :=
        balanced_step calls balanced (.start (U.haunted x) i h k p idle allowed)
      exact ⟨x, m', balanced', begins U.thread _ x i h k p related allowed⟩
    | act U u i o k r s next effect met =>
      obtain ⟨x, m, balanced, related⟩ := ih rfl
      obtain ⟨rfl, rfl⟩ := Prod.mk.inj here
      obtain ⟨x', moved, related'⟩ := acts U u x m i o k r s balanced related next effect met
      obtain ⟨m', balanced'⟩ :=
        balanced_step calls balanced (.act (U.haunted x) i o k r (s, x') next moved)
      exact ⟨x', m', balanced', related'⟩

omit [DecidableEq ι] in
theorem balanced_idle {s : S} {h : ι → H} (calls : Calls E B R call)
    (inv : E.inv s (∑ i, m i + R)) (own : ∀ i, B.held (h i) (m i))
    (keep : ∀ i, B.keeps (h i) (m i)) : Balanced E B R (Threads.idle s h) m :=
  ⟨inv, fun i => calls.free _ _ (own i), fun i => ⟨keep i, own i⟩⟩

/-- In a balanced pool no thread stands at a failed assertion or before a failing operation. -/
theorem balanced_no_fault (total : ¬ E.mayAbort) (balanced : Balanced E B R P m) (i : ι) :
    P.thread i ≠ .abort ∧ ∀ o k, P.thread i = .step o k → ¬ E.sys.fails o P.mem := by
  have safe := balanced.safe i
  constructor
  · intro stuck
    rw [stuck] at safe
    exact total safe
  · intro o k next fault
    have inv := balanced.inv
    rw [next] at safe
    rw [sum_split m i, add_assoc] at inv
    exact total ((safe.2 _ _ inv).1 fault)

omit [DecidableEq ι] in
theorem balanced_data (total : ¬ E.mayAbort) (balanced : Balanced E B R P m)
    (keep : ∀ h x, B.held h x → B.keeps h x) (i : ι) : B.keeps (P.data i) (m i) := by
  have safe := balanced.safe i
  unfold Threads.data
  split
  · next h idle =>
    rw [idle] at safe
    exact keep h _ safe.2
  · exact Accounting.safe_holds total safe

omit [DecidableEq ι] in
theorem balanced_ret (balanced : Balanced E B R P m) {i : ι} {h : H}
    (idle : P.thread i = .ret h) : B.held h (m i) := by
  have safe := balanced.safe i
  rw [idle] at safe
  exact safe.2

end LLFree.Atomic.Pool

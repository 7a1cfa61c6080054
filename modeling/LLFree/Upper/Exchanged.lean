/- module: LLFree/Upper/Exchanged
   digest: Clients whose updates are loads and exchanges that other clients can make them lose. -/

import LLFree.Code.Exchanges
import LLFree.Upper.Lives

/-!
Between the load of an update and its exchange other clients may change the word, and an exchange
may be lost for no reason at all. The callback then runs again, on a class that a lost attempt has
left in the case of a steal. All this is an interleaving of indivisible accesses, in which steals
have drifted.
-/

set_option autoImplicit false
set_option relaxedAutoImplicit false

namespace LLFree.Upper.Exchanged

open LLFree.Atomic.Program LLFree.Atomic.Refinement LLFree.Atomic.Retrying LLFree.Code.Types
open LLFree.Code.Entries LLFree.Code.Shared LLFree.Code.Setup LLFree.Code.Llfree LLFree.Code.Stack
open LLFree.Code.Exchanges LLFree.Upper.Ledger LLFree.Upper.Slots LLFree.Upper.Sequential
open LLFree.Upper.Conservation LLFree.Upper.Overwritten LLFree.Upper.Lending LLFree.Upper.Layers
open LLFree.Upper.Concurrent LLFree.Upper.Lives

variable {K : Config}

/-! ## Updates -/

private theorem leftOver_of_left {idx frames cls x : Nat}
    (left : (wordUpdate K (.table (.treesSteal idx frames cls))).Left x) :
    LeftOver K.policy frames cls x := by
  induction left with
  | vars => exact .refl
  | lost v new r x left before stores ih =>
    refine ih.tail ⟨v, new, ?_⟩
    simp only [wordUpdate, treeUpdate] at stores
    split at stores
    · next seen => cases stores; exact seen
    · cases stores

private theorem attempt_once {o : WordOp} {s : Llfree Lower} {v : (wordUpdate K o).Val} {x : Nat}
    (byClass : ByClass K.policy) (left : (wordUpdate K o).Left x)
    (seen : (wordUpdate K o).load s = some v) :
    (∀ r s', ((wordUpdate K o).attempt v x).outcome (fun new => (wordUpdate K o).store new s) s =
        some (r, s') → (stackSys (overwritten byClass)).next o s r s') ∧
      (((wordUpdate K o).attempt v x).outcome (fun new => (wordUpdate K o).store new s) s = none →
        WordOp.exec K o s = none) := by
  have whole : ∀ (o' : WordOp) (v' : (wordUpdate K o').Val), (wordUpdate K o').load s = some v' →
      ((wordUpdate K o').attempt v' (wordUpdate K o').vars).outcome
        (fun new => (wordUpdate K o').store new s) s = WordOp.exec K o' s := by
    intro o' v' here
    rw [← once_wordUpdate, Update.once, here, Option.bind_some]
  have fixed : (wordUpdate K o).attempt v x = (wordUpdate K o).attempt v (wordUpdate K o).vars →
      (∀ r s', ((wordUpdate K o).attempt v x).outcome (fun new => (wordUpdate K o).store new s) s =
        some (r, s') → WordOp.exec K o s = some (r, s')) ∧
      (((wordUpdate K o).attempt v x).outcome (fun new => (wordUpdate K o).store new s) s = none →
        WordOp.exec K o s = none) := by
    intro same
    rw [same, whole o v seen]
    exact ⟨fun _ _ done => done, id⟩
  cases o with
  | lower o =>
    have plain := fixed (by cases o <;> rfl)
    exact ⟨fun r s' done => stackSys_exec (plain.1 r s' done), plain.2⟩
  | buffer o =>
    have plain := fixed rfl
    exact ⟨fun r s' done => stackSys_exec (plain.1 r s' done), plain.2⟩
  | table o =>
    cases o with
    | treesSteal idx frames cls =>
      -- the attempt is the first one of a steal that asks for class `x`
      have drifted := whole (.table (.treesSteal idx frames x)) v seen
      refine ⟨fun r s' done => ⟨x, leftOver_of_left left, drifted.symm.trans done⟩, fun stuck => ?_⟩
      have outside := drifted.symm.trans stuck
      simp only [WordOp.exec, TableOp.exec, Option.map_eq_none_iff] at outside ⊢
      split_ifs at outside ⊢ with inside
      · split at outside <;> cases outside
      · rfl
    | _ =>
      have plain := fixed rfl
      exact ⟨fun r s' done => stackSys_exec (plain.1 r s' done), plain.2⟩

theorem words_within (byClass : ByClass K.policy) :
    (wordMeans K).Within (stackSys (overwritten byClass)) := by
  refine ⟨fun o s r s' single done => ?_, fun o s single stuck => ?_, fun o s absent => ?_,
    fun o s v x left seen attempt => ?_, fun o s v x r left seen attempt => ?_,
    fun o s v x new r after left seen attempt => ?_⟩
  · exact stackSys_exec ((congrFun (once_wordUpdate o) s).symm.trans done)
  · exact (congrFun (once_wordUpdate o) s).symm.trans stuck
  · have nothing : (wordUpdate K o).once s = none := Option.bind_eq_none_iff.mpr fun v here =>
      absurd (absent.symm.trans here) (by simp)
    exact (congrFun (once_wordUpdate o) s).symm.trans nothing
  · exact (attempt_once byClass left seen).2 (congrArg (Attempt.outcome _ s) attempt)
  · exact (attempt_once byClass left seen).1 r s (congrArg (Attempt.outcome _ s) attempt)
  · exact (attempt_once byClass left seen).1 r _ (congrArg (Attempt.outcome _ s) attempt)

/-! ## Clients -/

abbrev TryingClients (K : Config) (ι : Type) := Triers (wordMeans K) Client ι

variable {ι : Type} [DecidableEq ι] {s s' : Llfree Lower} {h : ι → Client} {R : TryingClients K ι}

/-- The pools that some interleaving of loads and exchanges reaches from idle clients. -/
def TryingReaches (K : Config) (s : Llfree Lower) (h : ι → Client) (R : TryingClients K ι) : Prop :=
  TryReaches (wordMeans K) True (StackCall K) (Triers.idle (wordMeans K) s h) R

abbrev indivisible (R : TryingClients K ι) : StackThreads ι := R.whole fun _ => 0

inductive TryingLife (K : Config) : Llfree Lower → (ι → Client) → Prop
  | first (mode : InitMode) (s : Llfree Lower) (fresh : FreshMode mode)
      (init : Initialised K mode s) : TryingLife K s (newcomers ι)
  | again (s s' : Llfree Lower) (h h' : ι → Client) (R : TryingClients K ι) (upper : Upper)
      (life : TryingLife K s h) (reach : TryingReaches K s h R)
      (init : llfreeInit K .recover ⟨R.mem.lower, upper⟩ = some (llfreeOk 0 0, s'))
      (known : ∀ i, (h' i).lent.Sublist ((indivisible R).data i).lent)
      (fine : ∀ i, (h' i).refused = 0) : TryingLife K s' h'

theorem stack_of_trying (byClass : ByClass K.policy) (reach : TryingReaches K s h R) :
    (∀ i, (R.thread i).Fair) ∧
      ∃ ledger, StackReaches (overwritten byClass) s h (R.whole ledger) := by
  have idle : ∀ i, ((Triers.idle (wordMeans K) s h).thread i).Fair := fun _ => trivial
  exact whole_reaches (words_within byClass) idle (fun _ => 0) reach

theorem life_of_trying (byClass : ByClass K.policy) (life : TryingLife K s h) :
    Life (overwritten byClass) s h := by
  induction life with
  | first mode s fresh init => exact .first mode s fresh init
  | again s s' h h' R upper life reach init known fine ih =>
    obtain ⟨-, ledger, reach'⟩ := stack_of_trying byClass reach
    exact .again s s' h h' (R.whole ledger) upper ih reach' init known fine

variable [Fintype ι]

/-- However loads and exchanges of the clients interleave, whichever exchanges are lost, and at
whichever of them the allocator crashed before: the clients are where an interleaving of
indivisible accesses leads, in a life of such interleavings, and no callback fails an assertion,
not even on a value that is out of date by the time of its exchange. -/
theorem exchanges_refine (byClass : ByClass K.policy) (fits : Fits K) (life : TryingLife K s h)
    (reach : TryingReaches K s h R) :
    Life (overwritten byClass) s h ∧
      (∃ ledger, StackReaches (overwritten byClass) s h (R.whole ledger)) ∧ ∀ i, R.Fine i := by
  have support : Supported (plainPromise K) := False.elim
  have whole := life_of_trying byClass life
  obtain ⟨fair, ledger, reach'⟩ := stack_of_trying byClass reach
  obtain ⟨base, U, d, m, n, -, behind⟩ := lives_behind fits support False.elim id whole reach'
  have faultless : Faultless (stackSys (overwritten byClass)) (R.whole ledger) :=
    simulated_no_fault behind.sim (booked_faultless behind.booked)
  exact ⟨whole, ⟨ledger, reach'⟩, fine_of_faultless (words_within byClass) fair faultless⟩

omit [Fintype ι] in
private theorem trying_solo {i : ι} {g k a : Client} {q : UpProg Client}
    (accepted : K.frames ≤ maxPages) (idle : R.thread i = .between (.ret g))
    (allowed : ClientThread K g k q) (same : R.mem.lower.frames = K.frames)
    (run : Prog.run (UpOp.exec K) q R.mem = some (a, s')) :
    ∃ R', TryReaches (wordMeans K) True (StackCall K) R R' ∧ R'.mem = s' ∧
      R'.thread = Function.update R.thread i (.between (.ret a)) := by
  have once : (fun o => (wordUpdate K o).once) = WordOp.exec K := funext once_wordUpdate
  have alone := (Solo.run_words accepted q same).trans run
  rw [← once] at alone
  have begin : TryStep (wordMeans K) True (StackCall K) R
      ⟨R.mem, Function.update R.thread i (.between (words K q)), Function.update R.kept i k⟩ :=
    .start R i g k _ idle ⟨q, allowed, rfl⟩
  obtain ⟨R', reach, mem, thread, -⟩ : ∃ R', TryReaches (wordMeans K) True (StackCall K)
      ⟨R.mem, Function.update R.thread i (.between (words K q)), Function.update R.kept i k⟩ R' ∧
        R'.mem = s' ∧ R'.thread = _ ∧ _ := tries_end (Function.update_self ..) alone
  refine ⟨R', .head begin reach, mem, ?_⟩
  rw [thread]
  exact Function.update_idem ..

theorem one_trying : TryingLife oneTree (initZeroed oneTree .free) (newcomers (Fin 2)) ∧
    ∃ R : TryingClients oneTree (Fin 2),
      TryingReaches oneTree (initZeroed oneTree .free) (newcomers (Fin 2)) R ∧
        R.thread = Function.update (fun _ => .between (.ret ⟨[], 0⟩)) 0
          (.between (.ret ⟨[⟨0, 0, 0⟩], 0⟩)) := by
  obtain ⟨⟨a, t⟩, get, first⟩ := Option.map_eq_some_iff.mp
    (show ((Prog.run (UpOp.exec oneTree) (llfreeGet oneTree none ⟨0, 0, some 0⟩)
      (initZeroed oneTree .free)).map Prod.fst) = some (llfreeOk 0 0) by decide +kernel)
  obtain rfl : a = llfreeOk 0 0 := first
  obtain ⟨R, reach, -, thread⟩ := trying_solo (i := (0 : Fin 2))
    (R := Triers.idle (wordMeans oneTree) (initZeroed oneTree .free) (newcomers (Fin 2)))
    (by decide) rfl
    (.get ⟨[], 0⟩ none ⟨0, 0, some 0⟩ fun _ => ⟨by decide, by simp⟩) rfl (Prog.run_bind_some get)
  exact ⟨.first .free _ (Or.inl rfl) (initZeroed_initialised (by decide)), R, reach, thread⟩

theorem exchanges_refine_one : ∃ R : TryingClients oneTree (Fin 2),
    R.thread 0 = .between (.ret ⟨[⟨0, 0, 0⟩], 0⟩) ∧
      (∃ ledger, StackReaches oneTreeDrift (initZeroed oneTree .free) (newcomers (Fin 2))
        (R.whole ledger)) ∧ ∀ i, R.Fine i := by
  obtain ⟨life, R, reach, thread⟩ := one_trying
  obtain ⟨-, whole, fine⟩ := exchanges_refine oneTree_standard.byClass (by decide) life reach
  exact ⟨R, by rw [thread]; rfl, whole, fine⟩

end LLFree.Upper.Exchanged

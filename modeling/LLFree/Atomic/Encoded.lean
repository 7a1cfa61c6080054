/- module: LLFree/Atomic/Encoded
   digest: Updates on words that encode values, and why threads cannot tell them apart. -/

import LLFree.Atomic.Bounded
import LLFree.Atomic.Retrying

/-!
A callback works on a value, the exchange after it on the word that holds it. A word has no room
for every value. If callbacks make nothing of what they see but values that have room, equal words
are equal values, and threads over words do what threads over values do.
-/

set_option autoImplicit false
set_option relaxedAutoImplicit false

namespace LLFree.Atomic.Encoded

open LLFree.Atomic.Program LLFree.Atomic.Bounded LLFree.Atomic.Retrying

variable {Op : Type} {Res : Op → Type} {S S' V V' X R H ι : Type}

/-! ## Updates of words -/

def mapAttempt (f : V → V') : Attempt V X R → Attempt V' X R
  | .fails => .fails
  | .gives r => .gives r
  | .stores new r left => .stores (f new) r left

/-- Update `u` on words: the callback gets the value that the word decodes to, and what it stores
is encoded. -/
def onWords (u : Update S X R) (decode : V → u.Val) (encode : u.Val → V) (load : S' → Option V)
    (store : V → S' → S') : Update S' X R where
  Val := V
  load := load
  store := store
  vars := u.vars
  attempt word x := mapAttempt encode (u.attempt (decode word) x)

def Answers (a : Attempt V X R) (r : R) : Prop := a = .gives r ∨ ∃ new left, a = .stores new r left

theorem mapAttempt_mapAttempt {decode : V → V'} {encode : V' → V} {a : Attempt V' X R}
    (room : ∀ new r left, a = .stores new r left → decode (encode new) = new) :
    mapAttempt decode (mapAttempt encode a) = a := by
  cases a with
  | fails => rfl
  | gives r => rfl
  | stores new r left => simp only [mapAttempt, room new r left rfl]

theorem mapAttempt_stores {f : V → V'} {a : Attempt V X R} {new' : V'} {r : R} {left : X}
    (stores : mapAttempt f a = .stores new' r left) :
    ∃ new, a = .stores new r left ∧ f new = new' := by
  cases a with
  | fails => cases stores
  | gives r => cases stores
  | stores new r left =>
    cases stores
    exact ⟨new, rfl, rfl⟩

theorem answers_map {f : V → V'} {a : Attempt V X R} {r : R}
    (answers : Answers (mapAttempt f a) r) : Answers a r := by
  rcases answers with gives | ⟨new', left, stores⟩
  · cases a with
    | gives r' =>
      cases gives
      exact Or.inl rfl
    | _ => cases gives
  · obtain ⟨new, same, -⟩ := mapAttempt_stores stores
    exact Or.inr ⟨new, left, same⟩

/-! ## Codings -/

/-- Memory `S'` holds the values of `S` in words, as long as operations are asked for on the
terms `E`. -/
structure Coding (E : Terms Op Res) (L' : Means Op Res S' X) (L : Means Op Res S X) where
  mem : S' → S
  val : (o : Op) → (L'.update o).Val → (L.update o).Val
  injective : ∀ o, L'.single o = false → Function.Injective (val o)
  single : ∀ o, L.single o = L'.single o
  vars : ∀ o, (L.update o).vars = (L'.update o).vars
  load : ∀ o w, (L.update o).load (mem w) = ((L'.update o).load w).map (val o)
  store : ∀ o seen v w, (L'.update o).load w = some seen →
    (L.update o).store (val o v) (mem w) = mem ((L'.update o).store v w)
  once : ∀ o w, L'.single o = true → E.asks o →
    (L.update o).once (mem w) = ((L'.update o).once w).map fun y => (y.1, mem y.2)
  attempt : ∀ o v x, L'.single o = false → E.asks o → (L'.update o).Left x →
    (L.update o).attempt (val o v) x = mapAttempt (val o) ((L'.update o).attempt v x)
  gives : ∀ o w r w', L'.single o = true → (L'.update o).once w = some (r, w') → E.given o r
  answers : ∀ o v x r, L'.single o = false → E.asks o → (L'.update o).Left x →
    Answers ((L'.update o).attempt v x) r → E.given o r

variable {E : Terms Op Res} {L' : Means Op Res S' X} {L : Means Op Res S X} (C : Coding E L' L)

namespace Coding

def thread : Trier L' H → Trier L H
  | .between p => .between p
  | .trying o k seen x => .trying o k (C.val o seen) x

def pool (P : Triers L' H ι) : Triers L H ι := ⟨C.mem P.mem, fun i => C.thread (P.thread i), P.kept⟩

variable {o : Op} {k : Res o → Prog Op Res H} {w : S'} {x : X}

theorem react_map (update : L'.single o = false) (asks : E.asks o) (left : (L'.update o).Left x) :
    L.react o k (C.mem w) x = (L'.react o k w x).map C.thread := by
  unfold Means.react
  rw [C.load]
  cases (L'.update o).load w with
  | none => rfl
  | some v =>
    simp only [Option.map_some, C.attempt o v x update asks left]
    cases (L'.update o).attempt v x <;> rfl

private theorem once_map (asks : E.asks o) : (L.update o).once (C.mem w) =
    ((L'.update o).once w).map fun y => (y.1, C.mem y.2) := by
  cases single : L'.single o with
  | true => exact C.once o w single asks
  | false =>
    simp only [Update.once, C.load]
    cases seen : (L'.update o).load w with
    | none => rfl
    | some v =>
      simp only [Option.map_some, Option.bind_some, C.vars, C.attempt o v _ single asks .vars]
      cases (L'.update o).attempt v (L'.update o).vars with
      | fails => rfl
      | gives r => rfl
      | stores new r left =>
        simp only [mapAttempt, Attempt.outcome, C.store o v new w seen, Option.map_some]

include C in
private theorem once_given {r : Res o} {w' : S'} (asks : E.asks o)
    (done : (L'.update o).once w = some (r, w')) : E.given o r := by
  cases single : L'.single o with
  | true => exact C.gives o w r w' single done
  | false =>
    obtain ⟨v, -, outcome⟩ := Option.bind_eq_some_iff.mp done
    refine C.answers o v (L'.update o).vars r single asks .vars ?_
    cases attempt : (L'.update o).attempt v (L'.update o).vars with
    | fails => simp [attempt, Attempt.outcome] at outcome
    | gives r' =>
      rw [attempt] at outcome
      obtain ⟨rfl, -⟩ := Prod.mk.inj (Option.some.inj outcome)
      exact Or.inl rfl
    | stores new r' left =>
      rw [attempt] at outcome
      obtain ⟨rfl, -⟩ := Prod.mk.inj (Option.some.inj outcome)
      exact Or.inr ⟨new, left, rfl⟩

theorem run_coded {p : Prog Op Res H} {m : Nat} (within : E.AtMost m p) :
    Prog.run (fun o => (L.update o).once) p (C.mem w) =
      (Prog.run (fun o => (L'.update o).once) p w).map fun y => (y.1, C.mem y.2) := by
  induction p generalizing m w with
  | ret a => rfl
  | abort => rfl
  | step o k ih =>
    obtain ⟨asks, l, -, rest⟩ := within
    simp only [Prog.run, C.once_map asks]
    cases done : (L'.update o).once w with
    | none => rfl
    | some y => exact ih y.1 (rest y.1 (C.once_given asks done))

end Coding

/-! ## Threads -/

variable [DecidableEq ι] {weak : Prop} {call : H → H → Prog Op Res H → Prop} {P P' : Triers L' H ι}
  {n : Nat}

private theorem pool_moved (i : ι) (t : Trier L' H) (w : S') :
    C.pool (P.moved i t w) = (C.pool P).moved i (C.thread t) (C.mem w) := by
  simp only [Coding.pool, Triers.moved, Triers.mk.injEq, true_and, and_true]
  funext j
  by_cases same : j = i
  · subst same
    simp only [Function.update_self]
  · simp only [Function.update_of_ne same]

/-- A thread that keeps the terms. An update under way is none of a single access, and got there by
lost attempts. -/
structure Orderly (E : Terms Op Res) (t : Trier L' H) : Prop where
  fair : t.Fair
  update : ∀ o k seen x, t = .trying o k seen x → L'.single o = false
  within : ∃ m, E.AtMost m t.rest

omit [DecidableEq ι] in
private theorem next_asks {t : Trier L' H} {o : Op} {k : Res o → Prog Op Res H}
    (orderly : Orderly E t) (here : t.rest = .step o k) :
    E.asks o ∧ ∃ m, ∀ r, E.given o r → E.AtMost m (k r) := by
  obtain ⟨m, bounded⟩ := orderly.within
  rw [here] at bounded
  obtain ⟨asks, l, -, rest⟩ := bounded
  exact ⟨asks, l, rest⟩

private theorem trying_asks {o : Op} {k : Res o → Prog Op Res H} {seen : (L'.update o).Val} {x : X}
    (orderly : Orderly E (.trying o k seen x : Trier L' H)) :
    E.asks o ∧ L'.single o = false ∧ (L'.update o).Left x ∧
      ∃ m, ∀ r, E.given o r → E.AtMost m (k r) := by
  obtain ⟨asks, rest⟩ := next_asks orderly rfl
  exact ⟨asks, orderly.update o k seen x rfl, orderly.fair.1, rest⟩

private theorem orderly_between {p : Prog Op Res H} (within : ∃ m, E.AtMost m p) :
    Orderly E (.between p : Trier L' H) := by
  refine ⟨trivial, fun o k seen x bad => ?_, within⟩
  cases bad

private theorem react_coded {t t' : Trier L' H} {o : Op} {k : Res o → Prog Op Res H} {w : S'}
    {x : X} (orderly : Orderly E t) (here : t.rest = .step o k) (update : L'.single o = false)
    (left : (L'.update o).Left x) (reaction : L'.react o k w x = some t') :
    Orderly E t' ∧ L.react o k (C.mem w) x = some (C.thread t') := by
  obtain ⟨asks, m, rest⟩ := next_asks orderly here
  have same := C.react_map (k := k) (w := w) update asks left
  rw [reaction] at same
  refine ⟨?_, same⟩
  obtain ⟨v, -, ⟨r, gives, rfl⟩ | ⟨new, r, after, stores, rfl⟩⟩ := react_cases reaction
  · exact orderly_between ⟨m, rest r (C.answers o v x r update asks left (Or.inl gives))⟩
  · refine ⟨⟨left, new, r, after, stores⟩, fun _ _ _ _ same' => ?_, ?_⟩
    · cases same'
      exact update
    · rw [Trier.rest, ← here]
      exact orderly.within

theorem step_coded (orderly : ∀ i, Orderly E (P.thread i))
    (calls : ∀ h k p, call h k p → E.AtMost n p) (step : TryStep L' weak call P P') :
    (∀ i, Orderly E (P'.thread i)) ∧ TryStep L weak call (C.pool P) (C.pool P') := by
  have moved : ∀ {i : ι} {t : Trier L' H}, Orderly E t →
      ∀ j, Orderly E (Function.update P.thread i t j) := fun mine =>
    (Function.forall_update_iff P.thread fun _ t => Orderly E t).mpr ⟨mine, fun j _ => orderly j⟩
  have thread : ∀ {i : ι} {t : Trier L' H}, P.thread i = t → (C.pool P).thread i = C.thread t :=
    fun here => congrArg C.thread here
  cases step with
  | start i h k p idle allowed =>
    refine ⟨moved (orderly_between ⟨n, calls h k p allowed⟩), ?_⟩
    have begun : TryStep L weak call (C.pool P) _ := .start (C.pool P) i h k p (thread idle) allowed
    convert begun using 1
    have pools := pool_moved C (P := P) i (.between p) P.mem
    simp only [Coding.pool, Triers.moved, Triers.mk.injEq, true_and, and_true] at pools ⊢
    exact pools
  | access i o k r s next single done =>
    have here : (P.thread i).rest = .step o k := by rw [next]; rfl
    obtain ⟨asks, m, rest⟩ := next_asks (orderly i) here
    refine ⟨moved (orderly_between ⟨m, rest r (C.gives o P.mem r s single done)⟩), ?_⟩
    rw [pool_moved]
    refine .access (C.pool P) i o k r _ (thread next) ((C.single o).trans single) ?_
    exact (C.once o P.mem single asks).trans (by rw [done]; rfl)
  | load i o k t next update reaction =>
    obtain ⟨mine, same⟩ := react_coded C (orderly i) (by rw [next]; rfl) update .vars reaction
    refine ⟨moved mine, ?_⟩
    rw [pool_moved]
    refine .load (C.pool P) i o k _ (thread next) ((C.single o).trans update) ?_
    rw [C.vars]
    exact same
  | exchange i o k seen new x left r next same stores =>
    have mine := orderly i
    rw [next] at mine
    obtain ⟨asks, update, before, m, rest⟩ := trying_asks mine
    have given := C.answers o seen x r update asks before (Or.inr ⟨new, left, stores⟩)
    refine ⟨moved (orderly_between ⟨m, rest r given⟩), ?_⟩
    rw [pool_moved, ← C.store o seen new P.mem same]
    refine .exchange (C.pool P) i o k (C.val o seen) (C.val o new) x left r (thread next) ?_ ?_
    · exact (C.load o P.mem).trans (by rw [same]; rfl)
    · rw [C.attempt o seen x update asks before, stores]
      rfl
  | lost i o k seen new x left r t next changed stores reaction =>
    have mine := orderly i
    rw [next] at mine
    obtain ⟨asks, update, before, -⟩ := trying_asks mine
    obtain ⟨mine', same⟩ := react_coded C mine rfl update
      (.lost seen new r x left before stores) reaction
    refine ⟨moved mine', ?_⟩
    rw [pool_moved]
    refine .lost (C.pool P) i o k (C.val o seen) (C.val o new) x left r _ (thread next)
      (fun unchanged => changed ?_) ?_ same
    · have loaded := (C.load o P.mem).symm.trans unchanged
      obtain ⟨v, seen', here'⟩ := Option.map_eq_some_iff.mp loaded
      rw [seen', C.injective o update here']
    · rw [C.attempt o seen x update asks before, stores]
      rfl

theorem reaches_coded (calls : ∀ h k p, call h k p → E.AtMost n p) {w : S'} {h : ι → H}
    (reach : TryReaches L' weak call (Triers.idle L' w h) P) :
    (∀ i, Orderly E (P.thread i)) ∧
      TryReaches L weak call (Triers.idle L (C.mem w) h) (C.pool P) := by
  induction reach with
  | refl => exact ⟨fun i => orderly_between ⟨0, trivial⟩, .refl⟩
  | @tail Q Q' _ step ih =>
    obtain ⟨orderly, reach⟩ := ih
    obtain ⟨orderly', step'⟩ := step_coded C orderly calls step
    exact ⟨orderly', reach.tail step'⟩

variable (weak) in
theorem coded_solo {i : ι} {g k a : H} {p : Prog Op Res H} {m : Nat} {s : S}
    (idle : P.thread i = .between (.ret g)) (allowed : call g k p) (within : E.AtMost m p)
    (run : Prog.run (fun o => (L.update o).once) p (C.mem P.mem) = some (a, s)) :
    ∃ P', TryReaches L' weak call P P' ∧ C.mem P'.mem = s ∧
      P'.thread = Function.update P.thread i (.between (.ret a)) := by
  obtain ⟨⟨b, w'⟩, done, pair⟩ := Option.map_eq_some_iff.mp ((C.run_coded within).symm.trans run)
  obtain ⟨rfl, rfl⟩ := Prod.mk.inj pair
  have begin : TryStep L' weak call P
      ⟨P.mem, Function.update P.thread i (.between p), Function.update P.kept i k⟩ :=
    .start P i g k p idle allowed
  obtain ⟨P', reach, mem, thread, -⟩ : ∃ P', TryReaches L' weak call
      ⟨P.mem, Function.update P.thread i (.between p), Function.update P.kept i k⟩ P' ∧
        P'.mem = w' ∧ P'.thread = _ ∧ _ := tries_end (Function.update_self ..) done
  refine ⟨P', .head begin reach, by rw [mem], ?_⟩
  rw [thread]
  exact Function.update_idem ..

include C in
theorem coded_keep {J : S' → Prop} (calls : ∀ h k p, call h k p → E.AtMost n p) {w : S'} {h : ι → H}
    (single : ∀ o w r w', L'.single o = true → (L'.update o).once w = some (r, w') → J w → J w')
    (store : ∀ o w seen new, L'.single o = false → (L'.update o).load w = some seen → J w →
      J ((L'.update o).store new w))
    (reach : TryReaches L' weak call (Triers.idle L' w h) P) (start : J w) : J P.mem := by
  induction reach with
  | refl => exact start
  | @tail Q Q' reach step ih =>
    obtain ⟨orderly, -⟩ := reaches_coded C calls reach
    cases step with
    | access i o k r w' next alone done => exact single o _ r w' alone done ih
    | exchange i o k seen new x left r next same stores =>
      exact store o _ seen new ((orderly i).update o k seen x next) same ih
    | _ => exact ih

omit [DecidableEq ι] in
theorem fine_coded {i : ι} (orderly : Orderly E (P.thread i)) (fine : (C.pool P).Fine i) :
    P.Fine i := by
  have reacts : ∀ o k x, (P.thread i).rest = .step o k → L'.single o = false →
      (L'.update o).Left x → L.react o k (C.mem P.mem) x ≠ none → L'.react o k P.mem x ≠ none := by
    intro o k x here update left alive stuck
    obtain ⟨asks, -⟩ := next_asks orderly here
    refine alive ((C.react_map update asks left).trans ?_)
    rw [stuck]
    rfl
  simp only [Triers.Fine, Coding.pool] at fine ⊢
  cases here : P.thread i with
  | between p =>
    rw [here] at fine
    cases p with
    | ret h => trivial
    | abort => exact fine
    | step o k =>
      have rest : (P.thread i).rest = .step o k := by rw [here]; rfl
      obtain ⟨asks, -⟩ := next_asks orderly rest
      simp only [Coding.thread, C.single o] at fine
      dsimp only
      cases single : L'.single o with
      | true =>
        rw [if_pos single] at fine
        rw [if_pos rfl]
        intro stuck
        exact fine ((C.once o P.mem single asks).trans (by rw [stuck]; rfl))
      | false =>
        rw [if_neg (by simp [single]), C.vars] at fine
        rw [if_neg (by simp)]
        exact reacts o k _ rest single .vars fine
  | trying o k seen x =>
    rw [here] at fine
    have rest : (P.thread i).rest = .step o k := by rw [here]; rfl
    obtain ⟨asks, -⟩ := next_asks orderly rest
    have update := orderly.update o k seen x here
    have mine := orderly.fair
    rw [here] at mine
    intro new r left stores
    refine reacts o k left rest update (.lost seen new r x left mine.1 stores)
      (fine (C.val o new) r left ?_)
    rw [C.attempt o seen x update asks mine.1, stores]
    rfl

omit [DecidableEq ι] in
theorem next_possible {i : ι} {o : Op} {k : Res o → Prog Op Res H}
    (orderly : Orderly E (P.thread i)) (fine : P.Fine i) (here : (P.thread i).rest = .step o k) :
    if L'.single o then (L'.update o).once P.mem ≠ none else (L'.update o).load P.mem ≠ none := by
  have loaded : ∀ x, L'.react o k P.mem x ≠ none → (L'.update o).load P.mem ≠ none := by
    intro x alive absent
    refine alive ?_
    unfold Means.react
    rw [absent]
  unfold Triers.Fine at fine
  cases now : P.thread i with
  | between p =>
    rw [now] at fine here
    subst here
    dsimp only at fine
    split_ifs at fine ⊢
    · exact fine
    · exact loaded _ fine
  | trying o' k' seen x =>
    have update := orderly.update o' k' seen x now
    have fair := orderly.fair
    rw [now] at fine here fair
    cases here
    obtain ⟨-, new, r, left, stores⟩ := fair
    rw [if_neg (by simp [update])]
    exact loaded left (fine new r left stores)

end LLFree.Atomic.Encoded

/- module: LLFree/Upper/Solo
   digest: A client that runs alone does what its complete calls do. -/

import LLFree.Layout.Loops
import LLFree.Upper.Concurrent

set_option autoImplicit false
set_option relaxedAutoImplicit false

namespace LLFree.Upper.Solo

open LLFree.Atomic.Program LLFree.Atomic.Pool LLFree.Atomic.Expansion LLFree.Code.Types
open LLFree.Code.Entries LLFree.Code.Lower LLFree.Code.Shared LLFree.Code.Llfree LLFree.Code.Stack
open LLFree.Code.Accesses LLFree.Layout.Loops LLFree.Upper.Sequential LLFree.Upper.Blocks
open LLFree.Upper.Overwritten LLFree.Upper.Lending LLFree.Upper.Layers LLFree.Upper.Concurrent

variable {K : Config} {W : Drift K} {α : Type} {s s' : Llfree Lower}

/-! ## Runs without interference -/

private theorem step_frames {o : LoOp} {l l' : Lower} {r : o.Res} (done : o.exec l = some (r, l')) :
    l'.frames = l.frames := by
  have kept : ∀ {β : Type} (store : β → Lower) (new : Option β),
      (∀ v, (store v).frames = l.frames) → (update store l new).2.frames = l.frames := by
    intro β store new same
    cases new with
    | none => rfl
    | some v => exact same v
  cases o with
  | childLoad i =>
    simp only [LoOp.exec_childLoad] at done
    split_ifs at done
    cases done
    rfl
  | rowZeros row order =>
    simp only [LoOp.exec_rowZeros] at done
    split_ifs at done
    obtain ⟨found, -, same⟩ := Option.map_eq_some_iff.mp done
    cases found <;> cases same <;> rfl
  | _ =>
    simp only [LoOp.exec] at done
    split_ifs at done
    all_goals
      have same := congrArg Prod.snd (Option.some.inj done)
      rw [← show _ = l' from same]
      exact kept _ _ fun _ => rfl

private theorem runs_frames {p : LoProg α} {l l' : Lower} {a : α}
    (run : Prog.run LoOp.exec p l = some (a, l')) : l'.frames = l.frames := by
  induction p generalizing l with
  | ret b =>
    cases run
    rfl
  | abort => cases run
  | step o k ih =>
    rw [Prog.run_step, Option.bind_eq_some_iff] at run
    obtain ⟨⟨r, t⟩, first, rest⟩ := run
    exact (ih r rest).trans (step_frames first)

private theorem run_lowerWords (p : LoProg α) (s : Llfree Lower) :
    Prog.run (WordOp.exec K) (lowerWords p) s =
      (Prog.run LoOp.exec p s.lower).map fun x => (x.1, { s with lower := x.2 }) := by
  induction p generalizing s with
  | ret a => rfl
  | abort => rfl
  | step o k ih =>
    change Prog.run (WordOp.exec K) (.step (.lower o) fun r => lowerWords (k r)) s = _
    rw [Prog.run_step, Prog.run_step]
    simp only [WordOp.exec]
    cases done : o.exec s.lower with
    | none => rfl
    | some x => exact ih x.1 _

private theorem run_bufferWords (p : BufferProg α) (s : Llfree Lower) :
    Prog.run (WordOp.exec K) (bufferWords p) s =
      (Prog.run BufferOp.exec p s.lower).map fun x => (x.1, { s with lower := x.2 }) := by
  induction p generalizing s with
  | ret a => rfl
  | abort => rfl
  | step o k ih =>
    change Prog.run (WordOp.exec K) (.step (.buffer o) fun r => bufferWords (k r)) s = _
    rw [Prog.run_step, Prog.run_step]
    simp only [WordOp.exec]
    cases done : o.exec s.lower with
    | none => rfl
    | some x => exact ih x.1 _

theorem run_words (accepted : K.frames ≤ maxPages) (p : UpProg α)
    (same : s.lower.frames = K.frames) :
    Prog.run (WordOp.exec K) (words K p) s = Prog.run (UpOp.exec K) p s := by
  refine run_expand (I := fun s => s.lower.frames = K.frames) (fun o s here => ?_)
    (fun o s r s' here done => ?_) p same
  · cases o with
    | lower c => exact run_lowerWords _ s
    | lowerStatsAt frame order =>
      have run := (runs_lowerStatsAt (l := s.lower) (by rwa [here]) frame order).run
      rw [here] at run
      simp only [UpOp.words, run_bufferWords, run, UpOp.exec, Option.map_some]
    | table o =>
      simp only [UpOp.words, Prog.run_step, WordOp.exec, UpOp.exec]
      cases o.exec K s.upper <;> rfl
  · cases o with
    | lower c =>
      obtain ⟨x, run, rest⟩ := Option.map_eq_some_iff.mp done
      cases rest
      exact (runs_frames run).trans here
    | lowerStatsAt frame order =>
      cases done
      exact here
    | table o =>
      obtain ⟨x, run, rest⟩ := Option.map_eq_some_iff.mp done
      cases rest
      exact here

/-! ## One client at a time -/

section Clients

variable {ι : Type} [DecidableEq ι] {T : StackThreads ι} {i : ι} {h k a : Client}

theorem solo_call {q : UpProg Client} (accepted : K.frames ≤ maxPages) (idle : T.thread i = .ret h)
    (allowed : ClientThread K h k q) (same : T.mem.lower.frames = K.frames)
    (run : Prog.run (UpOp.exec K) q T.mem = some (a, s')) :
    ∃ T', Reaches (stackSys W) (fun _ _ => 1) (StackCall K) T T' ∧ T'.mem = s' ∧
      T'.thread = Function.update T.thread i (.ret a) ∧ T'.kept = Function.update T.kept i k := by
  have first : Step (stackSys W) (fun _ _ => (1 : Int)) (StackCall K) T
      (T.enter i k (words K q)) := .start T i h k _ idle ⟨q, allowed, rfl⟩
  have alone : Prog.run (WordOp.exec K) (words K q) (T.enter i k (words K q)).mem = some (a, s') :=
    (run_words accepted q same).trans run
  obtain ⟨T', rest, mem, thread, kept⟩ : ∃ T', Reaches (stackSys W)
      (fun _ _ => (1 : Int)) (StackCall K) (T.enter i k (words K q)) T' ∧ _ ∧ _ ∧ _ :=
    reaches_end (fun _ _ _ _ done => stackSys_exec done) (Function.update_self ..) alone
  refine ⟨T', .head first rest, mem, ?_, kept⟩
  rw [thread]
  exact Function.update_idem ..

theorem solo_get (frame : Option Nat) (request : Request) {r : Result}
    (accepted : K.frames ≤ maxPages) (idle : T.thread i = .ret h)
    (served : request.order ≤ treeOrder → Served request.order frame)
    (same : T.mem.lower.frames = K.frames)
    (run : (Call.get frame request).run K T.mem = some (some r, s')) :
    ∃ T', Reaches (stackSys W) (fun _ _ => 1) (StackCall K) T T' ∧ T'.mem = s' ∧
      T'.thread = Function.update T.thread i (.ret (h.received request r)) ∧
      T'.kept = Function.update T.kept i h := by
  obtain ⟨b, t, get, last⟩ := Prog.run_bind_eq_some.mp run
  obtain ⟨ans, rfl⟩ := Prod.mk.inj (Option.some.inj last)
  cases ans
  exact solo_call accepted idle (.get h frame request served) same (Prog.run_bind_some get)

theorem solo_put (b : Lent) (request : Request) {r : Result} (accepted : K.frames ≤ maxPages)
    (idle : T.thread i = .ret h) (own : b ∈ h.lent) (order : request.order = b.order)
    (same : T.mem.lower.frames = K.frames)
    (run : (Call.put b.frame request).run K T.mem = some (some r, s')) :
    ∃ T', Reaches (stackSys W) (fun _ _ => 1) (StackCall K) T T' ∧ T'.mem = s' ∧
      T'.thread = Function.update T.thread i
        (.ret (h.released b (validateRequest K request (some b.frame)) r)) ∧
      T'.kept = Function.update T.kept i (h.without b) := by
  obtain ⟨x, t, put, last⟩ := Prog.run_bind_eq_some.mp run
  obtain ⟨ans, rfl⟩ := Prod.mk.inj (Option.some.inj last)
  cases ans
  exact solo_call accepted idle (.put h b request own order) same (Prog.run_bind_some put)

end Clients

end LLFree.Upper.Solo

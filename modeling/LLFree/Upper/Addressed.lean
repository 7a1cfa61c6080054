/- module: LLFree/Upper/Addressed
   digest: The allocator on raw memory stays inside its buffers and mixes up no words. -/

import LLFree.Layout.Placement
import LLFree.Upper.Packed

set_option autoImplicit false
set_option relaxedAutoImplicit false

namespace LLFree.Upper.Addressed

open LLFree.Atomic.Retrying LLFree.Atomic.Encoded LLFree.Memory.Regions LLFree.Memory.Contents
open LLFree.Code.Types LLFree.Code.Entries LLFree.Code.Lower LLFree.Code.Trees LLFree.Code.Local
open LLFree.Code.Shared LLFree.Code.Setup LLFree.Code.Layout LLFree.Code.Stack
open LLFree.Code.Exchanges LLFree.Code.Metadata LLFree.Layout.Placement LLFree.Upper.Effort
open LLFree.Upper.BitFields LLFree.Upper.Packed LLFree.Upper.Sequential LLFree.Upper.Ledger
open LLFree.Upper.Slots LLFree.Upper.Progress LLFree.Upper.Lending LLFree.Upper.Concurrent
open LLFree.Upper.Lives LLFree.Upper.Exchanged

variable {K : Config} {m : Meta} {b : Bytes} {w w' : Words} {c c' : Cell}

/-! ## Memories that hold the same words -/

section Relocation

variable {M M' R : Type} {A : WordMemory M} {A' : WordMemory M'}

structure Relocation (A' : WordMemory M') (A : WordMemory M) where
  mem : M' → M
  load : ∀ c m, A.load c (mem m) = A'.load c m
  store : ∀ c seen word m, A'.load c m = some seen →
    A.store c word (mem m) = mem (A'.store c word m)

private theorem Relocation.both (N : Relocation A' A) (c : Cell) :
    (∀ m, A.load c (N.mem m) = A'.load c m) ∧
      ∀ seen word m, A'.load c m = some seen →
        A.store c word (N.mem m) = N.mem (A'.store c word m) :=
  ⟨N.load c, N.store c⟩

def relocatedVal (N : Relocation A' A) :
    (o : WordOp) → (packedUpdate A' K o).Val → (packedUpdate A K o).Val
  | .lower (.childInc ..) => id
  | .lower (.childDec ..) => id
  | .lower (.rowZeros ..) => id
  | .lower (.rowToggle ..) => id
  | .lower (.childLoad ..) => N.mem
  | .lower (.childCas ..) => N.mem
  | .lower (.rowCas ..) => N.mem
  | .buffer _ => N.mem
  | .table (.treesLoad ..) => N.mem
  | .table (.treesCas ..) => N.mem
  | .table (.treesSteal ..) => id
  | .table (.treesPut ..) => id
  | .table (.treesReserveOrSteal ..) => id
  | .table (.treesUnreserve ..) => id
  | .table (.treesSyncSteal ..) => id
  | .table (.localDec ..) => id
  | .table (.localInc ..) => id
  | .table (.localSetStart ..) => id
  | .table (.localSwap ..) => id
  | .table (.localTake ..) => id

-- `val` takes what one memory holds to what the other one does.
private structure Carries (mem : M' → M) (u' : Update M' Nat R) (u : Update M Nat R)
    (val : u'.Val → u.Val) : Prop where
  vars : u.vars = u'.vars
  load : ∀ m, u.load (mem m) = (u'.load m).map val
  store : ∀ seen v m, u'.load m = some seen → u.store (val v) (mem m) = mem (u'.store v m)

-- `val` takes reactions to reactions.
private structure Reacts (u' : Update M' Nat R) (u : Update M Nat R) (val : u'.Val → u.Val) :
    Prop where
  injective : Function.Injective val
  attempt : ∀ v x, u.attempt (val v) x = mapAttempt val (u'.attempt v x)

variable (N : Relocation A' A)

private theorem carries_word {V W : Type} {u : Update V Nat R} {mem : M' → M} {load : M → Option W}
    {load' : M' → Option W} {store : W → M → M} {store' : W → M' → M'} {decode : W → u.Val}
    {encode : u.Val → W} (same : (∀ m, load (mem m) = load' m) ∧
      ∀ seen word m, load' m = some seen → store word (mem m) = mem (store' word m)) :
    Carries mem (onWords u decode encode load' store') (onWords u decode encode load store) id :=
  ⟨rfl, fun m => (same.1 m).trans Option.map_id'.symm, same.2⟩

private theorem carries_exec {exec' : M' → Option (R × M')} {exec : M → Option (R × M)} :
    Carries N.mem (.ofExec exec' 0) (.ofExec exec 0) N.mem :=
  ⟨rfl, fun _ => rfl, fun _ _ _ _ => rfl⟩

private theorem reacts_word {V W : Type} {u : Update V Nat R} {load : M → Option W}
    {load' : M' → Option W} {store : W → M → M} {store' : W → M' → M'} {decode : W → u.Val}
    {encode : u.Val → W} :
    Reacts (onWords u decode encode load' store') (onWords u decode encode load store) id := by
  refine ⟨Function.injective_id, fun v x => ?_⟩
  simp only [onWords, id]
  cases u.attempt (decode v) x <;> rfl

private theorem carries (o : WordOp) :
    Carries N.mem (packedUpdate A' K o) (packedUpdate A K o) (relocatedVal N o) := by
  cases o with
  | buffer o => exact carries_exec N
  | lower o =>
    cases o with
    | childLoad i => exact carries_exec N
    | childCas i expected desired => exact carries_exec N
    | rowCas row expected desired => exact carries_exec N
    | _ => exact carries_word (N.both _)
  | table o =>
    cases o with
    | treesLoad idx => exact carries_exec N
    | treesCas idx expected desired => exact carries_exec N
    | _ => exact carries_word (N.both _)

private theorem reacts {o : WordOp} (update : isSingle o = false) :
    Reacts (packedUpdate A' K o) (packedUpdate A K o) (relocatedVal N o) := by
  cases o with
  | buffer o => cases update
  | lower o =>
    cases o with
    | childInc i order => exact reacts_word
    | childDec i order => exact reacts_word
    | rowZeros row order => exact reacts_word
    | rowToggle row mask expected => exact reacts_word
    | _ => cases update
  | table o =>
    cases o with
    | treesLoad idx => cases update
    | treesCas idx expected desired => cases update
    | _ => exact reacts_word

private theorem exchange_carried (c : Cell) (expected desired : BitVec c.bits) (done : R)
    (gone : BitVec c.bits → R) (m : M') : exchange A c expected desired done gone (N.mem m) =
      (exchange A' c expected desired done gone m).map fun y => (y.1, N.mem y.2) := by
  unfold exchange
  rw [N.load]
  cases here : A'.load c m with
  | none => rfl
  | some word =>
    simp only [Option.map_some]
    split_ifs
    · rw [N.store c word desired m here]
    · rfl

private theorem single_carried (o : WordOp) (m : M') :
    singleExec A o (N.mem m) = (singleExec A' o m).map fun y => (y.1, N.mem y.2) := by
  have loads : ∀ {T : Type} (c : Cell) (f : BitVec c.bits → T),
      ((A.load c (N.mem m)).map fun word => (f word, N.mem m)) =
        ((A'.load c m).map fun word => (f word, m)).map fun y => (y.1, N.mem y.2) := by
    intro T c f
    rw [N.load, Option.map_map]
    rfl
  have stores : ∀ (c : Cell) (word : BitVec c.bits),
      ((A.load c (N.mem m)).map fun _ => ((), A.store c word (N.mem m))) =
        ((A'.load c m).map fun _ => ((), A'.store c word m)).map fun y => (y.1, N.mem y.2) := by
    intro c word
    rw [N.load]
    cases here : A'.load c m with
    | none => rfl
    | some seen => simp only [Option.map_some, N.store c seen word m here]
  cases o with
  | buffer o =>
    cases o with
    | childLoad group entry => exact loads (.child _) childOf
    | childStore group entry child => exact stores (.child _) (childWord child)
    | rowLoad field row => exact loads (.row _) id
    | rowStore field row v => exact stores (.row _) v
  | lower o =>
    cases o with
    | childLoad i => exact loads (.child i) childOf
    | childCas i expected desired => exact exchange_carried N (.child i) _ _ _ _ m
    | rowCas row expected desired => exact exchange_carried N (.row row) _ _ _ _ m
    | _ => rfl
  | table o =>
    cases o with
    | treesLoad idx => exact loads (.tree idx) treeOf
    | treesCas idx expected desired => exact exchange_carried N (.tree idx) _ _ _ _ m
    | _ => rfl

private theorem packedUpdate_single {o : WordOp} (A : WordMemory M) (single : isSingle o = true) :
    packedUpdate A K o = .ofExec (singleExec A o) 0 := by
  cases o with
  | buffer o => cases o <;> rfl
  | lower o => cases o <;> first | rfl | cases single
  | table o => cases o <;> first | rfl | cases single

def Relocation.coding (N : Relocation A' A) :
    Coding (wordTerms True) (packedMeans A' K) (packedMeans A K) where
  mem := N.mem
  val := relocatedVal N
  injective _ update := (reacts N update).injective
  single _ := rfl
  vars o := (carries N o).vars
  load o := (carries N o).load
  store o seen v m here := (carries N o).store seen v m here
  once o m single _ := by
    change (packedUpdate A K o).once (N.mem m) = ((packedUpdate A' K o).once m).map _
    rw [packedUpdate_single A single, packedUpdate_single A' single, Update.once_ofExec,
      Update.once_ofExec]
    exact single_carried N o m
  attempt o v x update _ _ := (reacts N update).attempt v x
  gives _ _ _ _ single done := single_given single done
  answers _ _ _ _ update _ _ answers := update_given answers update

end Relocation

/-! ## Words in memory -/

abbrev sized (K : Config) : Lower := { zeroed with frames := K.frames }

def readCell (K : Config) (m : Meta) (b : Bytes) (c : Cell) : BitVec c.bits :=
  readWord c.bits b (c.address (initPointers m K.frames) (localHeader K.classing))

def writeCell (K : Config) (m : Meta) (c : Cell) (word : BitVec c.bits) (b : Bytes) : Bytes :=
  writeWord (c.address (initPointers m K.frames) (localHeader K.classing)) word b

def cellOr (K : Config) (m : Meta) (b : Bytes) (c : Cell) : BitVec c.bits :=
  if c.Exists K (sized K) then readCell K m b c else 0#_

def wordsAt (K : Config) (m : Meta) (b : Bytes) : Words where
  frames := K.frames
  children i := cellOr K m b (.child i)
  rows i := cellOr K m b (.row i)
  trees idx := cellOr K m b (.tree idx)
  slots cls index := cellOr K m b (.slot cls index)

def bytesMemory (K : Config) (m : Meta) : WordMemory Bytes where
  load c b := if c.Exists K (sized K) then some (readCell K m b c) else none
  store := writeCell K m

private theorem whole_bytes (c : Cell) : 8 ∣ c.bits := by
  cases c with
  | child i => exact Dvd.intro 2 rfl
  | tree idx => exact Dvd.intro 4 rfl
  | _ => exact Dvd.intro 8 rfl

theorem wordsAt_get (c : Cell) : (wordsAt K m b).get c = cellOr K m b c := by
  cases c <;> rfl

private theorem exists_wordsAt :
    c.Exists K (wordsAt K m b).entries.lower ↔ c.Exists K (sized K) := by
  cases c <;> exact Iff.rfl

theorem words_ext (frames : w.frames = w'.frames) (same : ∀ c, w.get c = w'.get c) : w = w' := by
  cases w
  cases w'
  simp only [Words.mk.injEq]
  exact ⟨frames, funext fun i => same (.child i), funext fun i => same (.row i),
    funext fun i => same (.tree i), funext fun i => funext fun j => same (.slot i j)⟩

theorem get_set_same (word : BitVec c.bits) : (Words.set c word w).get c = word := by
  cases c <;> simp [Words.set, Words.get]

theorem get_set_other (word : BitVec c.bits) (other : c' ≠ c) :
    (Words.set c word w).get c' = w.get c' := by
  cases c with
  | slot cls index =>
    cases c' with
    | slot cls' index' =>
      simp only [Words.set, Words.get]
      by_cases one : cls' = cls
      · subst one
        have differ : index' ≠ index := fun bad => other (by rw [bad])
        rw [Function.update_self, Function.update_of_ne differ]
      · rw [Function.update_of_ne one]
    | _ => rfl
  | child i =>
    cases c' with
    | child j =>
      have differ : j ≠ i := fun bad => other (by rw [bad])
      exact Function.update_of_ne differ ..
    | _ => rfl
  | row i =>
    cases c' with
    | row j =>
      have differ : j ≠ i := fun bad => other (by rw [bad])
      exact Function.update_of_ne differ ..
    | _ => rfl
  | tree idx =>
    cases c' with
    | tree idx' =>
      have differ : idx' ≠ idx := fun bad => other (by rw [bad])
      exact Function.update_of_ne differ ..
    | _ => rfl

theorem load_wordsAt (c : Cell) (b : Bytes) :
    (Words.memory K).load c (wordsAt K m b) = (bytesMemory K m).load c b := by
  simp only [Words.memory, bytesMemory, exists_wordsAt, wordsAt_get]
  split_ifs with here
  · rw [cellOr, if_pos here]
  · rfl

theorem store_wordsAt (placed : Placed K m) (here : c.Exists K (sized K)) (word : BitVec c.bits)
    (b : Bytes) : (Words.memory K).store c word (wordsAt K m b) =
      wordsAt K m ((bytesMemory K m).store c word b) := by
  apply words_ext
  · cases c <;> rfl
  · intro c'
    rw [wordsAt_get, cellOr]
    change (Words.set c word (wordsAt K m b)).get c' = _
    by_cases one : c' = c
    · subst one
      rw [get_set_same, if_pos here]
      exact (readWord_writeWord (whole_bytes c') word).symm
    · rw [get_set_other word one, wordsAt_get, cellOr]
      split_ifs with here'
      · exact (readWord_apart (whole_bytes c') word
          (words_apart placed (l := sized K) rfl here' here one)).symm
      · rfl

def inBuffers (placed : Placed K m) : Relocation (bytesMemory K m) (Words.memory K) where
  mem := wordsAt K m
  load := load_wordsAt
  store c seen word b here := by
    refine store_wordsAt placed ?_ word b
    by_contra absent
    simp only [bytesMemory, if_neg absent] at here
    cases here

/-! ## The word of an access -/

def cellOf : WordOp → Cell
  | .lower (.childInc i _) | .lower (.childDec i _) | .lower (.childLoad i)
  | .lower (.childCas i _ _) => .child i
  | .lower (.rowZeros row _) | .lower (.rowToggle row _ _) | .lower (.rowCas row _ _) => .row row
  | .buffer (.childLoad group entry) | .buffer (.childStore group entry _) =>
    .child (group * treeChildren + entry)
  | .buffer (.rowLoad field row) | .buffer (.rowStore field row _) => .row (field * fieldN + row)
  | .table (.treesLoad idx) | .table (.treesCas idx _ _) | .table (.treesSteal idx _ _)
  | .table (.treesPut idx _) | .table (.treesReserveOrSteal idx _ _)
  | .table (.treesUnreserve idx _ _) | .table (.treesSyncSteal idx _) => .tree idx
  | .table (.localDec cls index _ _) | .table (.localInc cls index _ _)
  | .table (.localSetStart cls index _) | .table (.localSwap cls index _)
  | .table (.localTake cls index _ _) => .slot cls index

private theorem cell_loaded {M : Type} {A : WordMemory M} {o : WordOp} {s : M}
    (update : isSingle o = false) (loaded : (packedUpdate A K o).load s ≠ none) :
    A.load (cellOf o) s ≠ none := by
  cases o with
  | buffer o => cases update
  | lower o => cases o <;> first | exact loaded | cases update
  | table o => cases o <;> first | exact loaded | cases update

private theorem cell_single {M : Type} {A : WordMemory M} {o : WordOp} {s : M}
    (single : isSingle o = true) (done : (packedUpdate A K o).once s ≠ none) :
    A.load (cellOf o) s ≠ none := by
  rw [packedUpdate_single A single, Update.once_ofExec] at done
  intro absent
  apply done
  cases o with
  | buffer o => cases o <;> exact Option.map_eq_none_iff.mpr absent
  | lower o => cases o <;> first | exact Option.map_eq_none_iff.mpr absent | cases single
  | table o => cases o <;> first | exact Option.map_eq_none_iff.mpr absent | cases single

private theorem cell_stored {M : Type} {A : WordMemory M} {o : WordOp}
    (v : (packedUpdate A K o).Val) (s : M) (update : isSingle o = false) :
    ∃ word, (packedUpdate A K o).store v s = A.store (cellOf o) word s := by
  cases o with
  | buffer o => cases update
  | lower o => cases o <;> first | exact ⟨v, rfl⟩ | cases update
  | table o => cases o <;> first | exact ⟨v, rfl⟩ | cases update

private theorem cell_exchanged {M : Type} {A : WordMemory M} {o : WordOp} {s s' : M} {r : o.Res}
    (done : singleExec A o s = some (r, s')) : s' = s ∨ ∃ word, s' = A.store (cellOf o) word s := by
  have exchanged : ∀ {R : Type} {c : Cell} {expected desired : BitVec c.bits} {yes : R}
      {no : BitVec c.bits → R} {r : R}, exchange A c expected desired yes no s = some (r, s') →
      s' = s ∨ ∃ word, s' = A.store c word s := by
    intro R c expected desired yes no r done
    obtain ⟨word, -, same⟩ := Option.map_eq_some_iff.mp done
    split_ifs at same
    · exact Or.inr ⟨desired, (Prod.mk.inj same).2.symm⟩
    · exact Or.inl (Prod.mk.inj same).2.symm
  have loaded : ∀ {R : Type} {c : Cell} {f : BitVec c.bits → R} {r : R},
      ((A.load c s).map fun word => (f word, s)) = some (r, s') → s' = s := by
    intro R c f r done
    obtain ⟨word, -, same⟩ := Option.map_eq_some_iff.mp done
    exact (Prod.mk.inj same).2.symm
  cases o with
  | buffer o =>
    cases o with
    | childLoad group entry => exact Or.inl (loaded (c := .child _) done)
    | childStore group entry child =>
      obtain ⟨seen, -, same⟩ := Option.map_eq_some_iff.mp done
      exact Or.inr ⟨_, (Prod.mk.inj same).2.symm⟩
    | rowLoad field row => exact Or.inl (loaded (c := .row _) done)
    | rowStore field row v =>
      obtain ⟨seen, -, same⟩ := Option.map_eq_some_iff.mp done
      exact Or.inr ⟨_, (Prod.mk.inj same).2.symm⟩
  | lower o =>
    cases o with
    | childLoad i => exact Or.inl (loaded (c := .child i) done)
    | childCas i expected desired => exact exchanged (c := .child i) done
    | rowCas row expected desired => exact exchanged (c := .row row) done
    | _ => cases done
  | table o =>
    cases o with
    | treesLoad idx => exact Or.inl (loaded (c := .tree idx) done)
    | treesCas idx expected desired => exact exchanged (c := .tree idx) done
    | _ => cases done

/-! ## Clients over memory -/

abbrev BytesClients (K : Config) (m : Meta) (ι : Type) :=
  Triers (packedMeans (bytesMemory K m) K) Client ι

variable {ι : Type} [DecidableEq ι] {h : ι → Client} {P : BytesClients K m ι}

def BytesReaches (K : Config) (m : Meta) (b : Bytes) (h : ι → Client) (P : BytesClients K m ι) :
    Prop :=
  TryReaches (packedMeans (bytesMemory K m) K) True (StackCall K) (Triers.idle _ b h) P

/-- `PackedLife` in buffers that `llfree_init` has accepted, each time anew. -/
inductive BytesLife (K : Config) : Meta → Bytes → (ι → Client) → Prop
  | first (mode : InitMode) (m : Meta) (b : Bytes) (placed : Placed K m) (fresh : FreshMode mode)
      (init : Initialised K mode (wordsAt K m b).entries) : BytesLife K m b (newcomers ι)
  | again (m m' : Meta) (b b' : Bytes) (h h' : ι → Client) (P : BytesClients K m ι) (upper : Upper)
      (life : BytesLife K m b h) (placed : Placed K m) (placed' : Placed K m')
      (reach : BytesReaches K m b h P)
      (init : llfreeInit K .recover ⟨(wordsAt K m P.mem).entries.lower, upper⟩ =
        some (llfreeOk 0 0, (wordsAt K m' b').entries))
      (known : ∀ i, (h' i).lent.Sublist
        ((indivisible (unpacked ((inBuffers placed).coding.pool P))).data i).lent)
      (fine : ∀ i, (h' i).refused = 0) : BytesLife K m' b' h'

theorem life_placed (life : BytesLife K m b h) : Placed K m := by
  cases life with
  | first mode m b placed fresh init => exact placed
  | again m m' b b' h h' P upper life placed placed' reach init known fine => exact placed'

theorem packed_of_bytes (placed : Placed K m) (reach : BytesReaches K m b h P) :
    (∀ i, Orderly (wordTerms True) (P.thread i)) ∧
      PackedReaches K (wordsAt K m b) h ((inBuffers placed).coding.pool P) :=
  reaches_coded (inBuffers placed).coding (fun _ _ _ allowed => call_atMost allowed) reach

theorem life_of_bytes (life : BytesLife K m b h) : PackedLife K (wordsAt K m b) h := by
  induction life with
  | first mode m b placed fresh init => exact .first mode _ fresh init
  | again m m' b b' h h' P upper life placed placed' reach init known fine ih =>
    obtain ⟨-, reach'⟩ := packed_of_bytes placed reach
    exact .again _ _ h h' _ upper ih reach' init known fine

def Spare (K : Config) (m : Meta) (x : Nat) : Prop := ∀ c, c.Exists K (sized K) →
  x < (place K m c).start ∨ (place K m c).stop ≤ x

private theorem spare_stored {o : WordOp} {b b' : Bytes} {x : Nat} (spare : Spare K m x)
    (loaded : (bytesMemory K m).load (cellOf o) b ≠ none) (word : BitVec (cellOf o).bits)
    (stored : b' = (bytesMemory K m).store (cellOf o) word b) : b' x = b x := by
  have here : (cellOf o).Exists K (sized K) := by
    by_contra absent
    exact loaded (if_neg absent)
  rw [stored]
  exact writeWord_outside word (spare (cellOf o) here)

theorem spare_kept {x : Nat} (placed : Placed K m) (spare : Spare K m x)
    (reach : BytesReaches K m b h P) : P.mem x = b x := by
  refine coded_keep (J := fun b' => b' x = b x) (inBuffers placed).coding
    (fun _ _ _ allowed => call_atMost allowed) (fun o s r s' single done same => ?_)
    (fun o s seen new update here same => ?_) reach rfl
  · have loaded : (bytesMemory K m).load (cellOf o) s ≠ none :=
      cell_single single (Option.ne_none_iff_exists'.mpr ⟨_, done⟩)
    have exec : (packedUpdate (bytesMemory K m) K o).once s = some (r, s') := done
    rw [packedUpdate_single _ single, Update.once_ofExec] at exec
    rcases cell_exchanged exec with rfl | ⟨word, stored⟩
    · exact same
    · exact (spare_stored spare loaded word stored).trans same
  · have loaded : (bytesMemory K m).load (cellOf o) s ≠ none :=
      cell_loaded update (Option.ne_none_iff_exists'.mpr ⟨_, here⟩)
    obtain ⟨word, stored⟩ := cell_stored (A := bytesMemory K m) new s update
    exact (spare_stored spare loaded word stored).trans same

/-- Whatever the clients do in buffers that `check_meta` accepts: loads and exchanges of memory
are those of separate words, each of them is aligned and within the buffer of its word, no callback
fails an assertion, and no other byte changes. -/
theorem memory_safe [Fintype ι] (byClass : ByClass K.policy) (fits : Fits K)
    (life : BytesLife K m b h) (reach : BytesReaches K m b h P) :
    InitAsserts K m ∧ PackedLife K (wordsAt K m b) h ∧
    (∃ placed : Placed K m,
      PackedReaches K (wordsAt K m b) h ((inBuffers placed).coding.pool P)) ∧
    (∀ i, P.Fine i) ∧
    (∀ i o k, (P.thread i).rest = .step o k →
      (place K m (cellOf o)).align ∣ (place K m (cellOf o)).start ∧
        (place K m (cellOf o)).Within (buffer K m (cellOf o))) ∧
    ∀ x, Spare K m x → P.mem x = b x := by
  have placed := life_placed life
  have whole := life_of_bytes life
  obtain ⟨orderly, reach'⟩ := packed_of_bytes placed reach
  have fine : ∀ i, P.Fine i := fun i =>
    fine_coded (inBuffers placed).coding (orderly i) (words_fine byClass fits whole reach' i)
  refine ⟨init_asserts placed, whole, ⟨placed, reach'⟩, fine, fun i o k here => ?_,
    fun x spare => spare_kept placed spare reach⟩
  apply word_inside placed (l := sized K) rfl
  by_contra absent
  have none : (bytesMemory K m).load (cellOf o) P.mem = none := if_neg absent
  have possible := next_possible (orderly i) (fine i) here
  split_ifs at possible with single
  · exact cell_single single possible none
  · exact cell_loaded (Bool.eq_false_iff.mpr single) possible none

/-! ## Memory with given words -/

private theorem lower_elsewhere (buffers : Lower) (mode : InitMode) :
    (∀ i, ¬i < (sized K).entryCount →
      (lowerInit buffers K.frames mode).2.children i = buffers.children i) ∧
    ∀ i, ¬i < (sized K).rowCount → (lowerInit buffers K.frames mode).2.rows i = buffers.rows i := by
  have children : ∀ i, ¬i < (sized K).entryCount → ¬i < (sized K).childCount := by
    intro i outside
    simp only [Lower.entryCount, alignUp, alignDown, treeChildren] at outside
    omega
  have rows : ∀ i, ¬i < (sized K).rowCount → ¬i / fieldN < (sized K).childCount := by
    intro i outside
    simp only [Lower.rowCount, fieldN] at outside ⊢
    omega
  have count : ∀ l : Lower, Lower.childCount { l with frames := K.frames } = (sized K).childCount :=
    fun _ => rfl
  have entries : ∀ l : Lower, Lower.entryCount { l with frames := K.frames } =
      (sized K).entryCount :=
    fun _ => rfl
  constructor
  · intro i outside
    cases mode <;> simp only [lowerInit, lowerClear, lowerRecover, count, entries,
      if_neg (children i outside), if_neg outside]
  · intro i outside
    have past := rows i outside
    cases mode <;> simp [lowerInit, lowerClear, lowerRecover, count, past]

private theorem trees_elsewhere {mode : InitMode} {lower : Lower} {buffer trees : Nat → Tree}
    {idx : Nat} (built : treesInit K mode lower buffer = some trees) (outside : ¬idx < K.treesLen) :
    trees idx = buffer idx := by
  unfold treesInit at built
  dsimp only at built
  split_ifs at built
  · obtain rfl := Option.some.inj built
    rfl
  · obtain rfl := Option.some.inj built
    exact if_neg outside

theorem init_elsewhere {mode : InitMode} {buffers s : Llfree Lower} {r : Result}
    (init : llfreeInit K mode buffers = some (r, s)) (absent : ¬c.Exists K (sized K)) :
    (packed s).get c = (packed buffers).get c := by
  obtain ⟨children, rows⟩ := lower_elsewhere (K := K) buffers.lower mode
  unfold llfreeInit at init
  split_ifs at init
  · cases init
    rfl
  · revert init children rows
    cases lowerInit buffers.lower K.frames mode with
    | mk res l =>
      intro children rows init
      dsimp only at children rows init
      split_ifs at init
      · cases init
        cases c with
        | child i => exact congrArg childWord (children i absent)
        | row i => exact rows i absent
        | _ => rfl
      · obtain ⟨trees, built, same⟩ := Option.map_eq_some_iff.mp init
        obtain ⟨-, rfl⟩ := Prod.mk.inj same
        cases c with
        | child i => exact congrArg childWord (children i absent)
        | row i => exact rows i absent
        | tree idx => exact congrArg treeWord (trees_elsewhere built absent)
        | slot cls index => exact congrArg slotWord (if_neg absent)

theorem exists_memory (placed : Placed K m) (w : Words) (frames : w.frames = K.frames)
    (zero : ∀ c, ¬c.Exists K (sized K) → w.get c = 0#_) : ∃ b, wordsAt K m b = w := by
  classical
  let covers : Nat → Cell → Prop := fun x c => c.Exists K (sized K) ∧
    (place K m c).start ≤ x ∧ x < (place K m c).stop
  let b : Bytes := fun x => if some : ∃ c, covers x c then
    (w.get some.choose).extractLsb' (8 * (x - (place K m some.choose).start)) 8 else 0#8
  refine ⟨b, words_ext frames.symm fun c => ?_⟩
  rw [wordsAt_get, cellOr]
  split_ifs with here
  · refine Eq.trans (readWord_congr (whole_bytes c) fun x low high => ?_)
      (readWord_writeWord (b := b) (whole_bytes c) (w.get c))
    have mine : covers x c := ⟨here, low, high⟩
    have found : ∃ c', covers x c' := ⟨c, mine⟩
    have only : found.choose = c := by
      by_contra other
      obtain ⟨here', low', high'⟩ := found.choose_spec
      have apart := words_apart placed (l := sized K) rfl here' here other
      obtain ⟨-, low, high⟩ := mine
      simp only [Region.Apart] at apart
      omega
    have byte : b x = (w.get found.choose).extractLsb'
        (8 * (x - (place K m found.choose).start)) 8 :=
      dif_pos found
    rw [byte, only, writeWord, if_pos ⟨low, high⟩]
    rfl
  · exact (zero c here).symm

def oneMeta : Meta := ⟨4096, 8192, 12288⟩

theorem one_placed : Placed oneTree oneMeta :=
  ⟨by decide, by decide, by decide, ⟨by decide, by decide, by decide⟩, by decide⟩

private theorem zeroed_elsewhere (mode : InitMode) (absent : ¬c.Exists K (sized K)) :
    (packed (initZeroed K mode)).get c = 0#_ := by
  have zeros : (packed ⟨zeroed, fun _ => ⟨false, 0, 0⟩, fun _ _ => noReserved⟩).get c = 0#_ := by
    cases c with
    | child i => exact (by decide : childWord ⟨0, false⟩ = 0#16)
    | row i => rfl
    | tree idx => exact (by decide : treeWord ⟨false, 0, 0⟩ = 0#32)
    | slot cls index => exact (by decide : slotWord noReserved = 0#64)
  unfold initZeroed
  dsimp only
  cases init : llfreeInit K mode ⟨zeroed, fun _ => ⟨false, 0, 0⟩, fun _ _ => noReserved⟩ with
  | none => exact zeros
  | some y => exact (init_elsewhere init absent).trans zeros

/-- One of two clients has allocated a frame. -/
theorem memory_safe_one : ∃ (b : Bytes) (P : BytesClients oneTree oneMeta (Fin 2)),
    wordsAt oneTree oneMeta b = packed (initZeroed oneTree .free) ∧
      P.thread 0 = .between (.ret ⟨[⟨0, 0, 0⟩], 0⟩) ∧ (∀ i, P.Fine i) ∧
      ∀ x, Spare oneTree oneMeta x → P.mem x = b x := by
  obtain ⟨b, words⟩ := exists_memory one_placed (packed (initZeroed oneTree .free)) rfl
    fun c absent => zeroed_elsewhere .free absent
  obtain ⟨t, alone⟩ := one_alone
  have begun : Initialised oneTree .free (initZeroed oneTree .free) :=
    initZeroed_initialised (by decide)
  rw [← packed_zeroed .free] at begun
  rw [← words] at alone begun
  obtain ⟨⟨a, w'⟩, done, pair⟩ := Option.map_eq_some_iff.mp
    (((packing (by decide)).run_coded (call_atMost one_call)).symm.trans alone)
  obtain ⟨rfl, -⟩ := Prod.mk.inj pair
  obtain ⟨P, reach, -, thread⟩ := coded_solo (inBuffers one_placed).coding True (i := (0 : Fin 2))
    (P := Triers.idle _ b (newcomers (Fin 2))) rfl one_call
    (call_atMost one_call) done
  obtain ⟨-, -, -, fine, -, spare⟩ := memory_safe oneTree_standard.byClass (by decide)
    (.first .free oneMeta b one_placed (Or.inl rfl) begun) reach
  exact ⟨b, P, words, by rw [thread]; rfl, fine, spare⟩

end LLFree.Upper.Addressed

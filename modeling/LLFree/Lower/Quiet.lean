/- module: LLFree/Lower/Quiet
   digest: The lower allocator between calls: entries match bitfields, blocks move as a whole. -/

import LLFree.Lower.GetPut

set_option autoImplicit false
set_option relaxedAutoImplicit false

namespace LLFree.Lower.Quiet

open LLFree.Atomic.Program LLFree.Atomic.Escrow LLFree.Code.Types LLFree.Code.Entries
open LLFree.Code.Lower LLFree.Lower.Rows LLFree.Lower.Holding LLFree.Lower.Holding.Held
open LLFree.Lower.Steps LLFree.Lower.Fields LLFree.Lower.GetPut

/-- A frame is free when its child is not huge and its bit is clear. -/
def IsFree (l : Lower) (g : Nat) : Prop :=
  g / 512 < l.childCount ∧ (l.children (g / 512)).huge = false ∧ bitSet l g = false

instance (l : Lower) (g : Nat) : Decidable (IsFree l g) := by
  unfold IsFree
  infer_instance

/-- No call is in progress: every entry matches its bitfield, padding entries are huge, and
the bits past the last frame are set. -/
structure Consistent (N : Nat) (l : Lower) : Prop where
  frames : l.frames = N
  huge : ∀ c < l.entryCount, (l.children c).huge = true →
    (l.children c).free = 0 ∧ (c < l.childCount → ∀ r < 8, l.rows (c * 8 + r) = 0#64)
  small : ∀ c < l.entryCount, (l.children c).huge = false →
    c < l.childCount ∧ (l.children c).free + fieldCountOnes l c = 512
  tail : ∀ g, N ≤ g → ¬ IsFree l g

def allocated (l : Lower) : Held where
  credit := 0
  bit := fun g => if (l.children (g / 512)).huge then 0 else (bitSet l g).toNat
  huge := fun c => if (l.children c).huge then {0} else 0

variable {N : Nat} {l l' : Lower}

theorem Consistent.backed (cons : Consistent N l) : Backed N l (allocated l) := by
  refine ⟨cons.frames, fun c inside kind => ?_, fun c inside kind => ?_⟩
  · obtain ⟨real, count⟩ := cons.small c inside kind
    refine ⟨real, by simpa [allocated] using count, fun g here => ?_, by simp [allocated, kind]⟩
    subst here
    simp [allocated, kind]
  · obtain ⟨zero, rows⟩ := cons.huge c inside kind
    refine ⟨zero, rfl, fun g here => ?_, 0, by omega, by simp [allocated, kind],
      fun real r less => ?_⟩
    · subst here
      simp [allocated, kind]
    · simpa using rows real r less

theorem isFree_iff {m : Held} (backed : Backed N l m) {g : Nat} (real : g / 512 < childrenOf N) :
    IsFree l g ↔ ¬ Covers m g := by
  have bound : g / 512 < l.entryCount := by
    rw [backed.entryCount_eq]
    exact real.trans_le (childrenOf_le_entriesOf N)
  rw [← backed.childCount_eq] at real
  cases kind : (l.children (g / 512)).huge with
  | false =>
    have held := backed.small _ bound kind
    have bit := held.bits g rfl
    cases on : bitSet l g <;> simp [IsFree, Covers, real, kind, on, bit, held.none]
  | true =>
    obtain ⟨k, -, token, -⟩ := (backed.huge _ bound kind).rows
    simp [IsFree, Covers, kind, token]

theorem consistent_of_backed {m : Held} (backed : Backed N l m) (credit : ∀ c, m.credit c = 0)
    (whole : ∀ c k, m.huge c = {k} → k = 0)
    (tail : ∀ g, N ≤ g → g / 512 < childrenOf N → Covers m g) : Consistent N l := by
  refine ⟨backed.frames, fun c inside kind => ?_, fun c inside kind => ?_, fun g past free => ?_⟩
  · have held := backed.huge c inside kind
    obtain ⟨k, -, token, rows⟩ := held.rows
    have zero := whole c k token
    subst zero
    exact ⟨held.zero, fun real r less => by simpa using rows real r less⟩
  · have held := backed.small c inside kind
    have count := held.count
    rw [credit c] at count
    exact ⟨held.real, by omega⟩
  · have real : g / 512 < childrenOf N := by
      rw [← backed.childCount_eq]
      exact free.1
    exact (isFree_iff backed real).mp free (tail g past real)

theorem Consistent.tail_covers (cons : Consistent N l) {g : Nat} (past : N ≤ g)
    (real : g / 512 < childrenOf N) : Covers (allocated l) g := by
  by_contra free
  exact cons.tail g past ((isFree_iff cons.backed real).mpr free)

theorem Consistent.padding (cons : Consistent N l) {c : Nat} (inside : c < l.entryCount)
    (pad : l.childCount ≤ c) : l.children c = ⟨0, true⟩ := by
  have huge : (l.children c).huge = true := by
    by_contra small
    have real := (cons.small c inside (by simpa using small)).1
    omega
  have zero := (cons.huge c inside huge).1
  cases entry : l.children c with
  | mk free kind =>
    rw [entry] at huge zero
    simp_all

/-- Frames past the last one are held by nobody else: their bits or padding entries are. -/
theorem Consistent.outside_covers (cons : Consistent N l) {g : Nat} (past : N ≤ g)
    (inside : g / 512 < entriesOf N) : Covers (allocated l) g := by
  by_cases real : g / 512 < childrenOf N
  · exact cons.tail_covers past real
  · rw [← cons.backed.entryCount_eq] at inside
    have entry := cons.padding inside (by rw [cons.backed.childCount_eq]; omega)
    simp [Covers, allocated, entry]

/-! ## Taking a block out of a holding -/

theorem exists_add_run {m : Held} {f n : Nat} (set : ∀ g, f ≤ g → g < f + n → m.bit g ≠ 0) :
    ∃ F, m = run f n + F := by
  refine ⟨⟨m.credit, fun g => m.bit g - (run f n).bit g, m.huge⟩, ?_⟩
  refine Held.ext_at (fun c => by simp) (fun g => ?_) (fun c => by simp)
  simp only [Held.add_bit, run_bit]
  split_ifs with inside
  · have one := set g inside.1 inside.2
    omega
  · omega

theorem exists_add_whole {m : Held} {c k : Nat} (token : m.huge c = {k}) :
    ∃ F, m = whole c k + F := by
  refine ⟨⟨m.credit, m.bit, fun i => if i = c then 0 else m.huge i⟩, ?_⟩
  refine Held.ext_at (fun i => by simp) (fun g => by simp) (fun i => ?_)
  by_cases same : i = c
  · subst same
    simp [token]
  · simp [same]

/-! ## Calls -/

theorem runs (N : Nat) (A : Prop) :
    (lowerAccounting N A).sys.Runs (fun _ _ => True) LoOp.exec :=
  Sys.ofExec_runs LoOp.exec _

/-- The block at `f` was free and is allocated now; every other frame is as before. -/
structure Took (f order : Nat) (l l' : Lower) : Prop where
  free : ∀ g, Within f order g → IsFree l g
  taken : ∀ g, Within f order g → ¬ IsFree l' g
  others : ∀ g, ¬ Within f order g → (IsFree l' g ↔ IsFree l g)

private theorem mem_block_huge {f order c x : Nat} (member : x ∈ (block f order).huge c) :
    x = 0 := by
  unfold block at member
  split_ifs at member with small
  · simp at member
  · change x ∈ (if _ then ({0} : Multiset Nat) else 0) at member
    split_ifs at member <;> simp_all

private theorem mem_allocated_huge (l : Lower) (c : Nat) {x : Nat}
    (member : x ∈ (allocated l).huge c) : x = 0 := by
  change x ∈ (if _ then ({0} : Multiset Nat) else 0) at member
  split_ifs at member <;> simp_all

theorem took_of_backed (cons : Consistent N l) {f order : Nat}
    (aligned : 2 ^ order ∣ f) (inside : ∀ g, Within f order g → g / 512 < entriesOf N)
    (backed : Backed N l' (block f order + allocated l)) :
    Consistent N l' ∧ f + 2 ^ order ≤ N ∧ Took f order l l' := by
  have pos : 0 < 2 ^ order := Nat.two_pow_pos order
  have apart : ∀ g, Within f order g → ¬ Covers (allocated l) g := fun g within =>
    covers_once backed (inside g within) ((covers_block aligned).mpr within)
  have below : ∀ g, Within f order g → g < N := by
    intro g within
    by_contra past
    exact apart g within (cons.outside_covers (by omega) (inside g within))
  have fits : f + 2 ^ order ≤ N := by
    have last := below (f + 2 ^ order - 1) ⟨by omega, by omega⟩
    omega
  have real : ∀ g, Within f order g → g / 512 < childrenOf N := by
    intro g within
    have less := below g within
    simp only [childrenOf, divCeil, childSize]
    omega
  have frees : ∀ g, g / 512 < childrenOf N → (IsFree l' g ↔ ¬ Within f order g ∧ IsFree l g) := by
    intro g here
    rw [isFree_iff backed here, isFree_iff cons.backed here, covers_add, covers_block aligned,
      not_or]
  refine ⟨?_, fits, fun g within => ?_, fun g within free => ?_, fun g outside => ?_⟩
  · refine consistent_of_backed backed (fun c => ?_) (fun c k token => ?_) fun g past here => ?_
    · unfold block
      split_ifs <;> rfl
    · have parts : ∀ x ∈ (block f order + allocated l).huge c, x = 0 := by
        intro x member
        rw [Held.add_huge, Multiset.mem_add] at member
        rcases member with mine | others
        · exact mem_block_huge mine
        · exact mem_allocated_huge l c others
      exact parts k (by rw [token]; exact Multiset.mem_singleton_self k)
    · exact covers_add.mpr (Or.inr (cons.tail_covers past here))
  · exact (isFree_iff cons.backed (real g within)).mpr (apart g within)
  · exact ((frees g (real g within)).mp free).1 within
  · by_cases here : g / 512 < childrenOf N
    · rw [frees g here]
      simp [outside]
    · have gone : ∀ x : Lower, x.childCount = childrenOf N → ¬ IsFree x g := by
        rintro x same ⟨less, -⟩
        omega
      exact iff_of_false (gone l' backed.childCount_eq) (gone l cons.backed.childCount_eq)

/-- The block at `f` was allocated and is free now; every other frame is as before. -/
structure Freed (f order : Nat) (l l' : Lower) : Prop where
  taken : ∀ g, Within f order g → ¬ IsFree l g
  free : ∀ g, Within f order g → IsFree l' g
  others : ∀ g, ¬ Within f order g → (IsFree l' g ↔ IsFree l g)

private theorem covers_frees {f order : Nat} {before after : Held} (aligned : 2 ^ order ∣ f)
    (frees : Frees f order before after) (g : Nat) :
    (Within f order g → Covers before g) ∧
      (Covers after g ↔ Covers before g ∧ ¬ Within f order g) := by
  cases frees with
  | bits small =>
    rw [covers_run]
    have none := not_covers_zero g
    unfold Within
    tauto
  | huge same =>
    subst same
    have unit : 512 ∣ f := aligned
    have none := not_covers_zero g
    have iff : g / 512 = f / 512 ↔ Within f 9 g := by
      unfold Within
      omega
    rw [covers_whole, iff]
    tauto
  | split small =>
    have fits := (block_in_child aligned (show order ≤ 9 by omega)).2
    rw [covers_around aligned (by omega), covers_whole]
    refine ⟨fun within => ?_, Iff.rfl⟩
    unfold Within at within
    omega

private theorem freed_of_backed (cons : Consistent N l) {f order : Nat} {before after F : Held}
    (valid : Valid N f order) (frees : Frees f order before after)
    (same : allocated l = before + F) (backed : Backed N l' (after + F)) :
    Consistent N l' ∧ Freed f order l l' := by
  have old : Backed N l (before + F) := same ▸ cons.backed
  have cover := covers_frees valid.2 frees
  have real : ∀ g, Within f order g → g / 512 < childrenOf N := by
    rintro g ⟨low, high⟩
    have fits := valid.1
    simp only [childrenOf, divCeil, childSize]
    omega
  have alone : ∀ g, Within f order g → ¬ Covers F g := fun g within =>
    covers_once old ((real g within).trans_le (childrenOf_le_entriesOf N)) ((cover g).1 within)
  have tail : ∀ g, N ≤ g → g / 512 < childrenOf N → Covers (after + F) g := by
    intro g past here
    have held := cons.tail_covers past here
    rw [same, covers_add] at held
    rw [covers_add, (cover g).2]
    have outside : ¬ Within f order g := by
      rintro ⟨-, high⟩
      have fits := valid.1
      omega
    tauto
  refine ⟨consistent_of_backed backed (fun c => ?_) (fun c k token => ?_) tail,
    fun g within free => ?_, fun g within => ?_, fun g outside => ?_⟩
  · have none : (before + F).credit c = 0 := by
      rw [← same]
      rfl
    have after_none : after.credit c = 0 := by cases frees <;> simp [around]
    simp only [Held.add_credit] at none ⊢
    omega
  · have member : k ∈ (after + F).huge c := by
      rw [token]
      exact Multiset.mem_singleton_self k
    rw [Held.add_huge, Multiset.mem_add] at member
    rcases member with mine | others
    · cases frees <;> simp [around] at mine
    · refine mem_allocated_huge l c ?_
      rw [same, Held.add_huge, Multiset.mem_add]
      exact Or.inr others
  · have held := (isFree_iff old (real g within)).mp free
    exact held (covers_add.mpr (Or.inl ((cover g).1 within)))
  · rw [isFree_iff backed (real g within), covers_add, (cover g).2]
    have none := alone g within
    tauto
  · by_cases here : g / 512 < childrenOf N
    · rw [isFree_iff backed here, isFree_iff old here, covers_add, covers_add, (cover g).2]
      tauto
    · have gone : ∀ x : Lower, x.childCount = childrenOf N → ¬ IsFree x g := by
        rintro x same ⟨less, -⟩
        omega
      exact iff_of_false (gone l' backed.childCount_eq) (gone l cons.backed.childCount_eq)

theorem freed_of_block (cons : Consistent N l) {f order : Nat} {F : Held} (valid : Valid N f order)
    (same : allocated l = block f order + F) (backed : Backed N l' F) :
    Consistent N l' ∧ Freed f order l l' := by
  have old : Backed N l (block f order + F) := same ▸ cons.backed
  have cover : ∀ g, Covers (block f order) g ↔ Within f order g := fun g => covers_block valid.2
  have real : ∀ g, Within f order g → g / 512 < childrenOf N := by
    rintro g ⟨low, high⟩
    have fits := valid.1
    simp only [childrenOf, divCeil, childSize]
    omega
  have alone : ∀ g, Within f order g → ¬ Covers F g := fun g within =>
    covers_once old ((real g within).trans_le (childrenOf_le_entriesOf N)) ((cover g).mpr within)
  have parts : ∀ c k, F.huge c = {k} → k = 0 := by
    intro c k token
    apply mem_allocated_huge l c
    rw [same, Held.add_huge, Multiset.mem_add, token]
    exact Or.inr (Multiset.mem_singleton_self k)
  refine ⟨consistent_of_backed backed (fun c => ?_) parts fun g past here => ?_,
    fun g within free => ?_, fun g within => ?_, fun g outside => ?_⟩
  · have none := congrArg (fun m => m.credit c) same
    change 0 = (block f order).credit c + F.credit c at none
    omega
  · have held := cons.tail_covers past here
    rw [same, covers_add, cover] at held
    apply held.resolve_left
    rintro ⟨-, high⟩
    have fits := valid.1
    omega
  · exact (isFree_iff old (real g within)).mp free (covers_add.mpr (Or.inl ((cover g).mpr within)))
  · exact (isFree_iff backed (real g within)).mpr (alone g within)
  · by_cases here : g / 512 < childrenOf N
    · rw [isFree_iff backed here, isFree_iff old here, covers_add, cover]
      tauto
    · have gone : ∀ x : Lower, x.childCount = childrenOf N → ¬ IsFree x g := by
        rintro x same ⟨less, -⟩
        omega
      exact iff_of_false (gone l' backed.childCount_eq) (gone l cons.backed.childCount_eq)

def SameFree (l l' : Lower) : Prop := ∀ g, IsFree l' g ↔ IsFree l g

theorem same_of_backed (cons : Consistent N l) (backed : Backed N l' (allocated l)) :
    Consistent N l' ∧ SameFree l l' := by
  refine ⟨consistent_of_backed backed (fun c => rfl) (fun c k token => ?_)
    fun g past here => cons.tail_covers past here, fun g => ?_⟩
  · refine mem_allocated_huge l c ?_
    rw [token]
    exact Multiset.mem_singleton_self k
  · by_cases here : g / 512 < childrenOf N
    · rw [isFree_iff backed here, isFree_iff cons.backed here]
    · have gone : ∀ x : Lower, x.childCount = childrenOf N → ¬ IsFree x g := by
        rintro x same ⟨less, -⟩
        omega
      exact iff_of_false (gone l' backed.childCount_eq) (gone l cons.backed.childCount_eq)

private theorem backed_zero (cons : Consistent N l) : Backed N l (0 + allocated l) := by
  rw [zero_add]
  exact cons.backed

def GetOutcome (N start order : Nat) (target : Option Nat) (l : Lower) (r : Result) (l' : Lower) :
    Prop :=
  (∃ f, r = llfreeOk f 0 ∧ Valid N f order ∧ Took f order l l' ∧
      (∀ t, target = some t → f = t) ∧ (target = none → f / 4096 = start / 4096)) ∨
    ((r = llfreeErr .memory ∨ r = llfreeErr .argument ∧
        ∃ t, target = some t ∧ ¬ Valid N t order) ∧ SameFree l l')

/-- What the code asserts or its callers check about the frames of a request. -/
structure GetArgs (N start : Nat) (target : Option Nat) : Prop where
  start : target = none → start < N
  target : ∀ t, target = some t → t < 2 ^ 63

variable {start order : Nat} {target : Option Nat}

theorem start_of_run {r : Result} (small : order ≤ 12)
    (run : Prog.run LoOp.exec (lowerGet N start order none) l = some (r, l')) : start < N := by
  by_contra past
  rw [lowerGet, Prog.assert_bind (show order ≤ treeOrder from small)] at run
  dsimp only at run
  rw [Prog.assert, if_neg past] at run
  cases run

theorem safe_get (A : Prop) (args : GetArgs N start target) (small : order ≤ 9)
    (row : order ≤ 6 ∨ order = 9 ∨ target = none ∨ A) :
    (lowerAccounting N A).Ok (lowerGet N start order target) 0
      (fun r x => (∃ f, 2 ^ order ∣ f ∧ f / 4096 < divCeil N 4096 ∧ r = llfreeOk f 0 ∧
          x = 0 + block f order ∧ (∀ t, target = some t → f = t) ∧
          (target = none → f / 4096 = start / 4096)) ∨
        ((r = llfreeErr .memory ∨ r = llfreeErr .argument ∧
          ∃ t, target = some t ∧ ¬ Valid N t order) ∧ x = 0)) := by
  cases target with
  | none =>
    refine Accounting.safe_post
      (safe_lowerGet (args.start rfl) small fun _ _ _ _ _ => trivial) ?_
    rintro r x (⟨f, aligned, tree, rfl, rfl⟩ | ⟨rfl, rfl⟩)
    · have inside := args.start rfl
      have exists_tree : f / 4096 < divCeil N 4096 := by
        simp only [divCeil]
        omega
      exact Or.inl ⟨f, aligned, exists_tree, rfl, rfl, by simp, fun _ => tree⟩
    · exact Or.inr ⟨Or.inl rfl, rfl⟩
  | some t =>
    have reach := args.target t rfl
    have row' : order ≤ 6 ∨ order = 9 ∨ A := by simpa using row
    refine Accounting.safe_post (safe_lowerGetAt reach small row' fun _ _ => trivial) ?_
    rintro r x (⟨valid, rfl, rfl⟩ | ⟨rfl, rfl⟩ | ⟨rfl, bad, rfl⟩)
    · have pos : 0 < 2 ^ order := Nat.two_pow_pos order
      have fits := valid.1
      have exists_tree : t / 4096 < divCeil N 4096 := by
        simp only [divCeil]
        omega
      exact Or.inl ⟨t, valid.2, exists_tree, rfl, rfl, by simp, by simp⟩
    · exact Or.inr ⟨Or.inl rfl, rfl⟩
    · exact Or.inr ⟨Or.inr ⟨rfl, t, rfl, (invalidFrame_iff reach (by omega)).mp bad⟩, rfl⟩

theorem block_entries {f : Nat} (small : order ≤ 12) (aligned : 2 ^ order ∣ f)
    (tree : f / 4096 < divCeil N 4096) : ∀ g, Within f order g → g / 512 < entriesOf N := by
  intro g within
  have same := block_in_tree aligned small within
  simp only [entriesOf, childrenOf, alignUp, alignDown, divCeil, treeChildren, childSize] at tree ⊢
  omega

/-- A block that is held lies below the limit: the frames past it belong to the allocator from
the start. -/
theorem valid_of_covered {l0 : Lower} (cons : Consistent N l0) {x : Held} {f : Nat}
    (backed : Backed N l (x + allocated l0)) (aligned : 2 ^ order ∣ f) (small : order ≤ 12)
    (tree : f / 4096 < divCeil N 4096) (covers : ∀ g, Within f order g → Covers x g) :
    Valid N f order := by
  have pos : 0 < 2 ^ order := Nat.two_pow_pos order
  refine ⟨?_, aligned⟩
  by_contra past
  have last : Within f order (f + 2 ^ order - 1) := ⟨by omega, by omega⟩
  have inside := block_entries small aligned tree _ last
  exact covers_once backed inside (covers _ last) (cons.outside_covers (by omega) inside)

theorem get_sound {r : Result} (cons : Consistent N l) (args : GetArgs N start target)
    (small : order ≤ 9)
    (run : Prog.run LoOp.exec (lowerGet N start order target) l = some (r, l')) :
    Consistent N l' ∧ GetOutcome N start order target l r l' := by
  have safe := safe_get True args small (Or.inr (Or.inr (Or.inr trivial)))
  obtain ⟨m', post, backed⟩ :=
    Accounting.run_sound (runs N True) safe (backed_zero cons) (Prog.along_true _ _) run
  change Backed N l' (m' + allocated l) at backed
  rcases post with ⟨f, aligned, tree, rfl, rfl, hit, near⟩ | ⟨error, rfl⟩
  · rw [zero_add] at backed
    obtain ⟨cons', fits, took⟩ :=
      took_of_backed cons aligned (block_entries (by omega) aligned tree) backed
    exact ⟨cons', Or.inl ⟨f, rfl, ⟨fits, aligned⟩, took, hit, near⟩⟩
  · rw [zero_add] at backed
    obtain ⟨cons', same⟩ := same_of_backed cons backed
    exact ⟨cons', Or.inr ⟨error, same⟩⟩

/-- A get completes; only targeted blocks of several rows may end in a failed assertion. -/
theorem get_total (cons : Consistent N l) (args : GetArgs N start target)
    (small : order ≤ 9) (row : order ≤ 6 ∨ order = 9 ∨ target = none) :
    ∃ r l', Prog.run LoOp.exec (lowerGet N start order target) l = some (r, l') := by
  have safe := safe_get False args small (by tauto)
  obtain ⟨r, l', -, run, -⟩ :=
    Accounting.run_total (fun stuck => stuck) (runs N False) safe (backed_zero cons)
  exact ⟨r, l', run⟩

theorem exists_frees (cons : Consistent N l) {f : Nat} (valid : Valid N f order)
    (kind : order < 9 ∨ order = 9 ∧ (l.children (f / 512)).huge = true)
    (taken : ∀ g, Within f order g → ¬ IsFree l g) :
    ∃ before after F, Frees f order before after ∧ allocated l = before + F := by
  have pos : 0 < 2 ^ order := Nat.two_pow_pos order
  cases huge : (l.children (f / 512)).huge with
  | true =>
    have token : (allocated l).huge (f / 512) = {0} := by simp [allocated, huge]
    obtain ⟨F, same⟩ := exists_add_whole token
    rcases kind with small | ⟨same_order, -⟩
    · exact ⟨_, _, F, Frees.split small, same⟩
    · exact ⟨_, _, F, Frees.huge same_order, same⟩
  | false =>
    have small : order < 9 := by
      rcases kind with small | ⟨-, yes⟩
      · exact small
      · rw [huge] at yes
        cases yes
    have inside := (block_in_child valid.2 (show order ≤ 9 by omega)).2
    have fits := valid.1
    have bits : ∀ g, f ≤ g → g < f + 2 ^ order → (allocated l).bit g ≠ 0 := by
      intro g low high
      have here : g / 512 = f / 512 := by omega
      have real : g / 512 < l.childCount := by
        rw [cons.backed.childCount_eq]
        simp only [childrenOf, divCeil, childSize]
        omega
      have set : bitSet l g = true := by
        by_contra clear
        exact taken g ⟨low, high⟩ ⟨real, by rw [here]; exact huge, by simpa using clear⟩
      simp [allocated, here, huge, set]
    obtain ⟨F, same⟩ := exists_add_run bits
    exact ⟨_, _, F, Frees.bits small, same⟩

private theorem put_backed (cons : Consistent N l) {f : Nat} (valid : Valid N f order)
    (kind : order < 9 ∨ order = 9 ∧ (l.children (f / 512)).huge = true)
    (taken : ∀ g, Within f order g → ¬ IsFree l g) :
    ∃ before after F l', Frees f order before after ∧ allocated l = before + F ∧
      Prog.run LoOp.exec (lowerPut N f order) l = some (llfreeErr .ok, l') ∧
      Backed N l' (after + F) := by
  obtain ⟨before, after, F, frees, same⟩ := exists_frees cons valid kind taken
  have safe : (lowerAccounting N False).Ok (lowerPut N f order) (0 + before) _ :=
    safe_lowerPut valid frees fun _ _ _ => trivial
  have backed : Backed N l (0 + before + F) := by
    rw [zero_add, ← same]
    exact cons.backed
  obtain ⟨r, l', m', run, ⟨rfl, rfl⟩, backed'⟩ :=
    Accounting.run_total (fun stuck => stuck) (runs N False) safe backed
  rw [zero_add] at backed'
  exact ⟨before, after, F, l', frees, same, run, backed'⟩

theorem put_allocated (cons : Consistent N l) {f : Nat} (valid : Valid N f order)
    (kind : order < 9 ∨ order = 9 ∧ (l.children (f / 512)).huge = true)
    (taken : ∀ g, Within f order g → ¬ IsFree l g) :
    ∃ l', Prog.run LoOp.exec (lowerPut N f order) l = some (llfreeErr .ok, l') ∧
      Consistent N l' ∧ Freed f order l l' := by
  obtain ⟨before, after, F, l', frees, same, run, backed⟩ := put_backed cons valid kind taken
  exact ⟨l', run, freed_of_backed cons valid frees same backed⟩

private theorem huge_iff {m : Held} (backed : Backed N l m) {c : Nat} (inside : c < entriesOf N) :
    (l.children c).huge = true ↔ m.huge c ≠ 0 := by
  rw [← backed.entryCount_eq] at inside
  cases kind : (l.children c).huge with
  | true =>
    obtain ⟨k, -, token, -⟩ := (backed.huge c inside kind).rows
    simp [token]
  | false => simp [(backed.small c inside kind).none]

/-- Such a put splits its own child or frees it as a whole, and leaves the kind of all others. -/
theorem put_kinds {r : Result} (cons : Consistent N l) {f : Nat} (valid : Valid N f order)
    (kind : order < 9 ∨ order = 9 ∧ (l.children (f / 512)).huge = true)
    (taken : ∀ g, Within f order g → ¬ IsFree l g)
    (run : Prog.run LoOp.exec (lowerPut N f order) l = some (r, l')) {c : Nat}
    (inside : c < entriesOf N) :
    (l'.children c).huge = true ↔ (l.children c).huge = true ∧ f / 512 ≠ c := by
  obtain ⟨before, after, F, l'', frees, same, run', backed⟩ := put_backed cons valid kind taken
  rw [run] at run'
  obtain ⟨-, rfl⟩ := Prod.mk.inj (Option.some.inj run')
  by_cases here : f / 512 = c
  · have pos : 0 < 2 ^ order := Nat.two_pow_pos order
    have freed := (freed_of_backed cons valid frees same backed).2.free f ⟨le_refl f, by omega⟩
    rw [← here, freed.2.1]
    simp
  · have old : Backed N l (before + F) := same ▸ cons.backed
    have away : before.huge c = 0 ∧ after.huge c = 0 := by
      cases frees with
      | bits _ => exact ⟨rfl, rfl⟩
      | huge _ => simp [Ne.symm here]
      | split _ => simp [around, Ne.symm here]
    rw [huge_iff backed inside, huge_iff old inside, Held.add_huge, Held.add_huge, away.1, away.2]
    simp [here]

def Puttable (N f order : Nat) (l : Lower) : Prop :=
  Valid N f order ∧ (order < 9 ∨ order = 9 ∧ (l.children (f / 512)).huge = true) ∧
    ∀ g, Within f order g → ¬ IsFree l g

private theorem run_put_small {f : Nat} (valid : Valid N f order) (small : order ≤ 6)
    (bound : f / 512 < l.entryCount) (real : f / 512 < l.childCount)
    (kind : (l.children (f / 512)).huge = false)
    (clear : ¬ l.rows (f / 64) &&& rowMask (f % 64) order = rowMask (f % 64) order) :
    Prog.run LoOp.exec (lowerPut N f order) l = some (llfreeErr .memory, l) := by
  have le : 2 ^ order ≤ 2 ^ 6 := Nat.pow_le_pow_right (by omega) small
  have row_eq : f / 512 * 8 + f % 512 / 64 = f / 64 := by omega
  have bit_eq : f % 512 % 64 = f % 64 := by omega
  have inside : f / 64 < l.rowCount := by
    simp only [Lower.rowCount, fieldN]
    omega
  have good := invalidFrame_of_valid valid
  simp only [lowerPut, treeOrder, hugeOrder, childFromFrame, childSize]
  rw [Prog.assert_bind (by omega), if_neg (by simp [good]), if_neg (by omega)]
  have load : Prog.run LoOp.exec (childLoad (f / 512)) l = some (l.children (f / 512), l) := by
    simp [childLoad, Prog.run_step, bound]
  rw [Prog.run_bind_some load, kind, if_neg (by simp)]
  have toggle : Prog.run LoOp.exec (fieldToggle (f / 512) (f % 512) order true) l =
      some (llfreeErr .memory, l) := by
    simp only [fieldToggle, childSize, atomicSize, fieldN, row_eq, bit_eq]
    rw [Prog.assert_bind (by omega), if_neg (by omega)]
    simp [rowToggleAt, Prog.run_step, inside, rowToggle, clear, update]
  rw [putField, Prog.run_bind_some toggle]
  rfl

theorem put_refused (cons : Consistent N l) {f : Nat} (reach : Valid N f order ∨ f < 2 ^ 63)
    (row : order ≤ 6 ∨ order = 9) (bad : ¬ Puttable N f order l) :
    ∃ e, e ≠ Err.ok ∧ Prog.run LoOp.exec (lowerPut N f order) l = some (llfreeErr e, l) := by
  have pos : 0 < 2 ^ order := Nat.two_pow_pos order
  by_cases valid : Valid N f order
  swap
  · refine ⟨.argument, by simp, ?_⟩
    have invalid :=
      (invalidFrame_iff (reach.resolve_left valid) (show order ≤ 12 by omega)).mpr valid
    simp only [lowerPut, treeOrder]
    rw [Prog.assert_bind (by omega), if_pos invalid]
    rfl
  have real : f / 512 < l.childCount := by
    have fits := valid.1
    rw [cons.backed.childCount_eq]
    simp only [childrenOf, divCeil, childSize]
    omega
  have bound : f / 512 < l.entryCount := real.trans_le (childCount_le_entryCount l)
  have kind : (l.children (f / 512)).huge = false := by
    by_contra huge
    refine bad ⟨valid, ?_, fun g within free => ?_⟩
    · rcases row with small | same
      · exact Or.inl (by omega)
      · exact Or.inr ⟨same, by simpa using huge⟩
    · have inside := (block_in_child valid.2 (show order ≤ 9 by omega)).2
      unfold Within at within
      have here : g / 512 = f / 512 := by omega
      have small := free.2.1
      rw [here] at small
      exact huge small
  rcases row with small | rfl
  · refine ⟨.memory, by simp, run_put_small valid small bound real kind fun set => ?_⟩
    refine bad ⟨valid, Or.inl (by omega), fun g within free => ?_⟩
    have le : 2 ^ order ≤ 2 ^ 6 := Nat.pow_le_pow_right (by omega) small
    have fits := (row_of_index valid.2).2 (by omega)
    have bit := (and_rowMask_eq_mask small fits).mp set (g - f) (by
      unfold Within at within
      omega)
    have row_eq : g / 64 = f / 64 := by
      unfold Within at within
      omega
    have bit_eq : f % 64 + (g - f) = g % 64 := by
      unfold Within at within
      omega
    have clear := free.2.2
    rw [bitSet, row_eq, ← bit_eq, bit] at clear
    cases clear
  · refine ⟨.argument, by simp, ?_⟩
    have good := invalidFrame_of_valid valid
    have zero : f / 512 + 0 = f / 512 := by omega
    have base : alignDown (f / 512) 1 = f / 512 := by simp [alignDown]
    have differ : l.children (f / 512) ≠ ⟨0, true⟩ := by
      intro same
      rw [same] at kind
      cases kind
    simp only [lowerPut, treeOrder, hugeOrder, childFromFrame, childSize]
    rw [Prog.assert_bind (by omega), if_neg (by simp [good]), if_pos (le_refl 9), Nat.sub_self,
      Nat.pow_zero]
    simp only [base, ne_eq, not_true, if_false, tryUpdateHugeN, tryUpdateHugeFrom, zero]
    simp [childCas, Prog.run_step, bound, childNew, differ, update, Prog.each]

end LLFree.Lower.Quiet

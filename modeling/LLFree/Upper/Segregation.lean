/- module: LLFree/Upper/Segregation
   digest: Trees of a higher class hold no block that was handed out for a lower class. -/

import LLFree.Upper.Sequential

set_option autoImplicit false
set_option relaxedAutoImplicit false

namespace LLFree.Upper.Segregation

open LLFree.Code.Types LLFree.Code.Entries LLFree.Code.Shared LLFree.Upper.Ledger
open LLFree.Upper.Slots LLFree.Upper.Steps LLFree.Upper.Sequential

/-- The class of a tree, or that of the slot that holds it where it is lower. -/
def effectiveClass (K : Config) (u : Upper) (t : Nat) : Nat :=
  (holders K u t).fold min (u.trees t).cls Prod.fst

variable {K : Config} {fits : Fits K} {s s' : Llfree Lower}

def segregatedPromise (standard : Standard K) : Promise K where
  configured := False
  segregated := True
  pristine := False
  default_known := unknown
  by_class _ := standard.byClass
  never_invalid := unmatched

/-! ## Tickets of the clients -/

def lentTickets (held : List Lent) : Tickets :=
  (held.map fun b => live (b.frame / 4096) (2 ^ b.order) b.cls).sum

theorem lentTickets_cons (b : Lent) (held : List Lent) :
    lentTickets (b :: held) = live (b.frame / 4096) (2 ^ b.order) b.cls + lentTickets held := by
  simp [lentTickets]

theorem lentTickets_erase {b : Lent} {held : List Lent} (own : b ∈ held) :
    lentTickets held =
      live (b.frame / 4096) (2 ^ b.order) b.cls + lentTickets (held.erase b) := by
  have same : lentTickets held = lentTickets (b :: held.erase b) :=
    ((List.perm_cons_erase own).map _).sum_eq
  rw [same, lentTickets_cons]

theorem lentTickets_live {held : List Lent} {k : Ticket} (member : k ∈ lentTickets held) :
    k.kind = .live := by
  induction held with
  | nil => simp [lentTickets] at member
  | cons b held ih =>
    rw [lentTickets_cons, Multiset.mem_add, mem_live] at member
    rcases member with rfl | rest
    · rfl
    · exact ih rest

private theorem call_keeps {P : Promise K} {held held' : List Lent} {c : Call} {r : Option Result}
    (support : Supported P) (some : 0 < K.treesLen) (client : ClientCall RowCall held s c r held')
    (sound : Sound P (words fits) s (lentTickets held)) (run : c.run K s = Option.some (r, s')) :
    Sound P (words fits) s' (lentTickets held') := by
  cases client with
  | get frame request r row =>
    obtain ⟨r', t, y, run', got, sound'⟩ := run_get _ support some sound row
    rw [run] at run'
    obtain ⟨same, rfl⟩ := Prod.mk.inj (Option.some.inj run')
    cases same
    rcases got with ⟨ok, rfl, -⟩ | ⟨error, rfl⟩
    · rwa [if_pos ok, lentTickets_cons]
    · rwa [if_neg error, ← zero_add (lentTickets held)]
  | put b request r row own same =>
    rw [lentTickets_erase own] at sound
    obtain ⟨r', t, y, run', put, sound'⟩ := run_put support sound row (Or.inl (by rw [same]))
    rw [run] at run'
    obtain ⟨same, rfl⟩ := Prod.mk.inj (Option.some.inj run')
    cases same
    rcases put with ⟨ok, rfl⟩ | ⟨error, rfl⟩
    · rwa [if_pos ok, ← zero_add (lentTickets (held.erase b))]
    · rwa [if_neg error, lentTickets_erase own]
  | drain =>
    obtain ⟨t, run', sound'⟩ := run_drain sound
    rw [run] at run'
    obtain ⟨-, rfl⟩ := Prod.mk.inj (Option.some.inj run')
    exact sound'

theorem clients_sound {P : Promise K} {held : List Lent} (support : Supported P)
    (some : 0 < K.treesLen) (start : Sound P (words fits) s 0)
    (run : History K (ClientCall RowCall) [] s held s') :
    Sound P (words fits) s' (lentTickets held) :=
  run.keeps (I := fun held t => Sound P (words fits) t (lentTickets held)) start
    fun _ _ _ _ _ _ sound client done => call_keeps support some client sound done

/-! ## Segregation -/

private theorem effective_le {P : Promise K} {held : List Lent} (segregated : P.segregated)
    (sound : Sound P (words fits) s (lentTickets held)) {b : Lent} (own : b ∈ held) :
    effectiveClass K s.upper (b.frame / 4096) ≤ b.cls := by
  have mine : (⟨.live, b.frame / 4096, 2 ^ b.order, b.cls⟩ : Ticket) ∈
      slotTickets K s.upper + lentTickets held := by
    rw [lentTickets_erase own]
    simp
  rw [effectiveClass, Finset.fold_min_le]
  rcases sound.books.capped segregated _ mine (Nat.two_pow_pos b.order) (by simp) with
    entry | ⟨k, member, kind, tree, le⟩
  · exact Or.inl entry
  · rcases Multiset.mem_add.mp member with slot | client
    · obtain ⟨p, inside, ticket⟩ := Multiset.mem_sum.mp slot
      by_cases present : (s.upper.slots p.1 p.2).present = true
      · rw [slotTicket_present present, mem_owner] at ticket
        subst ticket
        exact Or.inr ⟨p, mem_holders.mpr ⟨mem_slotIds.mp inside, present, tree⟩, le⟩
      · simp [slotTicket, present] at ticket
    · rw [lentTickets_live client] at kind
      cases kind

/-- Whatever clients do, every block they hold lies in a tree whose effective class is at most
the class the block was handed out for, and that class is at most the one requested. -/
theorem blocks_segregated {held : List Lent} (standard : Standard K) (fits : Fits K)
    (init : Initialised K .free s) (run : History K (ClientCall RowCall) [] s held s') :
    (∀ b ∈ held, effectiveClass K s'.upper (treeFromFrame b.frame) ≤ b.cls) ∧
      ∀ frame request r s'', RowOrHuge request.order →
        (Call.get frame request).run K s' = some (some r, s'') → r.error = .ok →
          r.cls ≤ request.cls := by
  obtain ⟨rebuilt, start⟩ := sound_init (segregatedPromise standard) fits (Or.inl rfl) init
  have some := treesLen_pos rebuilt
  have support : Supported (segregatedPromise standard) := False.elim
  have sound := clients_sound support some start run
  refine ⟨fun b own => effective_le trivial sound own, fun frame request r s'' row done ok => ?_⟩
  obtain ⟨r', t, y, done', got, -⟩ := run_get _ support some sound row
  rw [done] at done'
  obtain ⟨same, -⟩ := Prod.mk.inj (Option.some.inj done')
  cases same
  rcases got with ⟨-, -, -, le, -⟩ | ⟨error, -⟩
  · exact le trivial
  · exact absurd ok error

/-- A block of the lower class, out of a tree that a slot reserves for it. -/
theorem blocks_segregated_tree :
    effectiveClass ⟨4096, llfreeClassingSimple 1⟩ ((Call.get none ⟨0, 0, some 0⟩).after
      ⟨4096, llfreeClassingSimple 1⟩ (initZeroed ⟨4096, llfreeClassingSimple 1⟩ .free)).upper 0 ≤
        0 :=
  (blocks_segregated ⟨1, le_refl 1, Or.inl rfl⟩ (by decide) (initZeroed_initialised (by decide))
    (.call (.get none ⟨0, 0, some 0⟩) (.start _ _) (Call.run_after (r := some (llfreeOk 0 0))
      (by decide +kernel)) (.get [] _ none ⟨0, 0, some 0⟩ (llfreeOk 0 0) (Or.inl (by decide))))).1
    ⟨0, 0, 0⟩ (by decide)

end LLFree.Upper.Segregation

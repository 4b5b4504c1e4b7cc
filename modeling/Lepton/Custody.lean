import Lepton.Ledger

/-! Custody of items. Several parties take items from a common stock and give them back. What a party holds follows
from its own moves; if no party gives back what it does not hold, then at any point of any interleaving of their moves
nothing has come back twice, and what is out is what the parties hold. Histories are lists with the latest move
first. -/

namespace Lepton.Custody

inductive Move (α : Type) where
  | take (a : α)
  | give (a : α)
  deriving DecidableEq, Repr

section Moves

variable {α ι : Type} [DecidableEq ι]

/-- The moves of one party. -/
def movesOf (i : ι) (history : List (ι × Move α)) : List (Move α) :=
  history.filterMap fun p => if p.1 = i then some p.2 else none

theorem movesOf_self (i : ι) (m : Move α) (history : List (ι × Move α)) :
    movesOf i ((i, m) :: history) = m :: movesOf i history := by
  rw [movesOf, List.filterMap_cons, if_pos rfl]
  rfl

theorem movesOf_other {i j : ι} (hne : i ≠ j) (m : Move α) (history : List (ι × Move α)) :
    movesOf j ((i, m) :: history) = movesOf j history := by
  rw [movesOf, List.filterMap_cons, if_neg hne]
  rfl

end Moves

section Parties

variable {α : Type} [DecidableEq α]

/-- What a party holds after its moves; none if it has given back what it did not hold. -/
def held : List (Move α) → Option (Multiset α)
  | [] => some 0
  | .take a :: before => (held before).map (a ::ₘ ·)
  | .give a :: before => (held before).bind fun h => if a ∈ h then some (h.erase a) else none

theorem held_take {moves : List (Move α)} {h : Multiset α} (hheld : held moves = some h) (a : α) :
    held (.take a :: moves) = some (a ::ₘ h) := by
  rw [held, hheld]
  rfl

theorem held_give {moves : List (Move α)} {a : α} {h : Multiset α} (hheld : held moves = some (a ::ₘ h)) :
    held (.give a :: moves) = some h := by
  rw [held, hheld, Option.bind_some, if_pos (Multiset.mem_cons_self a h), Multiset.erase_cons_head]

/-- Several items are given back. -/
theorem held_gives {moves : List (Move α)} {items : List α} {h : Multiset α} (hheld : held moves = some (items + h)) :
    held (items.map .give ++ moves) = some h := by
  induction items generalizing h with
  | nil => rwa [Multiset.coe_nil, zero_add] at hheld
  | cons a items ih =>
    rw [List.map_cons, List.cons_append]
    apply held_give
    apply ih
    rwa [← Multiset.cons_coe, Multiset.cons_add, ← Multiset.add_cons] at hheld

theorem held_of_take {moves : List (Move α)} {a : α} {h : Multiset α} (hheld : held (.take a :: moves) = some h) :
    ∃ h', held moves = some h' ∧ h = a ::ₘ h' := by
  rw [held, Option.map_eq_some_iff] at hheld
  obtain ⟨h', hmoves, heq⟩ := hheld
  exact ⟨h', hmoves, heq.symm⟩

theorem held_of_give {moves : List (Move α)} {a : α} {h : Multiset α} (hheld : held (.give a :: moves) = some h) :
    held moves = some (a ::ₘ h) := by
  rw [held, Option.bind_eq_some_iff] at hheld
  obtain ⟨h', hmoves, heq⟩ := hheld
  split at heq
  · next hmem =>
    cases heq
    rw [hmoves, Multiset.cons_erase hmem]
  · cases heq

variable {ι : Type} [DecidableEq ι] [Fintype ι]

/-- **Conservation.** Where every party accounts for its own moves, what is out is with the parties. -/
theorem held_total {history : List (ι × Move α)} {holding : ι → Multiset α}
    (hheld : ∀ i, held (movesOf i history) = some (holding i)) :
    held (history.map Prod.snd) = some (Ledger.total id holding) := by
  induction history generalizing holding with
  | nil =>
    have hnone (i : ι) : holding i = 0 := (Option.some.inj (hheld i)).symm
    have htotal : Ledger.total id holding = 0 := Ledger.total_eq_zero hnone
    rw [htotal]
    rfl
  | cons p before ih =>
    obtain ⟨i, m⟩ := p
    -- before the move of `i`, the other parties held the same
    have hothers (h : Multiset α) (hh : held (movesOf i before) = some h) :
        held (before.map Prod.snd) = some (h + Ledger.others id holding i) := by
      have hupdated (j : ι) : held (movesOf j before) = some (Function.update holding i h j) := by
        by_cases hij : i = j
        · subst hij
          rw [Function.update_self]
          exact hh
        · rw [Function.update_of_ne (Ne.symm hij), ← hheld j, movesOf_other hij]
      rw [ih hupdated, Ledger.total_update]
      rfl
    have hi := hheld i
    rw [movesOf_self] at hi
    rw [Ledger.total_split id holding i]
    change held (m :: before.map Prod.snd) = some (holding i + Ledger.others id holding i)
    cases m with
    | take a =>
      obtain ⟨h, hh, hholding⟩ := held_of_take hi
      rw [hholding, Multiset.cons_add]
      exact held_take (hothers h hh) a
    | give a =>
      have hbefore := hothers _ (held_of_give hi)
      rw [Multiset.cons_add] at hbefore
      exact held_give hbefore

end Parties

end Lepton.Custody

import Mathlib.Algebra.BigOperators.Group.Finset.Basic
import Mathlib.Algebra.Order.Group.Multiset
import Mathlib.Data.Multiset.Range
import Mathlib.Data.Fintype.BigOperators
import Mathlib.Algebra.Order.BigOperators.Group.Finset

/-! Accounting over a family of parties. Each party contributes to a total; when one party changes,
the total changes by its contribution alone. Contributions may be numbers, for counting, or
multisets, for ownership: a total equal to a duplicate-free multiset says that every item is
contributed exactly once. -/

namespace Lepton.Ledger

variable {T S M : Type} [Fintype T] [DecidableEq T]

section Totals

variable [AddCommMonoid M]

/-- The total contribution of all parties. -/
def total (f : S → M) (state : T → S) : M := ∑ x, f (state x)

/-- The contribution of everyone but `t`. -/
def others (f : S → M) (state : T → S) (t : T) : M := ∑ x ∈ Finset.univ.erase t, f (state x)

theorem total_split (f : S → M) (state : T → S) (t : T) : total f state = f (state t) + others f state t :=
  (Finset.add_sum_erase Finset.univ (fun x => f (state x)) (Finset.mem_univ t)).symm

theorem total_update (f : S → M) (state : T → S) (t : T) (p : S) :
    total f (Function.update state t p) = f p + others f state t := by
  have hothers : others f (Function.update state t p) t = others f state t := by
    apply Finset.sum_congr rfl
    intro x hx
    rw [Function.update_of_ne (Finset.ne_of_mem_erase hx)]
  rw [total_split f _ t, Function.update_self, hothers]

omit [DecidableEq T] in
theorem total_eq_zero {f : S → M} {state : T → S} (h : ∀ x, f (state x) = 0) : total f state = 0 :=
  Finset.sum_eq_zero fun x _ => h x

end Totals

/-- One party's share falls by more than the shares of all the others rise. -/
theorem sum_lt_of_drop {f g : T → Nat} {t : T} {rise : Nat} (hothers : ∀ u, u ≠ t → g u ≤ f u + rise)
    (hdrop : g t + rise * Fintype.card T < f t) : ∑ u, g u < ∑ u, f u := by
  have hrest : ∑ u ∈ Finset.univ.erase t, g u ≤ ∑ u ∈ Finset.univ.erase t, f u + rise * Fintype.card T := by
    calc ∑ u ∈ Finset.univ.erase t, g u
        ≤ ∑ u ∈ Finset.univ.erase t, (f u + rise) :=
          Finset.sum_le_sum fun u hu => hothers u (Finset.ne_of_mem_erase hu)
      _ = ∑ u ∈ Finset.univ.erase t, f u + (Finset.univ.erase t).card * rise := by
          rw [Finset.sum_add_distrib, Finset.sum_const_nat fun _ _ => rfl]
      _ ≤ ∑ u ∈ Finset.univ.erase t, f u + rise * Fintype.card T := by
          rw [Nat.mul_comm rise]
          exact Nat.add_le_add_left (Nat.mul_le_mul_right _ (Finset.card_le_univ _)) _
  rw [← Finset.add_sum_erase _ f (Finset.mem_univ t), ← Finset.add_sum_erase _ g (Finset.mem_univ t)]
  omega

theorem mem_total {α : Type} {f : S → Multiset α} {state : T → S} {t : T} {a : α} (h : a ∈ f (state t)) :
    a ∈ total f state := by
  rw [total_split f state t]
  exact Multiset.mem_add.mpr (Or.inl h)

omit [DecidableEq T] in
/-- Parties that each count no more than they hold count no more than is held. -/
theorem total_le_card {α : Type} {n : S → Nat} {f : S → Multiset α} (h : ∀ x, n x ≤ (f x).card) (state : T → S) :
    total n state ≤ (total f state).card := by
  calc total n state ≤ ∑ x, (f (state x)).card := Finset.sum_le_sum fun x _ => h (state x)
    _ = (total f state).card := (Multiset.card_sum Finset.univ fun x => f (state x)).symm

/-- In a duplicate-free total two different parties contribute no common item. -/
theorem total_disjoint {α : Type} {f : S → Multiset α} {state : T → S} (h : (total f state).Nodup)
    {t u : T} (hne : t ≠ u) : Disjoint (f (state t)) (f (state u)) := by
  rw [total_split f state t, Multiset.nodup_add] at h
  refine h.2.2.mono_right ?_
  have hmem : u ∈ Finset.univ.erase t := Finset.mem_erase.mpr ⟨hne.symm, Finset.mem_univ u⟩
  exact Finset.single_le_sum (fun x _ => Multiset.zero_le (f (state x))) hmem

end Lepton.Ledger

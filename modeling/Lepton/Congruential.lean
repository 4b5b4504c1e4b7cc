import Mathlib.Algebra.Field.GeomSum
import Mathlib.Algebra.Ring.Parity
import Mathlib.Data.ZMod.Basic
import Mathlib.Dynamics.PeriodicPts.Defs
import Mathlib.SetTheory.Cardinal.NatCard
import Mathlib.Tactic.LinearCombination

/-! Linear congruential generators modulo a power of two. The generator `x ↦ a * x + c` adds to its state a fixed
multiple of a geometric sum, so it is back at its start after `n` steps exactly if the modulus divides the sum of
the first `n` powers of `a`; for `a` one more than a multiple of four, that is if the modulus divides `n`. A
generator whose period is the number of states visits each of them once, so what it puts out is as balanced as
the output of all states. -/

namespace Lepton.Congruential

open Finset Function

/-! ### Geometric sums -/

section Sums

variable {a : Nat} (ha : a % 4 = 1)
include ha

theorem geom_sum_mod_two (n : Nat) : (∑ i ∈ range n, a ^ i) % 2 = n % 2 := by
  induction n with
  | zero => rfl
  | succ n ih =>
    have hodd : a ^ n % 2 = 1 := Nat.odd_iff.mp (Odd.pow (Nat.odd_iff.mpr (by omega)))
    rw [sum_range_succ]
    omega

/-- A geometric sum of odd terms is divisible by the powers of two that divide the number of its terms. -/
theorem two_pow_dvd_geom_sum (k n : Nat) : 2 ^ k ∣ ∑ i ∈ range n, a ^ i ↔ 2 ^ k ∣ n := by
  induction k generalizing n with
  | zero => simp only [pow_zero, one_dvd]
  | succ k ih =>
    obtain ⟨m, rfl | rfl⟩ := n.even_or_odd'
    · -- the two halves of the sum, the second one a multiple of the first
      have hhalves : ∑ i ∈ range (2 * m), a ^ i = (∑ i ∈ range m, a ^ i) * (1 + a ^ m) := by
        rw [two_mul, sum_range_add, mul_add, mul_one, sum_mul]
        exact congrArg _ (sum_congr rfl fun i _ => by rw [pow_add, mul_comm])
      have hmod : a ^ m % 4 = 1 := by rw [Nat.pow_mod, ha, one_pow, Nat.one_mod_eq_one.mpr (by decide)]
      obtain ⟨t, ht⟩ : ∃ t, 1 + a ^ m = 2 * (2 * t + 1) := ⟨a ^ m / 4, by omega⟩
      have hcop : Nat.Coprime (2 ^ k) (2 * t + 1) :=
        Nat.Coprime.pow_left k (Nat.coprime_two_left.mpr (odd_two_mul_add_one t))
      rw [hhalves, ht, pow_succ', mul_left_comm, Nat.mul_dvd_mul_iff_left two_pos, hcop.dvd_mul_right, ih,
        Nat.mul_dvd_mul_iff_left two_pos]
    · have hsum := geom_sum_mod_two ha (2 * m + 1)
      have htwo : 2 ∣ 2 ^ (k + 1) := dvd_pow_self 2 (Nat.succ_ne_zero k)
      constructor
      · intro h
        have := htwo.trans h
        omega
      · intro h
        have := htwo.trans h
        omega

end Sums

/-! ### Generators -/

/-- The state behind a state. -/
def step {R : Type} [CommRing R] (a c x : R) : R := a * x + c

theorem step_iterate {R : Type} [CommRing R] (a c x : R) (n : Nat) :
    (step a c)^[n] x = x + (c + (a - 1) * x) * ∑ i ∈ range n, a ^ i := by
  induction n with
  | zero => rw [iterate_zero_apply, range_zero, sum_empty, mul_zero, add_zero]
  | succ n ih =>
    have hsum := geom_sum_mul a n
    rw [iterate_succ_apply', ih, step, sum_range_succ]
    linear_combination (c + (a - 1) * x) * hsum

section Period

variable {a c k : Nat} (ha : a % 4 = 1) (hc : c % 2 = 1)
include ha hc

/-- The generator is back where it started exactly after the multiples of the modulus. -/
theorem step_isPeriodicPt_iff (x : ZMod (2 ^ k)) (n : Nat) :
    IsPeriodicPt (step (a : ZMod (2 ^ k)) c) n x ↔ 2 ^ k ∣ n := by
  obtain ⟨b, rfl⟩ : ∃ b, a = b + 1 := ⟨a - 1, by omega⟩
  have hcop : Nat.Coprime (2 ^ k) (c + b * x.val) := by
    refine Nat.Coprime.pow_left k (Nat.coprime_two_left.mpr (Nat.odd_iff.mpr ?_))
    have heven : b * x.val % 2 = 0 := by
      rw [Nat.mul_mod, show b % 2 = 0 by omega, zero_mul]
      rfl
    omega
  have hcast : (c + ((b + 1 : Nat) - 1 : ZMod (2 ^ k)) * x) * ∑ i ∈ range n, ((b + 1 : Nat) : ZMod (2 ^ k)) ^ i
      = ((c + b * x.val) * ∑ i ∈ range n, (b + 1) ^ i : Nat) := by
    push_cast
    rw [ZMod.natCast_zmod_val, add_sub_cancel_right]
  rw [IsPeriodicPt, IsFixedPt, step_iterate, add_eq_left, hcast, ZMod.natCast_eq_zero_iff, hcop.dvd_mul_left,
    two_pow_dvd_geom_sum ha]

/-- A program whose states are residues, and whose steps are those of the generator, has the full period. -/
theorem minimalPeriod_of_step {α : Type} {f : α → α} {φ : α → ZMod (2 ^ k)} (hφ : Injective φ)
    (hf : ∀ x, φ (f x) = step (a : ZMod (2 ^ k)) c (φ x)) (x : α) : minimalPeriod f x = 2 ^ k := by
  have hsemi : Semiconj φ f (step (a : ZMod (2 ^ k)) c) := hf
  have hiff (n : Nat) : IsPeriodicPt f n x ↔ 2 ^ k ∣ n := by
    rw [← step_isPeriodicPt_iff ha hc (φ x), IsPeriodicPt, IsPeriodicPt, IsFixedPt, IsFixedPt,
      ← hsemi.iterate_right n x]
    exact hφ.eq_iff.symm
  exact Nat.dvd_antisymm ((hiff _).mpr dvd_rfl).minimalPeriod_dvd ((hiff _).mp (isPeriodicPt_minimalPeriod f x))

end Period

/-! ### Orbits -/

section Orbit

variable {α : Type} [Finite α] {f : α → α} {x : α} (h : minimalPeriod f x = Nat.card α)
include h

/-- A period as long as there are states meets every state, once. -/
theorem iterate_bijective : Bijective fun n : Fin (Nat.card α) => f^[n] x := by
  refine Injective.bijective_of_nat_card_le (fun m n heq => Fin.ext ?_) (Nat.card_fin _).ge
  exact (iterate_eq_iterate_iff_of_lt_minimalPeriod (m.isLt.trans_eq h.symm) (n.isLt.trans_eq h.symm)).mp heq

theorem existsUnique_iterate (y : α) : ∃! n, n < Nat.card α ∧ f^[n] x = y := by
  obtain ⟨n, hn, hunique⟩ := (iterate_bijective h).existsUnique y
  refine ⟨n, ⟨n.isLt, hn⟩, ?_⟩
  rintro m ⟨hm, hy⟩
  exact congrArg Fin.val (hunique ⟨m, hm⟩ hy)

/-- Over such a period a property holds as often as it has states. -/
theorem card_iterate (P : α → Prop) [DecidablePred P] :
    ((range (Nat.card α)).filter fun n => P (f^[n] x)).card = Nat.card { y // P y } := by
  have := Fintype.ofFinite α
  rw [Nat.card_eq_fintype_card (α := { y // P y }), Fintype.card_subtype]
  refine card_bij (fun n _ => f^[n] x) ?_ ?_ ?_
  · intro n hn
    exact mem_filter.mpr ⟨mem_univ _, (mem_filter.mp hn).2⟩
  · intro m hm n hn heq
    have hlt {n : Nat} (hn : n ∈ (range (Nat.card α)).filter fun n => P (f^[n] x)) : n < Nat.card α :=
      mem_range.mp (mem_filter.mp hn).1
    have hfin : (⟨m, hlt hm⟩ : Fin (Nat.card α)) = ⟨n, hlt hn⟩ := (iterate_bijective h).injective heq
    exact congrArg Fin.val hfin
  · intro y hy
    obtain ⟨n, rfl⟩ := (iterate_bijective h).surjective y
    exact ⟨n, mem_filter.mpr ⟨mem_range.mpr n.isLt, (mem_filter.mp hy).2⟩, rfl⟩

end Orbit

/-- The states behind one value, if a state is determined by the value and by another one, of any choice. -/
theorem card_fiber {α β γ : Type} {g : α → β} {f : α → γ} (h : Bijective fun x => (g x, f x)) (v : γ) :
    Nat.card { x // f x = v } = Nat.card β := by
  refine Nat.card_congr (Equiv.ofBijective (fun x => g x.1) ⟨?_, fun b => ?_⟩)
  · rintro ⟨x, rfl⟩ ⟨y, hy⟩ heq
    exact Subtype.ext (h.injective (Prod.ext heq hy.symm))
  · obtain ⟨x, hx⟩ := h.surjective (b, v)
    exact ⟨⟨x, congrArg Prod.snd hx⟩, congrArg Prod.fst hx⟩

end Lepton.Congruential

import Mathlib.Data.Finset.Card
import Mathlib.Data.Finset.Dedup
import Mathlib.Data.Nat.Find

/-! Loops over finitely many places. A loop that goes from place to place, and decides at each of them without
any memory, either returns within as many turns as there are places or does not return at all. -/

namespace Lepton.Loops

variable {α β : Type*} {step : α → β ⊕ α}

/-- The loop, cut off after a number of turns. -/
def run (step : α → β ⊕ α) : Nat → α → Option β
  | 0, _ => none
  | n + 1, x =>
    match step x with
    | .inl b => some b
    | .inr y => run step n y

theorem run_returns {x : α} {b : β} (h : step x = .inl b) (n : Nat) : run step (n + 1) x = some b := by
  rw [run, h]

theorem run_moves {x y : α} (h : step x = .inr y) (n : Nat) : run step (n + 1) x = run step n y := by
  rw [run, h]

theorem run_mono {n m : Nat} {x : α} {b : β} (h : run step n x = some b) (hnm : n ≤ m) : run step m x = some b := by
  induction n generalizing m x with
  | zero => cases h
  | succ n ih =>
    obtain ⟨m, rfl⟩ : ∃ m', m = m' + 1 := ⟨m - 1, by omega⟩
    cases hstep : step x with
    | inl c =>
      rw [run_returns hstep] at h ⊢
      exact h
    | inr y =>
      rw [run_moves hstep] at h ⊢
      exact ih h (by omega)

/-- The loop returns in exactly this many turns. -/
structure Takes (step : α → β ⊕ α) (n : Nat) (x : α) : Prop where
  returns : (run step n x).isSome
  least : ∀ m < n, run step m x = none

theorem takes_unique {n m : Nat} {x : α} (hn : Takes step n x) (hm : Takes step m x) : n = m := by
  rcases Nat.lt_trichotomy n m with hlt | heq | hlt
  · have hret := hn.returns
    rw [hm.least n hlt] at hret
    cases hret
  · exact heq
  · have hret := hm.returns
    rw [hn.least m hlt] at hret
    cases hret

theorem exists_takes {n : Nat} {x : α} {b : β} (h : run step n x = some b) :
    ∃ m, Takes step m x ∧ run step m x = some b := by
  classical
  have hex : ∃ m, (run step m x).isSome := ⟨n, by rw [h]; rfl⟩
  have hleast : ∀ m < Nat.find hex, run step m x = none := fun m hm =>
    Option.not_isSome_iff_eq_none.mp (Nat.find_min hex hm)
  obtain ⟨c, hc⟩ := Option.isSome_iff_exists.mp (Nat.find_spec hex)
  have hle : Nat.find hex ≤ n := Nat.find_min' hex (by rw [h]; rfl)
  have hbc : c = b := Option.some.inj ((run_mono hc hle).symm.trans h)
  exact ⟨Nat.find hex, ⟨Nat.find_spec hex, hleast⟩, hbc ▸ hc⟩

/-- The places of a loop that returns are distinct: from each of them it takes a different number of turns. -/
theorem Takes.places {S : Finset α} (hS : ∀ x ∈ S, ∀ y, step x = .inr y → y ∈ S) {n : Nat} {x : α} (hx : x ∈ S)
    (h : Takes step n x) :
    ∃ l : List α, l.length = n ∧ l.Nodup ∧ ∀ y ∈ l, y ∈ S ∧ ∃ m ≤ n, Takes step m y := by
  induction n generalizing x with
  | zero => exact absurd h.returns nofun
  | succ n ih =>
    cases hstep : step x with
    | inl b =>
      have hone : n + 1 = 1 := by
        refine takes_unique h ⟨by rw [run_returns hstep]; rfl, fun m hm => ?_⟩
        obtain rfl : m = 0 := by omega
        rfl
      refine ⟨[x], hone.symm, List.nodup_singleton x, fun y hy => ?_⟩
      obtain rfl := List.mem_singleton.mp hy
      exact ⟨hx, n + 1, le_rfl, h⟩
    | inr y =>
      have hrest : Takes step n y := by
        refine ⟨run_moves hstep n ▸ h.returns, fun m hm => ?_⟩
        rw [← run_moves hstep m]
        exact h.least (m + 1) (by omega)
      obtain ⟨l, hlen, hnodup, hl⟩ := ih (hS x hx y hstep) hrest
      refine ⟨x :: l, by rw [List.length_cons, hlen], List.nodup_cons.mpr ⟨fun hmem => ?_, hnodup⟩, fun z hz => ?_⟩
      · obtain ⟨-, m, hm, htakes⟩ := hl x hmem
        have := takes_unique h htakes
        omega
      · rcases List.mem_cons.mp hz with rfl | hz
        · exact ⟨hx, n + 1, le_rfl, h⟩
        · obtain ⟨hzS, m, hm, htakes⟩ := hl z hz
          exact ⟨hzS, m, by omega, htakes⟩

/-- **A loop that returns does so within as many turns as there are places.** -/
theorem run_card {S : Finset α} (hS : ∀ x ∈ S, ∀ y, step x = .inr y → y ∈ S) {n : Nat} {x : α} (hx : x ∈ S) {b : β}
    (h : run step n x = some b) : run step S.card x = some b := by
  classical
  obtain ⟨m, htakes, hm⟩ := exists_takes h
  obtain ⟨l, hlen, hnodup, hl⟩ := htakes.places hS hx
  refine run_mono hm ?_
  calc m = l.toFinset.card := by rw [List.toFinset_card_of_nodup hnodup, hlen]
    _ ≤ S.card := Finset.card_le_card fun y hy => (hl y (List.mem_toFinset.mp hy)).1

end Lepton.Loops

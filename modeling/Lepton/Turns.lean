import Mathlib.Order.Basic
import Mathlib.Data.List.Basic

/-! A system that takes turns. Its timers are set from a clock when it takes a turn, and they stay as they are until it
takes the next one. So a step either adds to the number of turns or keeps what the timers say, and so does a whole
run. -/

namespace Lepton.Turns

/-- What the clock still has to show are times up to `T`. -/
def Within (T : Int) (clocks : List Int) : Prop := ∀ t ∈ clocks, 0 ≤ t ∧ t ≤ T

instance (T : Int) : DecidablePred (Within T) :=
  fun clocks => inferInstanceAs (Decidable (∀ t ∈ clocks, 0 ≤ t ∧ t ≤ T))

theorem Within.suffix {T : Int} {clocks rest : List Int} (h : Within T clocks) (hrest : rest <:+ clocks) :
    Within T rest :=
  fun t ht => h t (hrest.subset ht)

/-- A clock that has nothing more to show shows zero. -/
theorem Within.reading {T : Int} {clocks : List Int} (h : Within T clocks) (hT : 0 ≤ T) :
    0 ≤ clocks.headD 0 ∧ clocks.headD 0 ≤ T := by
  cases clocks with
  | nil => exact ⟨Int.le_refl 0, hT⟩
  | cons t rest => exact h t List.mem_cons_self

variable {σ α : Type} {count : σ → Nat} {K : σ → σ → Prop}

/-- The turns are counted, and without a turn `K` holds. -/
structure Goes (count : σ → Nat) (K : σ → σ → Prop) (s s' : σ) : Prop where
  turns : count s ≤ count s'
  unturned : count s' = count s → K s s'

namespace Goes

variable {s s' s'' : σ}

theorem of_turn (h : count s < count s') : Goes count K s s' := ⟨Nat.le_of_lt h, fun heq => absurd heq (Nat.ne_of_gt h)⟩

/-- Without a turn in all there is none on the way. -/
theorem between (h : Goes count K s s') (h' : Goes count K s' s'') (heq : count s'' = count s) :
    count s' = count s ∧ count s'' = count s' := by
  have hle := h.turns
  have hle' := h'.turns
  omega

theorem trans [IsTrans σ K] (h : Goes count K s s') (h' : Goes count K s' s'') : Goes count K s s'' where
  turns := Nat.le_trans h.turns h'.turns
  unturned heq := Trans.trans (h.unturned (h.between h' heq).1) (h'.unturned (h.between h' heq).2)

/-- **The rule for runs.** -/
theorem run [IsPreorder σ K] {step : σ → α → σ} (hstep : ∀ s a, Goes count K s (step s a)) (s : σ) (acts : List α) :
    Goes count K s (acts.foldl step s) := by
  induction acts generalizing s with
  | nil => exact ⟨Nat.le_refl _, fun _ => refl s⟩
  | cons a rest ih => exact (hstep s a).trans (ih _)

end Goes

end Lepton.Turns

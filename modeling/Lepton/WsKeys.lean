import Lepton.Congruential
import Lepton.WsFrame
import Mathlib.Data.BitVec
import Mathlib.Data.FinEnum

/-! The mask keys. The generator steps through its 64-bit states by a linear congruence of full period. The key of a
state is a field of 32 bits of `state ^ (state >> 18)`, rotated by the five bits above it; the xor loses nothing, so a
key leaves the five bits above the field and the 27 bits below it open, and every key has `2 ^ 32` states. -/

namespace Lepton.Ws

open Congruential

/-- The state of the generator after `n` calls of `next()`. -/
def pcgState (seed : UInt64) (n : Nat) : UInt64 := (fun state => (pcgNext state).2)^[n] seed

/-- What the call behind `n` others returns. -/
def pcgKey (seed : UInt64) (n : Nat) : UInt32 := (pcgNext (pcgState seed n)).1

/-! ### The period -/

theorem card_uint64 : Nat.card UInt64 = 2 ^ 64 :=
  Nat.card_eq_of_equiv_fin ⟨UInt64.toFin, UInt64.ofFin, fun _ => rfl, fun _ => rfl⟩

theorem card_uint32 : Nat.card UInt32 = 2 ^ 32 :=
  Nat.card_eq_of_equiv_fin ⟨UInt32.toFin, UInt32.ofFin, fun _ => rfl, fun _ => rfl⟩

theorem card_bitVec (w : Nat) : Nat.card (BitVec w) = 2 ^ w := Nat.card_eq_of_equiv_fin BitVec.equivFin.toEquiv

/-- The state modulo `2 ^ 64`. -/
def residue (state : UInt64) : ZMod (2 ^ 64) := state.toNat

theorem residue_injective : Function.Injective residue := by
  intro s t h
  have hmod := (ZMod.natCast_eq_natCast_iff' _ _ _).mp h
  rw [Nat.mod_eq_of_lt s.toNat_lt, Nat.mod_eq_of_lt t.toNat_lt] at hmod
  exact UInt64.toNat_inj.mp hmod

theorem residue_pcgNext (state : UInt64) :
    residue (pcgNext state).2
      = step ((6364136223846793005 : Nat) : ZMod (2 ^ 64)) (1442695040888963407 : Nat) (residue state) := by
  have hnat : (pcgNext state).2.toNat
      = (6364136223846793005 * state.toNat + 1442695040888963407) % 2 ^ 64 := by
    change (state * 6364136223846793005 + 1442695040888963407).toNat = _
    rw [UInt64.toNat_add, UInt64.toNat_mul, Nat.mod_add_mod, Nat.mul_comm]
    rfl
  rw [residue, hnat, ZMod.natCast_mod, Nat.cast_add, Nat.cast_mul]
  rfl

theorem minimalPeriod_pcgNext (seed : UInt64) :
    Function.minimalPeriod (fun state => (pcgNext state).2) seed = Nat.card UInt64 := by
  rw [card_uint64]
  exact minimalPeriod_of_step (by decide) (by decide) residue_injective residue_pcgNext seed

/-! ### The keys -/

/-- `oldstate ^ (oldstate >> 18)`. -/
def stirred (state : UInt64) : BitVec 64 := state.toBitVec ^^^ state.toBitVec >>> 18

/-- The high bits are xored into the low ones, from which they can be taken out again. -/
theorem stirred_injective : Function.Injective stirred := by
  intro s t h
  have hstep (i : Nat) (hnext : s.toBitVec.getLsbD (18 + i) = t.toBitVec.getLsbD (18 + i)) :
      s.toBitVec.getLsbD i = t.toBitVec.getLsbD i := by
    have hbit := congrArg (BitVec.getLsbD · i) h
    simp only [stirred, BitVec.getLsbD_xor, BitVec.getLsbD_ushiftRight, hnext] at hbit
    exact Bool.xor_left_inj.mp hbit
  -- from the top of the word downwards, eighteen bits at a time
  have hall (j : Nat) : ∀ i, 64 ≤ i + 18 * j → s.toBitVec.getLsbD i = t.toBitVec.getLsbD i := by
    induction j with
    | zero =>
      intro i hi
      rw [BitVec.getLsbD_of_ge _ _ (by omega), BitVec.getLsbD_of_ge _ _ (by omega)]
    | succ j ih =>
      intro i hi
      exact hstep i (ih (18 + i) (by omega))
  exact UInt64.toBitVec_inj.mp (BitVec.eq_of_getLsbD_eq fun i _ => hall 4 i (by omega))

/-- A rotation by less than the width. -/
theorem getLsbD_rotate (m rot : UInt32) (hrot : rot.toNat < 32) {i : Nat} (hi : i < 32) :
    ((m >>> rot) ||| (m <<< ((32 - rot) &&& 31))).toBitVec.getLsbD i = m.toBitVec.getLsbD ((i + rot.toNat) % 32) := by
  have hright : (rot.toBitVec % 32).toNat = rot.toNat := by
    rw [BitVec.toNat_umod]
    exact Nat.mod_eq_of_lt hrot
  have hleft : (((32 - rot) &&& 31).toBitVec % 32).toNat = (32 - rot.toNat) % 32 := by
    have hsub : (32 - rot).toNat = 32 - rot.toNat := by
      rw [UInt32.toNat_sub]
      change (2 ^ 32 - rot.toNat + 32) % 2 ^ 32 = _
      omega
    have hand : ((32 - rot) &&& 31).toNat = (32 - rot.toNat) % 32 := by
      rw [UInt32.toNat_and, hsub]
      exact Nat.and_two_pow_sub_one_eq_mod _ 5
    rw [BitVec.toNat_umod]
    change ((32 - rot) &&& 31).toNat % 32 = _
    omega
  rw [UInt32.toBitVec_or, UInt32.toBitVec_shiftRight, UInt32.toBitVec_shiftLeft, BitVec.ushiftRight_eq',
    BitVec.shiftLeft_eq', hright, hleft, BitVec.getLsbD_or, BitVec.getLsbD_ushiftRight, BitVec.getLsbD_shiftLeft]
  by_cases hin : i + rot.toNat < 32
  · rw [Nat.mod_eq_of_lt hin, Nat.add_comm rot.toNat i]
    by_cases hzero : rot.toNat = 0
    · simp [hzero, hi]
    · have hlow : i < (32 - rot.toNat) % 32 := by omega
      simp [hlow]
  · have hwrap : (i + rot.toNat) % 32 = i - (32 - rot.toNat) % 32 := by omega
    have hhigh : ¬ i < (32 - rot.toNat) % 32 := by omega
    rw [BitVec.getLsbD_of_ge m.toBitVec (rot.toNat + i) (by omega), hwrap]
    simp [hi, hhigh]

/-- The five highest bits are not touched by the xor. -/
theorem extract_stirred (state : UInt64) : (stirred state).extractLsb' 59 5 = state.toBitVec.extractLsb' 59 5 := by
  apply BitVec.eq_of_getLsbD_eq
  intro i hi
  simp only [BitVec.getLsbD_extractLsb', stirred, BitVec.getLsbD_xor, BitVec.getLsbD_ushiftRight]
  rw [BitVec.getLsbD_of_ge state.toBitVec (18 + (59 + i)) (by omega), Bool.xor_false]

theorem getLsbD_key (state : UInt64) {i : Nat} (hi : i < 32) :
    (pcgNext state).1.toBitVec.getLsbD i
      = (stirred state).getLsbD (27 + (i + ((stirred state).extractLsb' 59 5).toNat) % 32) := by
  have hlt := state.toNat_lt
  have hrot : (state >>> 59).toUInt32.toNat = ((stirred state).extractLsb' 59 5).toNat := by
    rw [extract_stirred, BitVec.extractLsb'_toNat, UInt64.toNat_toUInt32, UInt64.toNat_shiftRight]
    change state.toNat >>> 59 % 2 ^ 32 = state.toNat >>> 59 % 2 ^ 5
    rw [Nat.shiftRight_eq_div_pow]
    omega
  have hfield {j : Nat} (hj : j < 32) :
      (((state >>> 18) ^^^ state) >>> 27).toUInt32.toBitVec.getLsbD j = (stirred state).getLsbD (27 + j) := by
    rw [UInt64.toBitVec_toUInt32, BitVec.getLsbD_setWidth, UInt64.toBitVec_shiftRight, UInt64.toBitVec_xor,
      UInt64.toBitVec_shiftRight, BitVec.xor_comm]
    simp only [hj, decide_true, Bool.true_and]
    exact BitVec.getLsbD_ushiftRight (stirred state) 27 j
  have hkey := getLsbD_rotate (((state >>> 18) ^^^ state) >>> 27).toUInt32 (state >>> 59).toUInt32
    (hrot ▸ ((stirred state).extractLsb' 59 5).isLt) hi
  rw [hrot, hfield (Nat.mod_lt _ (by decide))] at hkey
  exact hkey

/-- The bits of a state that its key leaves open. -/
def spare (state : UInt64) : BitVec 5 × BitVec 27 :=
  ((stirred state).extractLsb' 59 5, (stirred state).extractLsb' 0 27)

theorem spare_key_injective : Function.Injective fun state => (spare state, (pcgNext state).1) := by
  intro s t h
  obtain ⟨hspare, hkey⟩ := Prod.mk.inj h
  obtain ⟨htop, hlow⟩ := Prod.mk.inj hspare
  refine stirred_injective (BitVec.eq_of_getLsbD_eq fun i hi => ?_)
  by_cases hbelow : i < 27
  · have hbit := congrArg (BitVec.getLsbD · i) hlow
    simpa only [BitVec.getLsbD_extractLsb', hbelow, decide_true, Bool.true_and, Nat.zero_add] using hbit
  by_cases habove : 59 ≤ i
  · have hbit := congrArg (BitVec.getLsbD · (i - 59)) htop
    have hin : i - 59 < 5 := by omega
    simpa only [BitVec.getLsbD_extractLsb', hin, decide_true, Bool.true_and, Nat.add_sub_cancel' habove] using hbit
  · -- the bit of the key that the rotation makes of bit `i`
    have hrot := ((stirred s).extractLsb' 59 5).isLt
    obtain ⟨j, hj, hplace⟩ : ∃ j < 32, 27 + (j + ((stirred s).extractLsb' 59 5).toNat) % 32 = i :=
      ⟨(i - 27 + 32 - ((stirred s).extractLsb' 59 5).toNat) % 32, Nat.mod_lt _ (by decide), by omega⟩
    have hs := getLsbD_key s hj
    have ht := getLsbD_key t hj
    rw [← htop, hplace] at ht
    rw [hplace] at hs
    rw [← hs, ← ht, hkey]

theorem spare_key_bijective : Function.Bijective fun state => (spare state, (pcgNext state).1) := by
  refine spare_key_injective.bijective_of_nat_card_le ?_
  rw [Nat.card_prod, Nat.card_prod, card_bitVec, card_bitVec, card_uint32, card_uint64]
  exact Nat.le_of_eq rfl

theorem card_key (key : UInt32) : Nat.card { state // (pcgNext state).1 = key } = 2 ^ 32 := by
  rw [card_fiber spare_key_bijective, Nat.card_prod, card_bitVec, card_bitVec]
  rfl

/-- **Full period and balanced keys.** From every seed the generator goes through all `2 ^ 64` states, each of them
once, before it is back at the seed, and on the way returns every key `2 ^ 32` times. -/
theorem pcg_full_period (seed : UInt64) :
    (∀ state, ∃! n, n < 2 ^ 64 ∧ pcgState seed n = state) ∧
    (∀ n, pcgState seed n = seed ↔ 2 ^ 64 ∣ n) ∧
    ∀ key, ((Finset.range (2 ^ 64)).filter fun n => pcgKey seed n = key).card = 2 ^ 32 := by
  have hperiod := minimalPeriod_pcgNext seed
  refine ⟨fun state => ?_, fun n => ?_, fun key => ?_⟩
  · rw [← card_uint64]
    exact existsUnique_iterate hperiod state
  · rw [← card_uint64, ← hperiod]
    exact Function.isPeriodicPt_iff_minimalPeriod_dvd
  · rw [← card_uint64, ← card_key key]
    exact card_iterate hperiod fun state => (pcgNext state).1 = key

end Lepton.Ws

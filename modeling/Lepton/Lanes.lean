import Mathlib.Data.BitVec

/-! Bytes in machine words. A word of `w` bytes is loaded from memory and stored to it with the least significant byte
first. Bitwise operations on words act on each byte by itself, and a broadcast word repeats its bytes. -/

namespace Lepton.Lanes

variable {j n w : Nat}

/-- The value of a little-endian field. -/
def leNat : List UInt8 → Nat
  | [] => 0
  | b :: bytes => b.toNat + 256 * leNat bytes

/-- The word whose bytes lie in memory. -/
def load (w : Nat) (bytes : List UInt8) : BitVec (8 * w) := BitVec.ofNat (8 * w) (leNat bytes)

/-- A byte of a word, from the least significant one on. -/
def byteAt {n : Nat} (x : BitVec n) (j : Nat) : UInt8 := ⟨x.extractLsb' (8 * j) 8⟩

/-- The bytes of a word as they lie in memory. -/
def store (w : Nat) (x : BitVec (8 * w)) : List UInt8 := (List.range w).map (byteAt x)

theorem length_store (x : BitVec (8 * w)) : (store w x).length = w := by
  rw [store, List.length_map, List.length_range]

theorem leNat_lt (bytes : List UInt8) : leNat bytes < 2 ^ (8 * bytes.length) := by
  induction bytes with
  | nil => exact Nat.one_pos
  | cons b bytes ih =>
    have hb := b.toNat_lt
    rw [leNat, List.length_cons, Nat.mul_add, Nat.pow_add]
    omega

theorem leNat_byte {bytes : List UInt8} (hj : j < bytes.length) :
    leNat bytes >>> (8 * j) % 2 ^ 8 = bytes[j].toNat := by
  induction bytes generalizing j with
  | nil => exact absurd hj (Nat.not_lt_zero j)
  | cons b bytes ih =>
    have hb := b.toNat_lt
    cases j with
    | zero =>
      rw [leNat, Nat.mul_zero, Nat.shiftRight_zero, List.getElem_cons_zero]
      omega
    | succ j =>
      have hdiv : (b.toNat + 256 * leNat bytes) / 2 ^ 8 = leNat bytes := by omega
      rw [leNat, Nat.mul_succ, Nat.add_comm (8 * j) 8, Nat.shiftRight_add, Nat.shiftRight_eq_div_pow _ 8, hdiv,
        List.getElem_cons_succ]
      exact ih (Nat.lt_of_succ_lt_succ hj)

theorem byteAt_load {bytes : List UInt8} (h : bytes.length = w) (hj : j < bytes.length) :
    byteAt (load w bytes) j = bytes[j] := by
  subst h
  apply UInt8.toNat_inj.mp
  change ((load bytes.length bytes).extractLsb' (8 * j) 8).toNat = _
  rw [BitVec.extractLsb'_toNat, load, BitVec.toNat_ofNat, Nat.mod_eq_of_lt (leNat_lt bytes), leNat_byte hj]

theorem byteAt_xor (x y : BitVec n) (j : Nat) : byteAt (x ^^^ y) j = byteAt x j ^^^ byteAt y j := by
  apply UInt8.toBitVec_inj.mp
  exact BitVec.extractLsb'_xor

/-- A word is xored in memory byte by byte. -/
theorem store_load_xor {bytes : List UInt8} (h : bytes.length = w) (x : BitVec (8 * w)) :
    store w (load w bytes ^^^ x) = bytes.mapIdx fun j b => b ^^^ byteAt x j := by
  apply List.ext_getElem
  · rw [length_store, List.length_mapIdx, h]
  · intro j hj hj'
    rw [List.length_mapIdx] at hj'
    rw [List.getElem_mapIdx]
    simp only [store, List.getElem_map, List.getElem_range]
    rw [byteAt_xor, byteAt_load h hj']

theorem byteAt_congr {m : Nat} {x : BitVec n} {y : BitVec m} {i : Nat}
    (h : ∀ k < 8, x.getLsbD (8 * i + k) = y.getLsbD (8 * j + k)) : byteAt x i = byteAt y j := by
  apply UInt8.toBitVec_inj.mp
  apply BitVec.eq_of_getLsbD_eq
  intro k hk
  change (x.extractLsb' (8 * i) 8).getLsbD k = (y.extractLsb' (8 * j) 8).getLsbD k
  rw [BitVec.getLsbD_extractLsb', BitVec.getLsbD_extractLsb', h k hk]

/-- A broadcast word repeats its bytes. -/
theorem byteAt_replicate (x : BitVec (8 * w)) (hj : j < w * n) :
    byteAt (x.replicate n) j = byteAt x (j % w) := by
  apply byteAt_congr
  intro k hk
  have hin : 8 * j + k < 8 * w * n := by
    rw [Nat.mul_assoc]
    omega
  have hmod : (8 * j + k) % (8 * w) = 8 * (j % w) + k := by
    rw [Nat.mod_mul, Nat.mul_add_mod, Nat.mod_eq_of_lt hk, Nat.mul_add_div (by decide), Nat.div_eq_of_lt hk, Nat.add_zero,
      Nat.add_comm]
  rw [BitVec.getLsbD_replicate, decide_eq_true hin, Bool.true_and, hmod]

/-- So does a word shifted and added to itself. -/
theorem byteAt_double (x : BitVec 32) (hj : j < 8) :
    byteAt ((x.setWidth 64 <<< 32) ||| x.setWidth 64) j = byteAt x (j % 4) := by
  apply byteAt_congr
  intro k hk
  rw [BitVec.getLsbD_or, BitVec.getLsbD_shiftLeft, BitVec.getLsbD_setWidth, BitVec.getLsbD_setWidth]
  by_cases hlow : j < 4
  · have hin : 8 * j + k < 32 := by omega
    have hin' : 8 * j + k < 64 := by omega
    rw [Nat.mod_eq_of_lt hlow, decide_eq_true hin, decide_eq_true hin']
    rfl
  · have hin : ¬ 8 * j + k < 32 := by omega
    have hin' : 8 * j + k < 64 := by omega
    have hpos : 8 * j + k - 32 = 8 * (j % 4) + k := by omega
    have hpos' : 8 * j + k - 32 < 64 := by omega
    have hhigh : x.getLsbD (8 * j + k) = false := BitVec.getLsbD_of_ge x _ (Nat.not_lt.mp hin)
    rw [decide_eq_false hin, decide_eq_true hin', decide_eq_true hpos', hhigh, hpos]
    simp

theorem store_load {bytes : List UInt8} (h : bytes.length = w) : store w (load w bytes) = bytes := by
  apply List.ext_getElem
  · rw [length_store, h]
  · intro j hj hj'
    simp only [store, List.getElem_map, List.getElem_range]
    exact byteAt_load h hj'

theorem eq_of_byteAt {x y : BitVec (8 * w)} (h : ∀ j < w, byteAt x j = byteAt y j) : x = y := by
  apply BitVec.eq_of_getLsbD_eq
  intro i hi
  have hbit (z : BitVec (8 * w)) : z.getLsbD i = (byteAt z (i / 8)).toBitVec.getLsbD (i % 8) := by
    change _ = (z.extractLsb' (8 * (i / 8)) 8).getLsbD (i % 8)
    rw [BitVec.getLsbD_extractLsb', decide_eq_true (Nat.mod_lt i (by decide)), Bool.true_and, Nat.div_add_mod]
  rw [hbit x, hbit y, h (i / 8) (by omega)]

theorem load_store (x : BitVec (8 * w)) : load w (store w x) = x := by
  apply eq_of_byteAt
  intro j hj
  rw [byteAt_load (length_store x) (by rw [length_store]; exact hj)]
  simp only [store, List.getElem_map, List.getElem_range]

theorem toNat_load {bytes : List UInt8} (h : bytes.length = w) : (load w bytes).toNat = leNat bytes := by
  subst h
  rw [load, BitVec.toNat_ofNat, Nat.mod_eq_of_lt (leNat_lt bytes)]

theorem byteAt_or (x y : BitVec n) (j : Nat) : byteAt (x ||| y) j = byteAt x j ||| byteAt y j := by
  apply UInt8.toBitVec_inj.mp
  exact BitVec.extractLsb'_or

theorem byteAt_and (x y : BitVec n) (j : Nat) : byteAt (x &&& y) j = byteAt x j &&& byteAt y j := by
  apply UInt8.toBitVec_inj.mp
  exact BitVec.extractLsb'_and

theorem byteAt_of_le (x : BitVec n) (hj : n ≤ 8 * j) : byteAt x j = 0 := by
  apply UInt8.toBitVec_inj.mp
  apply BitVec.eq_of_getLsbD_eq
  intro k _
  change (x.extractLsb' (8 * j) 8).getLsbD k = (0#8).getLsbD k
  rw [BitVec.getLsbD_extractLsb', BitVec.getLsbD_of_ge x _ (by omega), Bool.and_false, BitVec.getLsbD_zero]

theorem byteAt_shiftRight (x : BitVec n) (m j : Nat) : byteAt (x >>> (8 * m)) j = byteAt x (j + m) := by
  apply byteAt_congr
  intro k _
  rw [BitVec.getLsbD_ushiftRight]
  congr 1
  omega

theorem byteAt_shiftLeft (x : BitVec n) {m : Nat} (hj : 8 * j + 8 ≤ n) :
    byteAt (x <<< (8 * m)) j = if j < m then 0 else byteAt x (j - m) := by
  split
  · next hlow =>
    apply UInt8.toBitVec_inj.mp
    apply BitVec.eq_of_getLsbD_eq
    intro k hk
    change ((x <<< (8 * m)).extractLsb' (8 * j) 8).getLsbD k = (0#8).getLsbD k
    have hin : 8 * j + k < 8 * m := by omega
    rw [BitVec.getLsbD_extractLsb', BitVec.getLsbD_shiftLeft, decide_eq_true hin, BitVec.getLsbD_zero]
    simp
  · apply byteAt_congr
    intro k hk
    have hin : 8 * j + k < n := by omega
    have hout : ¬ 8 * j + k < 8 * m := by omega
    rw [BitVec.getLsbD_shiftLeft, decide_eq_true hin, decide_eq_false hout, Bool.true_and, Bool.not_false, Bool.true_and]
    congr 1
    omega

end Lepton.Lanes

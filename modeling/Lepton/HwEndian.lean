import Mathlib.Tactic.IntervalCases
import Lepton.Lanes
import Lepton.WsCodec

/-! The byte order of the length fields. The codec swaps the bytes of a word on a little-endian machine and leaves them on a
big-endian one, and copies the word to the frame as it lies in memory. The field is then the number with its most significant
byte first, on either machine and with every compiler, but for the swap of 64 bits that is written out for compilers without
a builtin. -/

namespace Lepton.HwEndian

open Lanes

/-- `std::endian::native`. -/
inductive Endian where
  | little
  | big
  deriving DecidableEq, Repr

/-- The branches of the swaps. -/
inductive Compiler where
  | gnu
  | msvc
  | other
  deriving DecidableEq, Repr

/-- The builtins of the compilers. -/
def bswap (w : Nat) (x : BitVec (8 * w)) : BitVec (8 * w) := load w (store w x).reverse

def byteSwap16 (c : Compiler) (x : BitVec 16) : BitVec 16 :=
  match c with
  | .gnu | .msvc => bswap 2 x
  | .other => (x >>> 8) ||| (x <<< 8)

def byteSwap32 (c : Compiler) (x : BitVec 32) : BitVec 32 :=
  match c with
  | .gnu | .msvc => bswap 4 x
  | .other =>
    ((x >>> 24) &&& 0xff) ||| ((x >>> 8) &&& 0xff00) ||| ((x <<< 8) &&& 0xff0000) ||| ((x <<< 24) &&& 0xff000000)

def byteSwap64 (c : Compiler) (x : BitVec 64) : BitVec 64 :=
  match c with
  | .gnu | .msvc => bswap 8 x
  | .other =>
    ((x >>> 56) &&& 0xff) ||| ((x >>> 48) &&& 0xff00) ||| ((x >>> 40) &&& 0xff0000) ||| ((x >>> 32) &&& 0xff000000) |||
      ((x <<< 8) &&& 0xff00000000) ||| ((x <<< 24) &&& 0xff0000000000) ||| ((x <<< 40) &&& 0xff000000000000) |||
      ((x <<< 56) &&& 0xff00000000000000)

/-- The word itself on a big-endian machine, and swapped on a little-endian one. -/
def Endian.order {n : Nat} (e : Endian) (swap : BitVec n → BitVec n) (x : BitVec n) : BitVec n :=
  match e with
  | .little => swap x
  | .big => x

def netToHost16 (c : Compiler) (e : Endian) : BitVec 16 → BitVec 16 := e.order (byteSwap16 c)
def hostToNet16 (c : Compiler) (e : Endian) : BitVec 16 → BitVec 16 := e.order (byteSwap16 c)
def netToHost32 (c : Compiler) (e : Endian) : BitVec 32 → BitVec 32 := e.order (byteSwap32 c)
def hostToNet32 (c : Compiler) (e : Endian) : BitVec 32 → BitVec 32 := e.order (byteSwap32 c)
def netToHost64 (c : Compiler) (e : Endian) : BitVec 64 → BitVec 64 := e.order (byteSwap64 c)
def hostToNet64 (c : Compiler) (e : Endian) : BitVec 64 → BitVec 64 := e.order (byteSwap64 c)

/-- `memcpy` of a word to memory. -/
def Endian.copyOut (e : Endian) (w : Nat) (x : BitVec (8 * w)) : List UInt8 :=
  match e with
  | .little => store w x
  | .big => (store w x).reverse

/-- `memcpy` of a word from memory. -/
def Endian.copyIn (e : Endian) (w : Nat) (bytes : List UInt8) : BitVec (8 * w) :=
  match e with
  | .little => load w bytes
  | .big => load w bytes.reverse

/-- A field of `w` bytes is written and read with the most significant byte first. -/
structure BigEndian (e : Endian) (w : Nat) (hostToNet netToHost : BitVec (8 * w) → BitVec (8 * w)) : Prop where
  writes : ∀ x, e.copyOut w (hostToNet x) = Ws.beBytes w x.toNat
  reads : ∀ bytes, bytes.length = w → (netToHost (e.copyIn w bytes)).toNat = Ws.beNat bytes

theorem leNat_reverse (bytes : List UInt8) : leNat bytes.reverse = Ws.beNat bytes := by
  induction bytes using List.reverseRecOn with
  | nil => rfl
  | append_singleton bytes b ih =>
    rw [List.reverse_append, List.reverse_singleton, List.singleton_append, leNat, ih, Ws.beNat_snoc]
    omega

theorem reverse_store {w : Nat} (x : BitVec (8 * w)) : (store w x).reverse = Ws.beBytes w x.toNat := by
  have hvalue : x.toNat = Ws.beNat (store w x).reverse := by
    rw [← leNat_reverse, List.reverse_reverse, ← toNat_load (length_store x), load_store]
  have hlength : (store w x).reverse.length = w := by rw [List.length_reverse, length_store]
  rw [hvalue]
  conv => rhs; lhs; rw [← hlength]
  exact (Ws.beBytes_beNat _).symm

/-- It is so if the swap reverses the bytes. -/
theorem bigEndian_of_swap {w : Nat} {swap : BitVec (8 * w) → BitVec (8 * w)} (hswap : ∀ x, swap x = bswap w x) (e : Endian) :
    BigEndian e w (e.order swap) (e.order swap) := by
  have hlength (bytes : List UInt8) (h : bytes.length = w) : bytes.reverse.length = w := by rw [List.length_reverse, h]
  cases e with
  | little =>
    refine ⟨fun x => ?_, fun bytes h => ?_⟩
    · change store w (swap x) = _
      rw [hswap, bswap, store_load (hlength _ (length_store x))]
      exact reverse_store x
    · change (swap (load w bytes)).toNat = _
      rw [hswap, bswap, store_load h, toNat_load (hlength bytes h)]
      exact leNat_reverse bytes
  | big =>
    refine ⟨fun x => reverse_store x, fun bytes h => ?_⟩
    change (load w bytes.reverse).toNat = _
    rw [toNat_load (hlength bytes h)]
    exact leNat_reverse bytes

theorem byteAt_bswap {w : Nat} (x : BitVec (8 * w)) {j : Nat} (hj : j < w) : byteAt (bswap w x) j = byteAt x (w - 1 - j) := by
  have hlength : (store w x).reverse.length = w := by rw [List.length_reverse, length_store]
  rw [bswap, byteAt_load hlength (by rw [hlength]; exact hj), List.getElem_reverse]
  simp only [store, List.getElem_map, List.getElem_range, List.length_map, List.length_range]

/-- The mask of one byte. -/
def mask (n i : Nat) : BitVec n := (0xff : BitVec n) <<< (8 * i)

theorem byteAt_mask {n : Nat} {i j : Nat} (hj : 8 * j + 8 ≤ n) : byteAt (mask n i) j = if j = i then 0xff else 0 := by
  have hff (k : Nat) : byteAt (0xff : BitVec n) k = if k = 0 then 0xff else 0 := by
    have hn : 2 ^ 8 ≤ 2 ^ n := Nat.pow_le_pow_right (by decide) (by omega)
    apply UInt8.toNat_inj.mp
    change ((0xff : BitVec n).extractLsb' (8 * k) 8).toNat = _
    have hvalue : (0xff : BitVec n).toNat = 255 := Nat.mod_eq_of_lt (Nat.lt_of_lt_of_le (by decide : 255 < 2 ^ 8) hn)
    rw [BitVec.extractLsb'_toNat, hvalue]
    split
    · next hk =>
      subst hk
      rfl
    · next hk =>
      have hshift : 255 >>> (8 * k) = 0 := by
        rw [Nat.shiftRight_eq_div_pow]
        exact Nat.div_eq_of_lt (Nat.lt_of_lt_of_le (by decide : 255 < 2 ^ 8) (Nat.pow_le_pow_right (by decide) (by omega)))
      rw [hshift]
      rfl
  rw [mask, byteAt_shiftLeft _ hj, hff]
  split
  · rw [if_neg (by omega)]
  · next hle =>
    by_cases heq : j = i
    · rw [if_pos (by omega), if_pos heq]
    · rw [if_neg (by omega), if_neg heq]

theorem and_mask (b : UInt8) (p : Prop) [Decidable p] : (b &&& if p then 0xff else 0) = if p then b else 0 := by
  split
  · apply UInt8.toBitVec_inj.mp
    exact BitVec.and_allOnes
  · exact UInt8.and_zero

theorem byteAt_down {n : Nat} (x : BitVec n) {m i j : Nat} (hj : 8 * j + 8 ≤ n) :
    byteAt ((x >>> (8 * m)) &&& mask n i) j = if j = i then byteAt x (j + m) else 0 := by
  rw [byteAt_and, byteAt_shiftRight, byteAt_mask hj, and_mask]

theorem byteAt_up {n : Nat} (x : BitVec n) {m i j : Nat} (hj : 8 * j + 8 ≤ n) :
    byteAt ((x <<< (8 * m)) &&& mask n i) j
      = if j = i then (if j < m then 0 else byteAt x (j - m)) else 0 := by
  rw [byteAt_and, byteAt_shiftLeft x hj, byteAt_mask hj, and_mask]

theorem byteSwap16_eq (c : Compiler) (x : BitVec 16) : byteSwap16 c x = bswap 2 x := by
  cases c with
  | gnu => rfl
  | msvc => rfl
  | other =>
    apply eq_of_byteAt (w := 2)
    intro j hj
    have hin : 8 * j + 8 ≤ 16 := by omega
    have hparts : byteSwap16 .other x = (x >>> (8 * 1)) ||| (x <<< (8 * 1)) := rfl
    rw [byteAt_bswap (w := 2) x hj, hparts, byteAt_or, byteAt_shiftRight, byteAt_shiftLeft x hin]
    interval_cases j
    · simp
    · simp [byteAt_of_le x (j := 2) (by decide)]

theorem byteSwap32_eq (c : Compiler) (x : BitVec 32) : byteSwap32 c x = bswap 4 x := by
  cases c with
  | gnu => rfl
  | msvc => rfl
  | other =>
    apply eq_of_byteAt (w := 4)
    intro j hj
    have hin : 8 * j + 8 ≤ 32 := by omega
    have hparts : byteSwap32 .other x
        = ((x >>> (8 * 3)) &&& mask 32 0) ||| ((x >>> (8 * 1)) &&& mask 32 1) |||
          ((x <<< (8 * 1)) &&& mask 32 2) ||| ((x <<< (8 * 3)) &&& mask 32 3) := rfl
    rw [byteAt_bswap (w := 4) x hj, hparts]
    simp only [byteAt_or, byteAt_down x hin, byteAt_up x hin]
    interval_cases j <;> simp

/-- The 64-bit swap that is written out takes the first byte four times. -/
theorem byteAt_byteSwap64_other (x : BitVec 64) {j : Nat} (hj : j < 8) :
    byteAt (byteSwap64 .other x) j = byteAt x (if j < 4 then 7 else 7 - j) := by
  have hin : 8 * j + 8 ≤ 64 := by omega
  have hparts : byteSwap64 .other x
      = ((x >>> (8 * 7)) &&& mask 64 0) ||| ((x >>> (8 * 6)) &&& mask 64 1) |||
        ((x >>> (8 * 5)) &&& mask 64 2) ||| ((x >>> (8 * 4)) &&& mask 64 3) |||
        ((x <<< (8 * 1)) &&& mask 64 4) ||| ((x <<< (8 * 3)) &&& mask 64 5) |||
        ((x <<< (8 * 5)) &&& mask 64 6) ||| ((x <<< (8 * 7)) &&& mask 64 7) := rfl
  rw [hparts]
  simp only [byteAt_or, byteAt_down x hin, byteAt_up x hin]
  interval_cases j <;> simp

/-- **A length field is written and read with its most significant byte first**, with every compiler and on either machine;
for 64 bits if and only if the swap is not the one that is written out. -/
theorem fields_big_endian (c : Compiler) (e : Endian) :
    BigEndian e 2 (hostToNet16 c e) (netToHost16 c e) ∧ BigEndian e 4 (hostToNet32 c e) (netToHost32 c e) ∧
      (BigEndian e 8 (hostToNet64 c e) (netToHost64 c e) ↔ ¬ (c = .other ∧ e = .little)) := by
  refine ⟨bigEndian_of_swap (w := 2) (byteSwap16_eq c) e, bigEndian_of_swap (w := 4) (byteSwap32_eq c) e, ?_, fun h => ?_⟩
  · rintro hbig ⟨rfl, rfl⟩
    let x : BitVec 64 := 0x0100000000000000
    have hsecond : (store 8 (byteSwap64 .other x))[1]? = some (byteAt x 7) :=
      congrArg some (byteAt_byteSwap64_other x (by decide))
    have hbytes : store 8 (byteSwap64 .other x) = Ws.beBytes 8 x.toNat := hbig.writes x
    rw [hbytes] at hsecond
    exact absurd hsecond (by decide)
  · cases e with
    | little =>
      refine bigEndian_of_swap (w := 8) (fun x => ?_) .little
      cases c with
      | gnu => rfl
      | msvc => rfl
      | other => exact absurd ⟨rfl, rfl⟩ h
    | big => exact ⟨fun x => reverse_store x, (bigEndian_of_swap (w := 8) (fun _ => rfl) .big).reads⟩

/-- The assertion behind the definition refuses that swap. -/
theorem byteSwap64_other_refused : byteSwap64 .other 0x1234567876543210 ≠ 0x1032547678563412 := by
  decide

end Lepton.HwEndian

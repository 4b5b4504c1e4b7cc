import Mathlib.Data.Nat.Basic
import Mathlib.Tactic.Ring
import Mathlib.Tactic.NormNum

/-! Unsigned machine words as natural numbers. Addition and subtraction wrap at `2 ^ 64`, as
`std::size_t` arithmetic does; below the wrap they agree with the natural-number operations, and
above it a sum comes out smaller than either summand allows. -/

namespace Lepton.Words

/-- The modulus of the 64-bit word. -/
def wordSize : Nat := 2 ^ 64

/-- The largest word, used by the sources as a sentinel. -/
def wordMax : Nat := 2 ^ 64 - 1

def add (a b : Nat) : Nat := (a + b) % wordSize

def sub (a b : Nat) : Nat := (a + (wordSize - b % wordSize)) % wordSize

theorem add_lt (a b : Nat) : add a b < wordSize := Nat.mod_lt _ (by decide)

theorem add_of_lt {a b : Nat} (h : a + b < wordSize) : add a b = a + b := Nat.mod_eq_of_lt h

theorem sub_of_le {a b : Nat} (ha : a < wordSize) (h : b ≤ a) : sub a b = a - b := by
  have hb : b % wordSize = b := Nat.mod_eq_of_lt (h.trans_lt ha)
  have hsum : a + (wordSize - b) = a - b + wordSize := by omega
  rw [sub, hb, hsum, Nat.add_mod_right, Nat.mod_eq_of_lt (by omega)]

/-- A sum that reaches the modulus, once, loses exactly the modulus. -/
theorem add_of_wrap {a b : Nat} (hle : wordSize ≤ a + b) (hlt : a + b < 2 * wordSize) :
    add a b = a + b - wordSize := by
  rw [add, Nat.mod_eq_sub_mod hle, Nat.mod_eq_of_lt (by omega)]

theorem add_assoc (a b c : Nat) : add (add a b) c = (a + b + c) % wordSize := by
  rw [add, add, Nat.mod_add_mod]

end Lepton.Words

import Lepton.Words
import Lepton.Search

/-! Byte-level text helpers of the HTTP layer: ASCII literals, the case-insensitive prefix test
`istarts_with`, and the two digit loops that read a length from the wire. Both accumulate in a
64-bit word, so a long digit string is reduced modulo `2 ^ 64`. -/

namespace Lepton

/-- A property of all bytes, byte by byte. -/
theorem forall_byte {P : UInt8 → Prop} (h : ∀ n < 256, P (UInt8.ofNat n)) (b : UInt8) : P b := by
  have hb := h b.toNat b.toNat_lt
  rwa [UInt8.ofNat_toNat] at hb

end Lepton

namespace Lepton.Http

open Words Search

/-- The bytes of an ASCII literal. -/
def ascii (text : String) : List UInt8 := text.toList.map fun c => c.toNat.toUInt8

def crlf : List UInt8 := [13, 10]

def crlfcrlf : List UInt8 := [13, 10, 13, 10]

/-- `if (c >= 'A' && c <= 'Z') c |= 0x20`. -/
def lower (c : UInt8) : UInt8 := if 65 ≤ c ∧ c ≤ 90 then c ||| 0x20 else c

/-- `detail::istarts_with`. -/
def istartsWith : List UInt8 → List UInt8 → Bool
  | _, [] => true
  | [], _ :: _ => false
  | h :: hay, n :: needle => lower h == lower n && istartsWith hay needle

def hexDigit (c : UInt8) : Option Nat :=
  if 48 ≤ c ∧ c ≤ 57 then some (c.toNat - 48)
  else if 97 ≤ c ∧ c ≤ 102 then some (c.toNat - 97 + 10)
  else if 65 ≤ c ∧ c ≤ 70 then some (c.toNat - 65 + 10)
  else none

/-- The loop of `parse_hex`: digits are shifted in, `;` ends the size, anything else is malformed. -/
def parseHexLoop (v : Nat) : List UInt8 → Nat
  | [] => v
  | c :: rest =>
    match hexDigit c with
    | some d => parseHexLoop ((v * 16 + d) % wordSize) rest
    | none => if c = 59 then v else wordMax

/-- `detail::parse_hex`. -/
def parseHex (s : List UInt8) : Nat := if s = [] then wordMax else parseHexLoop 0 s

def decDigit (c : UInt8) : Option Nat := if 48 ≤ c ∧ c ≤ 57 then some (c.toNat - 48) else none

/-- The Content-Length digit loop: it stops at the first byte that is not a digit. -/
def parseDecLoop (n : Nat) : List UInt8 → Nat
  | [] => n
  | c :: rest =>
    match decDigit c with
    | some d => parseDecLoop ((n * 10 + d) % wordSize) rest
    | none => n

/-- `while (!v.empty() && v.front() == ' ') v.remove_prefix(1)`. -/
def trimFront : List UInt8 → List UInt8
  | [] => []
  | c :: rest => if c = 32 then trimFront rest else c :: rest

theorem parseHexLoop_lt {v : Nat} (hv : v < wordSize) (s : List UInt8) :
    parseHexLoop v s < wordSize := by
  induction s generalizing v with
  | nil => exact hv
  | cons c rest ih =>
    rw [parseHexLoop]
    cases hexDigit c with
    | some d => exact ih (Nat.mod_lt _ (by decide))
    | none =>
      by_cases hc : c = 59
      · simpa only [if_pos hc] using hv
      · simp only [if_neg hc]
        decide

theorem parseHex_lt (s : List UInt8) : parseHex s < wordSize := by
  unfold parseHex
  split
  · decide
  · exact parseHexLoop_lt (by decide) s

theorem parseDecLoop_lt {n : Nat} (hn : n < wordSize) (s : List UInt8) :
    parseDecLoop n s < wordSize := by
  induction s generalizing n with
  | nil => exact hn
  | cons c rest ih =>
    rw [parseDecLoop]
    cases decDigit c with
    | some d => exact ih (Nat.mod_lt _ (by decide))
    | none => exact hn

theorem istartsWith_append {hay needle : List UInt8} (h : istartsWith hay needle = true) (rest : List UInt8) :
    istartsWith (hay ++ rest) needle = true := by
  induction hay generalizing needle with
  | nil =>
    cases needle with
    | nil => cases rest <;> rfl
    | cons n needle => cases h
  | cons c hay ih =>
    cases needle with
    | nil => rfl
    | cons n needle =>
      rw [istartsWith, Bool.and_eq_true] at h
      rw [List.cons_append, istartsWith, Bool.and_eq_true]
      exact ⟨h.1, ih h.2⟩

/-- A byte that is not in the needle ends the comparison. -/
theorem istartsWith_append_cons {needle : List UInt8} {c : UInt8} (h : ∀ n ∈ needle, lower n ≠ lower c)
    (hay rest : List UInt8) : istartsWith (hay ++ c :: rest) needle = istartsWith hay needle := by
  induction hay generalizing needle with
  | nil =>
    cases needle with
    | nil => rfl
    | cons n needle =>
      have hne : (lower c == lower n) = false := beq_eq_false_iff_ne.mpr (h n List.mem_cons_self).symm
      rw [List.nil_append, istartsWith, istartsWith, hne]
      rfl
  | cons d hay ih =>
    cases needle with
    | nil => rfl
    | cons n needle =>
      rw [List.cons_append, istartsWith, istartsWith, ih fun m hm => h m (List.mem_cons_of_mem n hm)]

end Lepton.Http

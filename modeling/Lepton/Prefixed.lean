import Mathlib.Data.List.Basic

/-! Strings behind a length byte. A sequence of byte strings, none longer than 255 bytes, is written as the concatenation of
the strings, each behind one byte that holds its length. Reading takes one string after another off the front; it undoes
the writing, and what is read determines the bytes. -/

namespace Lepton.Prefixed

/-- One string behind its length. -/
def frame (name : List UInt8) : List UInt8 := UInt8.ofNat name.length :: name

def encode (names : List (List UInt8)) : List UInt8 := names.flatMap frame

/-- The strings, if the bytes end behind one of them. -/
def decode : List UInt8 → Option (List (List UInt8))
  | [] => some []
  | n :: rest =>
    if n.toNat ≤ rest.length then (decode (rest.drop n.toNat)).map (rest.take n.toNat :: ·) else none
termination_by bytes => bytes.length
decreasing_by
  rw [List.length_drop, List.length_cons]
  omega

theorem encode_cons (name : List UInt8) (names : List (List UInt8)) :
    encode (name :: names) = UInt8.ofNat name.length :: (name ++ encode names) := rfl

theorem toNat_length {name : List UInt8} (h : name.length ≤ 255) : (UInt8.ofNat name.length).toNat = name.length :=
  UInt8.toNat_ofNat_of_lt (Nat.lt_succ_of_le h)

theorem decode_frame {name : List UInt8} (h : name.length ≤ 255) (rest : List UInt8) :
    decode (UInt8.ofNat name.length :: (name ++ rest)) = (decode rest).map (name :: ·) := by
  rw [decode, toNat_length h, List.length_append, if_pos (Nat.le_add_right _ _), List.drop_left, List.take_left]

theorem decode_encode {names : List (List UInt8)} (h : ∀ name ∈ names, name.length ≤ 255) :
    decode (encode names) = some names := by
  induction names with
  | nil => rw [encode, List.flatMap_nil, decode]
  | cons name names ih =>
    obtain ⟨hname, hnames⟩ := List.forall_mem_cons.mp h
    rw [encode_cons, decode_frame hname, ih hnames]
    rfl

/-- Only the encoding of the strings reads as them. -/
theorem eq_encode_of_decode {bytes : List UInt8} {names : List (List UInt8)} (h : decode bytes = some names) :
    bytes = encode names := by
  induction bytes using decode.induct generalizing names with
  | case1 =>
    rw [decode] at h
    cases h
    rfl
  | case2 n rest hle ih =>
    rw [decode, if_pos hle] at h
    obtain ⟨tail, htail, rfl⟩ := Option.map_eq_some_iff.mp h
    have hlength : UInt8.ofNat (rest.take n.toNat).length = n := by
      rw [List.length_take_of_le hle, UInt8.ofNat_toNat]
    rw [encode_cons, ← ih htail, hlength, List.take_append_drop]
  | case3 n rest hgt =>
    rw [decode, if_neg hgt] at h
    cases h

end Lepton.Prefixed

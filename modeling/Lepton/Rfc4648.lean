import Mathlib.Data.List.Basic

/-! Base 64 as RFC 4648 has it. Three bytes are four digits of six bits; a last group of one or two bytes is filled up with
zero bits and padded to four characters. The decoder knows nothing of the encoder: it reads characters of the alphabet,
takes padding at the end only, and rejects anything else. -/

namespace Lepton.Rfc4648

/-- The character of a digit, from Table 1. -/
def digit (n : Nat) : UInt8 :=
  if n < 26 then UInt8.ofNat (65 + n)
  else if n < 52 then UInt8.ofNat (97 + (n - 26))
  else if n < 62 then UInt8.ofNat (48 + (n - 52))
  else if n = 62 then 43
  else 47

/-- The digit of a character, if it is one of the alphabet. -/
def value (c : UInt8) : Option Nat :=
  if 65 ≤ c ∧ c ≤ 90 then some (c.toNat - 65)
  else if 97 ≤ c ∧ c ≤ 122 then some (c.toNat - 97 + 26)
  else if 48 ≤ c ∧ c ≤ 57 then some (c.toNat - 48 + 52)
  else if c = 43 then some 62
  else if c = 47 then some 63
  else none

def pad : UInt8 := 61

def encode : List UInt8 → List UInt8
  | [] => []
  | [a] => [digit (a.toNat / 4), digit (a.toNat % 4 * 16), pad, pad]
  | [a, b] => [digit (a.toNat / 4), digit (a.toNat % 4 * 16 + b.toNat / 16), digit (b.toNat % 16 * 4), pad]
  | a :: b :: c :: rest =>
    digit (a.toNat / 4) :: digit (a.toNat % 4 * 16 + b.toNat / 16) :: digit (b.toNat % 16 * 4 + c.toNat / 64) ::
      digit (c.toNat % 64) :: encode rest

/-- The decoder. The bits that fill up the last digit must be zero. -/
def decode : List UInt8 → Option (List UInt8)
  | [] => some []
  | c₁ :: c₂ :: c₃ :: c₄ :: rest =>
    match value c₁, value c₂ with
    | some x, some y =>
      let first := UInt8.ofNat (x * 4 + y / 16)
      if rest = [] ∧ c₃ = pad ∧ c₄ = pad then if y % 16 = 0 then some [first] else none
      else
        match value c₃ with
        | none => none
        | some z =>
          let second := UInt8.ofNat (y % 16 * 16 + z / 4)
          if rest = [] ∧ c₄ = pad then if z % 4 = 0 then some [first, second] else none
          else
            match value c₄ with
            | none => none
            | some w => (decode rest).map fun more => first :: second :: UInt8.ofNat (z % 4 * 64 + w) :: more
    | _, _ => none
  | _ => none

theorem value_digit {n : Nat} (h : n < 64) : value (digit n) = some n := by
  have hall : ∀ n < 64, value (digit n) = some n := by decide
  exact hall n h

theorem digit_ne_pad {n : Nat} (h : n < 64) : digit n ≠ pad := by
  intro heq
  have hvalue := value_digit h
  rw [heq] at hvalue
  cases hvalue

/-- **What is encoded is decoded again.** -/
theorem decode_encode (input : List UInt8) : decode (encode input) = some input := by
  have hbyte (a : UInt8) {n : Nat} (h : n = a.toNat) : UInt8.ofNat n = a := by rw [h, UInt8.ofNat_toNat]
  induction input using encode.induct with
  | case1 => rfl
  | case2 a =>
    have ha := a.toNat_lt
    rw [encode, decode, value_digit (by omega), value_digit (by omega)]
    dsimp only
    rw [if_pos ⟨rfl, rfl, rfl⟩, if_pos (by omega), hbyte a (by omega)]
  | case3 a b =>
    have ha := a.toNat_lt
    have hb := b.toNat_lt
    have hfull := digit_ne_pad (n := b.toNat % 16 * 4) (by omega)
    rw [encode, decode, value_digit (by omega), value_digit (by omega), value_digit (by omega)]
    dsimp only
    rw [if_neg fun h => hfull h.2.1, if_pos ⟨rfl, rfl⟩, if_pos (by omega), hbyte a (by omega), hbyte b (by omega)]
  | case4 a b c rest ih =>
    have ha := a.toNat_lt
    have hb := b.toNat_lt
    have hc := c.toNat_lt
    have hfull := digit_ne_pad (n := b.toNat % 16 * 4 + c.toNat / 64) (by omega)
    have hfull' := digit_ne_pad (n := c.toNat % 64) (by omega)
    rw [encode, decode, value_digit (by omega), value_digit (by omega), value_digit (by omega), value_digit (by omega), ih]
    dsimp only
    rw [if_neg fun h => hfull h.2.1, if_neg fun h => hfull' h.2, hbyte a (by omega), hbyte b (by omega),
      hbyte c (by omega)]
    rfl

theorem encode_injective : Function.Injective encode := by
  intro a b h
  have hdecode := decode_encode a
  rw [h, decode_encode b] at hdecode
  exact (Option.some.inj hdecode).symm

theorem length_encode (input : List UInt8) : (encode input).length = 4 * ((input.length + 2) / 3) := by
  induction input using encode.induct with
  | case1 => rfl
  | case2 a => simp [encode]
  | case3 a b => simp [encode]
  | case4 a b c rest ih =>
    simp only [encode, List.length_cons, ih]
    omega

/-- Characters of the alphabet, and as much padding as the last group needs. -/
theorem encode_form (input : List UInt8) :
    ∃ body, encode input = body ++ List.replicate ((3 - input.length % 3) % 3) pad ∧ ∀ c ∈ body, (value c).isSome := by
  have hdigit {n : Nat} (h : n < 64) : (value (digit n)).isSome := by
    rw [value_digit h]
    rfl
  induction input using encode.induct with
  | case1 => exact ⟨[], rfl, nofun⟩
  | case2 a =>
    have ha := a.toNat_lt
    refine ⟨[digit (a.toNat / 4), digit (a.toNat % 4 * 16)], rfl, ?_⟩
    simp only [List.forall_mem_cons]
    exact ⟨hdigit (by omega), hdigit (by omega), nofun⟩
  | case3 a b =>
    have ha := a.toNat_lt
    have hb := b.toNat_lt
    refine ⟨[digit (a.toNat / 4), digit (a.toNat % 4 * 16 + b.toNat / 16), digit (b.toNat % 16 * 4)], rfl, ?_⟩
    simp only [List.forall_mem_cons]
    exact ⟨hdigit (by omega), hdigit (by omega), hdigit (by omega), nofun⟩
  | case4 a b c rest ih =>
    have ha := a.toNat_lt
    have hb := b.toNat_lt
    have hc := c.toNat_lt
    obtain ⟨body, hencode, hbody⟩ := ih
    have hmod : (rest.length + 1 + 1 + 1) % 3 = rest.length % 3 := by omega
    refine ⟨digit (a.toNat / 4) :: digit (a.toNat % 4 * 16 + b.toNat / 16) :: digit (b.toNat % 16 * 4 + c.toNat / 64) ::
      digit (c.toNat % 64) :: body, ?_, ?_⟩
    · simp only [encode, hencode, List.length_cons, hmod, List.cons_append]
    · simp only [List.forall_mem_cons]
      exact ⟨hdigit (by omega), hdigit (by omega), hdigit (by omega), hdigit (by omega), hbody⟩

/-- Whole groups are encoded by themselves. -/
theorem encode_append {whole : List UInt8} (h : whole.length % 3 = 0) (rest : List UInt8) :
    encode (whole ++ rest) = encode whole ++ encode rest := by
  induction whole using encode.induct with
  | case1 => rfl
  | case2 a => exact absurd h (by simp)
  | case3 a b => exact absurd h (by simp)
  | case4 a b c more ih =>
    simp only [List.length_cons] at h
    simp only [List.cons_append, encode, ih (by omega)]

end Lepton.Rfc4648

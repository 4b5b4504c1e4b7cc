import Lepton.HttpResponse
import Lepton.IoBuffer
import Lepton.Rfc4648

/-! `base64_encode`, and the Sec-WebSocket-Key made with it. The loop writes the encoding of the whole groups character by
character, the tail that of the last group, and nothing is written behind the terminating NUL. -/

namespace Lepton.Security

open Words Http

def kTable : List UInt8 := ascii "ABCDEFGHIJKLMNOPQRSTUVWXYZabcdefghijklmnopqrstuvwxyz0123456789+/"

/-- `out[o++] = c`. -/
def emit (st : List UInt8 × Nat) (c : UInt8) : List UInt8 × Nat := (put st.1 st.2 [c], add st.2 1)

/-- `kTable[(v >> shift) & 0x3F]`. -/
def entry (v shift : UInt32) : UInt8 := kTable.getD ((v >>> shift) &&& 0x3F).toNat 0

/-- `(uint32_t(a) << 16) | (uint32_t(b) << 8) | c`. -/
def groupOf (a b c : UInt8) : UInt32 := (a.toUInt32 <<< 16) ||| (b.toUInt32 <<< 8) ||| c.toUInt32

/-- The loop over whole groups: what is written, the output index, and the input index. -/
def encodeLoop (input : List UInt8) : Nat → List UInt8 × Nat → Nat → (List UInt8 × Nat) × Nat
  | 0, st, i => (st, i)
  | fuel + 1, st, i =>
    if add i 3 ≤ input.length then
      let v := groupOf (input.getD i 0) (input.getD (i + 1) 0) (input.getD (i + 2) 0)
      encodeLoop input fuel ([entry v 18, entry v 12, entry v 6, entry v 0].foldl emit st) (add i 3)
    else (st, i)

/-- `base64_encode`: the value returned, and the memory at `out` afterwards. The loop has no more turns than there are
bytes. -/
def base64Encode (input out : List UInt8) (outCap : Nat) : Nat × List UInt8 :=
  let need := 4 * (add input.length 2 / 3) % wordSize
  if outCap < add need 1 then (0, out)
  else
    let (st, i) := encodeLoop input input.length (out, 0) 0
    let rem := sub input.length i
    let st :=
      if rem = 1 then
        let v := (input.getD i 0).toUInt32 <<< 16
        [entry v 18, entry v 12, 61, 61].foldl emit st
      else if rem = 2 then
        let v := ((input.getD i 0).toUInt32 <<< 16) ||| ((input.getD (i + 1) 0).toUInt32 <<< 8)
        [entry v 18, entry v 12, entry v 6, 61].foldl emit st
      else st
    (st.2, put st.1 st.2 [0])

def makeSecWebsocketKey (bytes : Vector UInt8 16) (out : List UInt8) (outCap : Nat) : Nat × List UInt8 :=
  base64Encode bytes.toList out outCap

/-! The digits of a group. -/

theorem kTable_eq_digit {n : Nat} (h : n < 64) : kTable.getD n 0 = Rfc4648.digit n := by
  have hall : ∀ n < 64, kTable.getD n 0 = Rfc4648.digit n := by decide +kernel
  exact hall n h

theorem toNat_groupOf (a b c : UInt8) : (groupOf a b c).toNat = a.toNat * 65536 + b.toNat * 256 + c.toNat := by
  have ha := a.toNat_lt
  have hb := b.toNat_lt
  have hc := c.toNat_lt
  have hhigh : (a.toUInt32 <<< 16).toNat = a.toNat <<< 16 := by
    rw [UInt32.toNat_shiftLeft, UInt8.toNat_toUInt32]
    change a.toNat <<< 16 % 2 ^ 32 = _
    exact Nat.mod_eq_of_lt (by rw [Nat.shiftLeft_eq]; omega)
  have hmid : (b.toUInt32 <<< 8).toNat = b.toNat <<< 8 := by
    rw [UInt32.toNat_shiftLeft, UInt8.toNat_toUInt32]
    change b.toNat <<< 8 % 2 ^ 32 = _
    exact Nat.mod_eq_of_lt (by rw [Nat.shiftLeft_eq]; omega)
  rw [groupOf, UInt32.toNat_or, UInt32.toNat_or, hhigh, hmid, UInt8.toNat_toUInt32, Nat.or_assoc,
    ← Nat.shiftLeft_add_eq_or_of_lt hc, ← Nat.shiftLeft_add_eq_or_of_lt (by rw [Nat.shiftLeft_eq]; omega),
    Nat.shiftLeft_eq, Nat.shiftLeft_eq]
  omega

theorem entry_eq_digit (v : UInt32) {shift : UInt32} {k : Nat} (hshift : shift.toNat % 32 = k) :
    entry v shift = Rfc4648.digit (v.toNat / 2 ^ k % 64) := by
  have hmask (n : Nat) : n &&& 63 = n % 64 := Nat.and_two_pow_sub_one_eq_mod n 6
  have hindex : ((v >>> shift) &&& 0x3F).toNat = v.toNat / 2 ^ k % 64 := by
    rw [UInt32.toNat_and, UInt32.toNat_shiftRight, hshift, Nat.shiftRight_eq_div_pow]
    exact hmask _
  rw [entry, hindex, kTable_eq_digit (Nat.mod_lt _ (by decide))]

/-- The four characters of a group. -/
theorem entries_groupOf (a b c : UInt8) :
    entry (groupOf a b c) 18 = Rfc4648.digit (a.toNat / 4) ∧
      entry (groupOf a b c) 12 = Rfc4648.digit (a.toNat % 4 * 16 + b.toNat / 16) ∧
      entry (groupOf a b c) 6 = Rfc4648.digit (b.toNat % 16 * 4 + c.toNat / 64) ∧
      entry (groupOf a b c) 0 = Rfc4648.digit (c.toNat % 64) := by
  have ha := a.toNat_lt
  have hb := b.toNat_lt
  have hc := c.toNat_lt
  refine ⟨?_, ?_, ?_, ?_⟩
  · rw [entry_eq_digit (k := 18) _ rfl, toNat_groupOf]
    congr 1
    omega
  · rw [entry_eq_digit (k := 12) _ rfl, toNat_groupOf]
    congr 1
    omega
  · rw [entry_eq_digit (k := 6) _ rfl, toNat_groupOf]
    congr 1
    omega
  · rw [entry_eq_digit (k := 0) _ rfl, toNat_groupOf]
    congr 1
    omega

/-! Writing. -/

section Writing

variable {out : List UInt8}

/-- Characters are written one behind the other. -/
theorem foldl_emit {done : List UInt8} {more : List UInt8} (h : (done ++ more).length ≤ out.length)
    (hsmall : (done ++ more).length < wordSize) :
    more.foldl emit (put out 0 done, done.length) = (put out 0 (done ++ more), (done ++ more).length) := by
  induction more generalizing done with
  | nil => rw [List.append_nil, List.foldl_nil]
  | cons c more ih =>
    have hdone : done.length + 1 ≤ (done ++ c :: more).length := by
      rw [List.length_append, List.length_cons]
      omega
    have hput : put (put out 0 done) (0 + done.length) [c] = put out 0 (done ++ [c]) := put_put (by omega)
    rw [Nat.zero_add] at hput
    have hadd : add done.length 1 = (done ++ [c]).length := by
      rw [add_of_lt (by omega), List.length_append, List.length_singleton]
    rw [List.foldl_cons, emit, hput, hadd, ih (by simpa using h) (by simpa using hsmall), List.append_assoc,
      List.singleton_append]

theorem drop_getD {input : List UInt8} {i : Nat} (h : i < input.length) :
    input.drop i = input.getD i 0 :: input.drop (i + 1) := by
  rw [List.drop_eq_getElem_cons h, List.getD_eq_getElem?_getD, List.getElem?_eq_getElem h, Option.getD_some]

theorem take_group {input : List UInt8} {i : Nat} (h : i + 3 ≤ input.length) :
    input.take (i + 3) = input.take i ++ [input.getD i 0, input.getD (i + 1) 0, input.getD (i + 2) 0] := by
  rw [List.take_add, drop_getD (by omega), drop_getD (by omega), drop_getD (by omega)]
  rfl

variable {input : List UInt8}

/-- The loop writes the encoding of the whole groups and leaves a tail of less than three bytes. -/
theorem encodeLoop_whole (hsmall : input.length < 2 ^ 63) (hroom : 4 * ((input.length + 2) / 3) ≤ out.length)
    {fuel i : Nat} (hi : i ≤ input.length) (hgroup : i % 3 = 0) (hfuel : input.length - i ≤ fuel) :
    ∃ i' ≤ input.length, i' % 3 = 0 ∧ input.length < i' + 3 ∧
      encodeLoop input fuel
          (put out 0 (Rfc4648.encode (input.take i)), (Rfc4648.encode (input.take i)).length) i =
        ((put out 0 (Rfc4648.encode (input.take i')), (Rfc4648.encode (input.take i')).length), i') := by
  induction fuel generalizing i with
  | zero => exact ⟨i, hi, hgroup, by omega, rfl⟩
  | succ fuel ih =>
    have hadd : add i 3 = i + 3 := add_of_lt (by rw [wordSize]; omega)
    rw [encodeLoop, hadd]
    split
    · next hmore =>
      have htake : (input.take i).length = i := List.length_take_of_le hi
      obtain ⟨h18, h12, h6, h0⟩ := entries_groupOf (input.getD i 0) (input.getD (i + 1) 0) (input.getD (i + 2) 0)
      have hencode : Rfc4648.encode (input.take (i + 3)) = Rfc4648.encode (input.take i) ++
          [entry (groupOf (input.getD i 0) (input.getD (i + 1) 0) (input.getD (i + 2) 0)) 18,
            entry (groupOf (input.getD i 0) (input.getD (i + 1) 0) (input.getD (i + 2) 0)) 12,
            entry (groupOf (input.getD i 0) (input.getD (i + 1) 0) (input.getD (i + 2) 0)) 6,
            entry (groupOf (input.getD i 0) (input.getD (i + 1) 0) (input.getD (i + 2) 0)) 0] := by
        rw [take_group hmore, Rfc4648.encode_append (htake.symm ▸ hgroup), h18, h12, h6, h0]
        rfl
      have hlen := Rfc4648.length_encode (input.take (i + 3))
      rw [List.length_take_of_le hmore, hencode] at hlen
      dsimp only
      rw [foldl_emit (by omega) (by rw [wordSize]; omega), ← hencode]
      exact ih hmore (by omega) (by omega)
    · next hless => exact ⟨i, hi, hgroup, by omega, rfl⟩

/-- The last group is written behind the whole ones. -/
theorem encode_tail (hsmall : input.length < 2 ^ 63) (hroom : 4 * ((input.length + 2) / 3) ≤ out.length) {i : Nat}
    (hi : i ≤ input.length) (hgroup : i % 3 = 0) (htail : input.length < i + 3) :
    (if sub input.length i = 1 then
        [entry ((input.getD i 0).toUInt32 <<< 16) 18, entry ((input.getD i 0).toUInt32 <<< 16) 12, 61, 61].foldl emit
          (put out 0 (Rfc4648.encode (input.take i)), (Rfc4648.encode (input.take i)).length)
      else if sub input.length i = 2 then
        [entry (((input.getD i 0).toUInt32 <<< 16) ||| ((input.getD (i + 1) 0).toUInt32 <<< 8)) 18,
          entry (((input.getD i 0).toUInt32 <<< 16) ||| ((input.getD (i + 1) 0).toUInt32 <<< 8)) 12,
          entry (((input.getD i 0).toUInt32 <<< 16) ||| ((input.getD (i + 1) 0).toUInt32 <<< 8)) 6, 61].foldl emit
          (put out 0 (Rfc4648.encode (input.take i)), (Rfc4648.encode (input.take i)).length)
      else (put out 0 (Rfc4648.encode (input.take i)), (Rfc4648.encode (input.take i)).length)) =
      (put out 0 (Rfc4648.encode input), 4 * ((input.length + 2) / 3)) := by
  have hsub : sub input.length i = input.length - i := sub_of_le (by rw [wordSize]; omega) hi
  have htake : (input.take i).length = i := List.length_take_of_le hi
  have hencode : Rfc4648.encode (input.take i ++ input.drop i) = _ :=
    Rfc4648.encode_append (htake.symm ▸ hgroup) (input.drop i)
  have hlen := Rfc4648.length_encode input
  rw [List.take_append_drop] at hencode
  have hwritten {more : List UInt8} (hmore : Rfc4648.encode (input.drop i) = more) :
      more.foldl emit (put out 0 (Rfc4648.encode (input.take i)), (Rfc4648.encode (input.take i)).length) =
        (put out 0 (Rfc4648.encode input), 4 * ((input.length + 2) / 3)) := by
    rw [hmore] at hencode
    rw [hencode] at hlen
    rw [foldl_emit (by omega) (by rw [wordSize]; omega), ← hencode, hencode, hlen]
  rw [hsub]
  split
  · next hone =>
    have hgroupOf : (input.getD i 0).toUInt32 <<< 16 = groupOf (input.getD i 0) 0 0 := by simp [groupOf]
    obtain ⟨h18, h12, -, -⟩ := entries_groupOf (input.getD i 0) 0 0
    apply hwritten
    rw [hgroupOf, h18, h12, drop_getD (by omega), List.drop_eq_nil_of_le (by omega)]
    rfl
  · split
    · next htwo =>
      have hgroupOf : ((input.getD i 0).toUInt32 <<< 16) ||| ((input.getD (i + 1) 0).toUInt32 <<< 8) =
          groupOf (input.getD i 0) (input.getD (i + 1) 0) 0 := by simp [groupOf]
      obtain ⟨h18, h12, h6, -⟩ := entries_groupOf (input.getD i 0) (input.getD (i + 1) 0) 0
      apply hwritten
      rw [hgroupOf, h18, h12, h6, drop_getD (by omega), drop_getD (by omega), List.drop_eq_nil_of_le (by omega)]
      rfl
    · have hnil : Rfc4648.encode (input.drop i) = [] := by
        rw [List.drop_eq_nil_of_le (by omega)]
        rfl
      exact hwritten hnil

end Writing

/-- **`base64_encode` writes the encoding and a NUL**, or nothing. -/
theorem base64Encode_eq {input out : List UInt8} {outCap : Nat} (hsmall : input.length < 2 ^ 63)
    (hcap : outCap ≤ out.length) :
    base64Encode input out outCap =
      if outCap < 4 * ((input.length + 2) / 3) + 1 then (0, out)
      else (4 * ((input.length + 2) / 3), put out 0 (Rfc4648.encode input ++ [0])) := by
  have hneed : 4 * (add input.length 2 / 3) % wordSize = 4 * ((input.length + 2) / 3) := by
    rw [add_of_lt (by rw [wordSize]; omega)]
    exact Nat.mod_eq_of_lt (by rw [wordSize]; omega)
  have hnul : add (4 * ((input.length + 2) / 3)) 1 = 4 * ((input.length + 2) / 3) + 1 :=
    add_of_lt (by rw [wordSize]; omega)
  unfold base64Encode
  dsimp only
  rw [hneed, hnul]
  split
  · rfl
  · next hroom =>
    have hneeded : 4 * ((input.length + 2) / 3) ≤ out.length := by omega
    obtain ⟨i, hi, hgroup, htail, hloop⟩ :=
      encodeLoop_whole hsmall hneeded (Nat.zero_le input.length) (Nat.zero_mod 3) (Nat.sub_le _ 0)
    have hstart : put out 0 (Rfc4648.encode (input.take 0)) = out := rfl
    have hlen := Rfc4648.length_encode input
    have hend : put (put out 0 (Rfc4648.encode input)) (0 + (Rfc4648.encode input).length) [0] =
        put out 0 (Rfc4648.encode input ++ [0]) := put_put (by omega)
    rw [Nat.zero_add, hlen] at hend
    rw [hstart] at hloop
    change encodeLoop input input.length (out, 0) 0 = _ at hloop
    rw [hloop]
    dsimp only
    rw [encode_tail hsmall hneeded hi hgroup htail, hend]

/-- **The encoding is right and can be undone.** -/
theorem base64Encode_correct :
    (∀ (input : Buffer) (out : List UInt8) (outCap : Nat), outCap ≤ out.length →
      let n := input.bytes.length
      let need := 4 * ((n + 2) / 3)
      (outCap < need + 1 → base64Encode input.bytes out outCap = (0, out)) ∧
        (need + 1 ≤ outCap → ∃ text, base64Encode input.bytes out outCap = (need, text ++ [0] ++ out.drop (need + 1)) ∧
          text.length = need ∧
          (∃ body, text = body ++ List.replicate ((3 - n % 3) % 3) 61 ∧ ∀ c ∈ body, (Rfc4648.value c).isSome) ∧
          Rfc4648.decode text = some input.bytes)) ∧
      ∀ (a b : Vector UInt8 16) (out : List UInt8) (outCap : Nat), 25 ≤ outCap → outCap ≤ out.length → a ≠ b →
        (makeSecWebsocketKey a out outCap).2.take 24 ≠ (makeSecWebsocketKey b out outCap).2.take 24 := by
  constructor
  · intro input out outCap hcap n need
    have hencode := base64Encode_eq input.small hcap
    constructor
    · intro hshort
      rw [hencode, if_pos hshort]
    · intro hroom
      have hlen := Rfc4648.length_encode input.bytes
      refine ⟨Rfc4648.encode input.bytes, ?_, hlen, Rfc4648.encode_form input.bytes, Rfc4648.decode_encode input.bytes⟩
      rw [hencode, if_neg (Nat.not_lt.mpr hroom), put, List.take_zero, List.nil_append, Nat.zero_add, List.length_append,
        hlen, List.length_singleton]
  · intro a b out outCap hroom hcap hne heq
    have hkey (bytes : Vector UInt8 16) :
        (makeSecWebsocketKey bytes out outCap).2.take 24 = Rfc4648.encode bytes.toList := by
      have hsize : bytes.toList.length = 16 := Vector.length_toList
      have hlen := Rfc4648.length_encode bytes.toList
      rw [hsize] at hlen
      rw [makeSecWebsocketKey, base64Encode_eq (by omega) hcap, hsize, if_neg (by omega), put, List.take_zero,
        List.nil_append, List.append_assoc, List.take_left' hlen]
    rw [hkey, hkey] at heq
    exact hne (Vector.toList_inj.mp (Rfc4648.encode_injective heq))

/-- Two bytes with five bytes of room, and two keys. -/
theorem fo_base64Encode_correct :
    (∃ text, base64Encode [102, 111] (List.replicate 11 7) 5 = (4, text ++ [0] ++ List.replicate 6 7) ∧
      Rfc4648.decode text = some [102, 111]) ∧
      (makeSecWebsocketKey (.replicate 16 1) (List.replicate 25 0) 25).2.take 24 ≠
        (makeSecWebsocketKey (.replicate 16 2) (List.replicate 25 0) 25).2.take 24 := by
  obtain ⟨hencode, hkeys⟩ := base64Encode_correct
  obtain ⟨text, htext, -, -, hdecode⟩ :=
    (hencode ⟨[102, 111], by decide⟩ (List.replicate 11 7) 5 (by decide)).2 (by decide)
  exact ⟨⟨text, htext, hdecode⟩, hkeys _ _ (List.replicate 25 0) 25 (by decide) (by decide) (by decide)⟩

end Lepton.Security

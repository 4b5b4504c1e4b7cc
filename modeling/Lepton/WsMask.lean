import Lepton.IoBuffer
import Lepton.Lanes
import Lepton.WsFrame

/-! `ws_mask`. A payload is masked in place, thirty-two bytes at a time where the vector path is compiled in, then eight
at a time, then byte by byte. Each loop takes over the index of the one before and keeps the same fact: the payload is
masked up to the index as it is byte by byte, and the rest of the memory is as it was. -/

namespace Lepton.Ws

open Words Search Lanes

/-- The four bytes of the key from key index `offset` on. -/
def rotated (key : List UInt8) (offset : Nat) : List UInt8 :=
  (List.range 4).map fun k => key.getD (add offset k &&& 3) 0

/-- A word is loaded, xored and stored again. -/
def maskWord {w : Nat} (pattern : BitVec (8 * w)) (mem : List UInt8) (pos : Nat) : List UInt8 :=
  put mem pos (store w (load w (slice mem pos w) ^^^ pattern))

/-- The loop over whole words: the memory, and the index it ends at. -/
def maskWords {w : Nat} (pattern : BitVec (8 * w)) (data len : Nat) : Nat → List UInt8 → Nat → List UInt8 × Nat
  | 0, mem, i => (mem, i)
  | fuel + 1, mem, i =>
    if add i w ≤ len then maskWords pattern data len fuel (maskWord pattern mem (data + i)) (add i w) else (mem, i)

/-- The loop over what is left. -/
def maskTail (key : List UInt8) (keyOffset data len : Nat) : Nat → List UInt8 → Nat → List UInt8
  | 0, mem, _ => mem
  | fuel + 1, mem, i =>
    if i < len then
      maskTail key keyOffset data len fuel
        (put mem (data + i) [mem.getD (data + i) 0 ^^^ key.getD (add keyOffset i &&& 3) 0]) (add i 1)
    else mem

/-- `_mm256_set1_epi32(pat)`. -/
def vectorKey (key : List UInt8) (offset : Nat) : BitVec (8 * 32) := (load 4 (rotated key offset)).replicate 8

/-- `mask64`. -/
def wordKey (key : List UInt8) (offset : Nat) : BitVec (8 * 8) :=
  let pat : BitVec 32 := load 4 (rotated key offset)
  (pat.setWidth 64 <<< 32) ||| pat.setWidth 64

/-- `ws_mask` on the `len` bytes at `data`, with the vector path compiled in or not. No loop has more turns than there
are bytes. -/
def wsMask (avx2 : Bool) (mem : List UInt8) (data len : Nat) (key : List UInt8) (keyOffset : Nat) : List UInt8 :=
  if len = 0 then mem
  else
    let (mem, i) :=
      if avx2 = true ∧ 32 ≤ len then maskWords (vectorKey key keyOffset) data len len mem 0 else (mem, 0)
    let (mem, i) :=
      if add i 8 ≤ len then maskWords (wordKey key (add keyOffset i)) data len len mem i else (mem, i)
    maskTail key keyOffset data len len mem i

/-! Masking byte by byte. -/

theorem maskBytes_append (key : List UInt8) (offset : Nat) (xs ys : List UInt8) :
    maskBytes key offset (xs ++ ys) = maskBytes key offset xs ++ maskBytes key (offset + xs.length) ys := by
  have hindex (i : Nat) : offset + (i + xs.length) = offset + xs.length + i := by omega
  rw [maskBytes, List.mapIdx_append]
  simp only [hindex]
  rfl

theorem getElem_maskBytes {key : List UInt8} {offset : Nat} {data : List UInt8} {i : Nat} (h : i < data.length)
    (h' : i < (maskBytes key offset data).length) :
    (maskBytes key offset data)[i] = data[i] ^^^ key.getD ((offset + i) % 4) 0 := List.getElem_mapIdx

theorem maskBytes_maskBytes (key : List UInt8) (offset : Nat) (data : List UInt8) :
    maskBytes key offset (maskBytes key offset data) = data := by
  apply List.ext_getElem
  · rw [length_maskBytes, length_maskBytes]
  · intro i h h'
    rw [length_maskBytes] at h
    rw [getElem_maskBytes h, getElem_maskBytes h', UInt8.xor_assoc, UInt8.xor_self, UInt8.xor_zero]

/-! Keys in words. -/

theorem and_three (offset k : Nat) : add offset k &&& 3 = (offset + k) % 4 := by
  have hmod : add offset k &&& 3 = add offset k % 4 := Nat.and_two_pow_sub_one_eq_mod _ 2
  rw [hmod, add, wordSize]
  omega

/-- The word holds the key from key index `offset` on. -/
def Carries {w : Nat} (pattern : BitVec (8 * w)) (key : List UInt8) (offset : Nat) : Prop :=
  ∀ j < w, byteAt pattern j = key.getD ((offset + j) % 4) 0

theorem carries_rotated (key : List UInt8) (offset : Nat) : Carries (load 4 (rotated key offset)) key offset := by
  intro j hj
  have hlen : (rotated key offset).length = 4 := by rw [rotated, List.length_map, List.length_range]
  rw [byteAt_load hlen (hlen.symm ▸ hj)]
  simp only [rotated, List.getElem_map, List.getElem_range, and_three]

theorem carries_vectorKey (key : List UInt8) (offset : Nat) : Carries (vectorKey key offset) key offset := by
  intro j hj
  have hindex : (offset + j % 4) % 4 = (offset + j) % 4 := by omega
  rw [vectorKey, byteAt_replicate _ hj, carries_rotated key offset (j % 4) (Nat.mod_lt j (by decide)), hindex]

theorem carries_wordKey (key : List UInt8) (offset : Nat) : Carries (wordKey key offset) key offset := by
  intro j hj
  have hindex : (offset + j % 4) % 4 = (offset + j) % 4 := by omega
  have hbyte := carries_rotated key offset (j % 4) (Nat.mod_lt j (by decide))
  rw [hindex] at hbyte
  exact (byteAt_double (load 4 (rotated key offset)) hj).trans hbyte

/-- The key repeats every four bytes. -/
theorem Carries.shift {w : Nat} {pattern : BitVec (8 * w)} {key : List UInt8} {offset offset' : Nat}
    (h : Carries pattern key offset) (hoffset : offset' % 4 = offset % 4) : Carries pattern key offset' := by
  intro j hj
  have hindex : (offset' + j) % 4 = (offset + j) % 4 := by omega
  rw [hindex]
  exact h j hj

theorem Carries.store {w : Nat} {pattern : BitVec (8 * w)} {key : List UInt8} {offset : Nat} (h : Carries pattern key offset)
    {bytes : List UInt8} (hlen : bytes.length = w) : store w (load w bytes ^^^ pattern) = maskBytes key offset bytes := by
  rw [store_load_xor hlen]
  apply List.ext_getElem
  · rw [List.length_mapIdx, length_maskBytes]
  · intro i hi hi'
    rw [List.length_mapIdx] at hi
    rw [List.getElem_mapIdx, getElem_maskBytes hi, h i (hlen ▸ hi)]

/-! The loops. -/

section Loops

variable (mem : List UInt8) (data : Nat) (key : List UInt8) (keyOffset : Nat)

/-- The memory with the first `i` bytes at `data` masked. -/
def maskedTo (i : Nat) : List UInt8 := put mem data (maskBytes key keyOffset (slice mem data i))

theorem maskedTo_zero : maskedTo mem data key keyOffset 0 = mem := by
  rw [maskedTo, slice, List.take_zero, maskBytes, List.mapIdx_nil, put, List.append_nil, List.length_nil, Nat.add_zero,
    List.take_append_drop]

variable {mem data key keyOffset}

theorem length_maskedTo {i : Nat} (h : data + i ≤ mem.length) :
    (maskedTo mem data key keyOffset i).length = mem.length :=
  length_put (by rwa [length_maskBytes, slice_length h])

/-- What lies behind the index is as it was. -/
theorem slice_maskedTo {i n : Nat} (h : data + i + n ≤ mem.length) :
    slice (maskedTo mem data key keyOffset i) (data + i) n = slice mem (data + i) n := by
  have hlen : (maskBytes key keyOffset (slice mem data i)).length = i := by
    rw [length_maskBytes, slice_length (by omega)]
  exact slice_put_after (by omega) (by omega)

/-- The next bytes are masked. -/
theorem put_maskedTo {i n : Nat} (h : data + i + n ≤ mem.length) :
    put (maskedTo mem data key keyOffset i) (data + i) (maskBytes key (keyOffset + i) (slice mem (data + i) n)) =
      maskedTo mem data key keyOffset (i + n) := by
  have hslice : (slice mem data i).length = i := slice_length (by omega)
  have hlen : (maskBytes key keyOffset (slice mem data i)).length = i := by rw [length_maskBytes, hslice]
  have hput := @put_put mem data (maskBytes key keyOffset (slice mem data i))
    (maskBytes key (keyOffset + i) (slice mem (data + i) n)) (by omega)
  rw [hlen] at hput
  rw [maskedTo, hput, maskedTo, slice_add, maskBytes_append, hslice]

theorem maskWord_maskedTo {w : Nat} {pattern : BitVec (8 * w)} {i : Nat} (hkey : Carries pattern key (keyOffset + i))
    (h : data + i + w ≤ mem.length) :
    maskWord pattern (maskedTo mem data key keyOffset i) (data + i) = maskedTo mem data key keyOffset (i + w) := by
  rw [maskWord, slice_maskedTo h, hkey.store (slice_length h), put_maskedTo h]

variable {len : Nat}

/-- The loop over words goes on from where the one before it stopped, and stops inside the payload. -/
theorem maskWords_maskedTo {w : Nat} (hw : w % 4 = 0) {pattern : BitVec (8 * w)} (hinside : data + len ≤ mem.length)
    (hsmall : mem.length < 2 ^ 63) (hword : w < 2 ^ 63) {fuel i : Nat} (hkey : Carries pattern key (keyOffset + i))
    (hi : i ≤ len) :
    ∃ i' ≤ len, maskWords pattern data len fuel (maskedTo mem data key keyOffset i) i =
      (maskedTo mem data key keyOffset i', i') := by
  induction fuel generalizing i with
  | zero => exact ⟨i, hi, rfl⟩
  | succ fuel ih =>
    have hadd : add i w = i + w := add_of_lt (by rw [wordSize]; omega)
    rw [maskWords, hadd]
    split
    · next hroom =>
      rw [maskWord_maskedTo hkey (by omega)]
      exact ih (hkey.shift (by omega)) hroom
    · exact ⟨i, hi, rfl⟩

/-- A byte is masked by itself. -/
theorem maskByte_maskedTo {i : Nat} (h : data + i + 1 ≤ mem.length) :
    [(maskedTo mem data key keyOffset i).getD (data + i) 0 ^^^ key.getD (add keyOffset i &&& 3) 0] =
      maskBytes key (keyOffset + i) (slice mem (data + i) 1) := by
  have hbyte (text : List UInt8) (hlen : data + i < text.length) : slice text (data + i) 1 = [text.getD (data + i) 0] := by
    rw [slice, List.drop_eq_getElem_cons hlen, List.take_succ_cons, List.take_zero, List.getD_eq_getElem?_getD,
      List.getElem?_eq_getElem hlen, Option.getD_some]
  have hlen : (maskedTo mem data key keyOffset i).length = mem.length := length_maskedTo (by omega)
  have hold : [(maskedTo mem data key keyOffset i).getD (data + i) 0] = slice mem (data + i) 1 := by
    rw [← hbyte _ (by omega), slice_maskedTo h]
  rw [and_three, ← hold]
  rfl

/-- The last loop masks the rest. -/
theorem maskTail_maskedTo (hinside : data + len ≤ mem.length) (hsmall : mem.length < 2 ^ 63) {fuel i : Nat} (hi : i ≤ len)
    (hfuel : len - i ≤ fuel) :
    maskTail key keyOffset data len fuel (maskedTo mem data key keyOffset i) i = maskedTo mem data key keyOffset len := by
  induction fuel generalizing i with
  | zero =>
    have hend : i = len := by omega
    rw [hend]
    rfl
  | succ fuel ih =>
    rw [maskTail]
    split
    · next hlt =>
      have hadd : add i 1 = i + 1 := add_of_lt (by rw [wordSize]; omega)
      have hroom : data + i + 1 ≤ mem.length := by omega
      rw [maskByte_maskedTo hroom, put_maskedTo hroom, hadd]
      exact ih hlt (by omega)
    · next hge =>
      have hend : i = len := by omega
      rw [hend]

end Loops

/-- **Every path masks byte by byte**, and nothing but the payload. -/
theorem wsMask_eq (avx2 : Bool) {mem : List UInt8} {data len : Nat} (hinside : data + len ≤ mem.length)
    (hsmall : mem.length < 2 ^ 63) (key : List UInt8) (keyOffset : Nat) :
    wsMask avx2 mem data len key keyOffset = put mem data (maskBytes key keyOffset (slice mem data len)) := by
  have hstart := maskedTo_zero mem data key keyOffset
  unfold wsMask
  split
  · next hlen =>
    rw [hlen]
    exact hstart.symm
  · have hvector : ∃ i ≤ len, (if avx2 = true ∧ 32 ≤ len then maskWords (vectorKey key keyOffset) data len len mem 0
        else (mem, 0)) = (maskedTo mem data key keyOffset i, i) := by
      split
      · have hkey : Carries (vectorKey key keyOffset) key (keyOffset + 0) := carries_vectorKey key keyOffset
        obtain ⟨i, hi, hloop⟩ := maskWords_maskedTo (by decide) hinside hsmall (by decide) hkey (Nat.zero_le len)
        rw [hstart] at hloop
        exact ⟨i, hi, hloop⟩
      · exact ⟨0, Nat.zero_le len, by rw [hstart]⟩
    obtain ⟨i, hi, hvector⟩ := hvector
    rw [hvector]
    dsimp only
    have hwords : ∃ i' ≤ len, (if add i 8 ≤ len
        then maskWords (wordKey key (add keyOffset i)) data len len (maskedTo mem data key keyOffset i) i
        else (maskedTo mem data key keyOffset i, i)) = (maskedTo mem data key keyOffset i', i') := by
      split
      · have hkey : Carries (wordKey key (add keyOffset i)) key (keyOffset + i) :=
          (carries_wordKey key (add keyOffset i)).shift (by rw [add, wordSize]; omega)
        exact maskWords_maskedTo (by decide) hinside hsmall (by decide) hkey hi
      · exact ⟨i, hi, rfl⟩
    obtain ⟨i', hi', hwords⟩ := hwords
    rw [hwords]
    exact maskTail_maskedTo hinside hsmall hi' (Nat.sub_le len i')

/-- A payload masked in consecutive chunks: each call starts at the key index where the one before it stopped. -/
def wsMaskChunks (avx2 : Bool) (data : Nat) (key : List UInt8) (keyOffset : Nat) : List UInt8 → Nat → List Nat → List UInt8
  | mem, _, [] => mem
  | mem, done, n :: chunks =>
    wsMaskChunks avx2 data key keyOffset (wsMask avx2 mem (data + done) n key (add keyOffset done)) (done + n) chunks

theorem maskBytes_add (key : List UInt8) (offset done : Nat) (data : List UInt8) :
    maskBytes key (add offset done) data = maskBytes key (offset + done) data := by
  have hindex (i : Nat) : (add offset done + i) % 4 = (offset + done + i) % 4 := by
    rw [add, wordSize]
    omega
  unfold maskBytes
  simp only [hindex]

/-- Each chunk goes on where the ones before it stopped. -/
theorem wsMaskChunks_maskedTo (avx2 : Bool) {mem : List UInt8} {data : Nat} (key : List UInt8) (keyOffset : Nat)
    (hsmall : mem.length < 2 ^ 63) {chunks : List Nat} {done : Nat} (h : data + done + chunks.sum ≤ mem.length) :
    wsMaskChunks avx2 data key keyOffset (maskedTo mem data key keyOffset done) done chunks =
      maskedTo mem data key keyOffset (done + chunks.sum) := by
  induction chunks generalizing done with
  | nil => rfl
  | cons n chunks ih =>
    rw [List.sum_cons] at h ⊢
    have hlen : (maskedTo mem data key keyOffset done).length = mem.length := length_maskedTo (by omega)
    have hchunk : wsMask avx2 (maskedTo mem data key keyOffset done) (data + done) n key (add keyOffset done) =
        maskedTo mem data key keyOffset (done + n) := by
      rw [wsMask_eq avx2 (by omega) (by omega), maskBytes_add, slice_maskedTo (by omega), put_maskedTo (by omega)]
    rw [wsMaskChunks, hchunk, ih (by omega), Nat.add_assoc]

theorem getElem?_wsMask (avx2 : Bool) {mem : List UInt8} {data len : Nat} (hinside : data + len ≤ mem.length)
    (hsmall : mem.length < 2 ^ 63) (key : List UInt8) (keyOffset j : Nat) :
    (wsMask avx2 mem data len key keyOffset)[j]? = mem[j]?.map fun b =>
      if data ≤ j ∧ j < data + len then b ^^^ key.getD ((keyOffset + (j - data)) % 4) 0 else b := by
  have hlen : (maskBytes key keyOffset (slice mem data len)).length = len := by
    rw [length_maskBytes, slice_length hinside]
  rw [wsMask_eq avx2 hinside hsmall, getElem?_put (by omega), hlen]
  split
  · next hj =>
    have hindex : data + (j - data) = j := by omega
    rw [maskBytes, List.getElem?_mapIdx, slice, List.getElem?_take_of_lt (by omega), List.getElem?_drop, hindex]
  · exact (congrFun Option.map_id _).symm

/-- **Masking is right on every path.** Every byte of the payload is xored with its byte of the key and no other byte is
touched. So masking again undoes it, and any division into chunks gives the same bytes. -/
theorem wsMask_correct (avx2 : Bool) {mem : List UInt8} {data len : Nat} (hinside : data + len ≤ mem.length)
    (hsmall : mem.length < 2 ^ 63) (key : List UInt8) (keyOffset : Nat) :
    (∀ j, (wsMask avx2 mem data len key keyOffset)[j]? = mem[j]?.map fun b =>
        if data ≤ j ∧ j < data + len then b ^^^ key.getD ((keyOffset + (j - data)) % 4) 0 else b) ∧
      wsMask avx2 (wsMask avx2 mem data len key keyOffset) data len key keyOffset = mem ∧
      ∀ chunks : List Nat, chunks.sum = len →
        wsMaskChunks avx2 data key keyOffset mem 0 chunks = wsMask avx2 mem data len key keyOffset := by
  refine ⟨getElem?_wsMask avx2 hinside hsmall key keyOffset, ?_, ?_⟩
  · have hlen : (wsMask avx2 mem data len key keyOffset).length = mem.length := by
      rw [wsMask_eq avx2 hinside hsmall]
      exact length_maskedTo hinside
    apply List.ext_getElem?
    intro j
    rw [getElem?_wsMask avx2 (by omega) (by omega), getElem?_wsMask avx2 hinside hsmall, Option.map_map]
    refine Eq.trans (Option.map_congr fun b _ => ?_) (congrFun Option.map_id _)
    by_cases hj : data ≤ j ∧ j < data + len
    · simp only [Function.comp_apply, if_pos hj, UInt8.xor_assoc, UInt8.xor_self, UInt8.xor_zero, id_eq]
    · simp only [Function.comp_apply, if_neg hj, id_eq]
  · rintro chunks rfl
    have hchunks : wsMaskChunks avx2 data key keyOffset (maskedTo mem data key keyOffset 0) 0 chunks = _ :=
      wsMaskChunks_maskedTo avx2 key keyOffset hsmall hinside
    rw [maskedTo_zero, Nat.zero_add] at hchunks
    rw [hchunks, wsMask_eq avx2 hinside hsmall]
    rfl

/-- Forty bytes, thirty-five of them masked from the last key index on, at once and in two chunks. -/
theorem forty_wsMask_correct :
    (wsMask true (List.replicate 40 7) 3 35 [1, 2, 3, 4] (2 ^ 64 - 1))[4]? = some 6 ∧
      wsMaskChunks true 3 [1, 2, 3, 4] (2 ^ 64 - 1) (List.replicate 40 7) 0 [32, 3] =
        wsMask true (List.replicate 40 7) 3 35 [1, 2, 3, 4] (2 ^ 64 - 1) := by
  obtain ⟨hbytes, -, hchunks⟩ :=
    @wsMask_correct true (List.replicate 40 7) 3 35 (by decide) (by decide) [1, 2, 3, 4] (2 ^ 64 - 1)
  exact ⟨(hbytes 4).trans rfl, hchunks [32, 3] rfl⟩

theorem rewrite_maskBytes (avx2 : Bool) {b : IoBuffer} (h : b.Fits) (key : List UInt8) :
    b.rewrite (maskBytes key 0) = { b with mem := wsMask avx2 b.mem b.head b.len key 0 } := by
  rw [wsMask_eq avx2 (h.backed ▸ h.inside) (h.backed ▸ h.small)]
  rfl

end Lepton.Ws

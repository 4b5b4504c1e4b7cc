import Lepton.WsFrame

/-! The frame header codec. A header has one image on the wire, and a buffer is parsed as a header exactly if the image
of that header stands at its front. So parsing and encoding undo each other, and bytes that come in later do not change
a verdict. -/

namespace Lepton.Ws

open Search

variable {n : Nat} {buf : List UInt8} {hdr : WsFrameHeader}

theorem beNat_snoc (field : List UInt8) (b : UInt8) : beNat (field ++ [b]) = beNat field * 256 + b.toNat := by
  rw [beNat, List.foldl_append]
  rfl

/-- A field is read back. -/
theorem beNat_beBytes {v : Nat} (h : v < 256 ^ n) : beNat (beBytes n v) = v := by
  induction n generalizing v with
  | zero =>
    rw [Nat.pow_zero, Nat.lt_one_iff] at h
    rw [h]
    rfl
  | succ n ih =>
    have hdiv : v / 256 < 256 ^ n := Nat.div_lt_of_lt_mul (by rwa [Nat.pow_succ, Nat.mul_comm] at h)
    have hbyte : (UInt8.ofNat (v % 256)).toNat = v % 256 := by
      rw [UInt8.toNat_ofNat']
      exact Nat.mod_mod_of_dvd _ (Nat.dvd_refl _)
    rw [beBytes, beNat_snoc, ih hdiv, hbyte]
    omega

theorem beBytes_beNat (field : List UInt8) : beBytes field.length (beNat field) = field := by
  induction field using List.reverseRecOn with
  | nil => rfl
  | append_singleton field b ih =>
    have hlt := b.toNat_lt
    have hdiv : (beNat field * 256 + b.toNat) / 256 = beNat field := by omega
    have hmod : (beNat field * 256 + b.toNat) % 256 = b.toNat := by omega
    rw [List.length_append, List.length_singleton, beNat_snoc, beBytes, hdiv, hmod, ih, UInt8.ofNat_toNat]

theorem beNat_lt (field : List UInt8) : beNat field < 256 ^ field.length := by
  induction field using List.reverseRecOn with
  | nil => exact Nat.one_pos
  | append_singleton field b ih =>
    have hlt := b.toNat_lt
    rw [beNat_snoc, List.length_append, List.length_singleton, Nat.pow_succ]
    omega

/-! The pieces of a header. -/

/-- The first byte: FIN and the opcode. -/
def firstByte (fin : Bool) (opcode : WsOpcode) : UInt8 := (if fin then 0x80 else 0) ||| opcode.code

theorem firstByte_parts (fin : Bool) (opcode : WsOpcode) :
    firstByte fin opcode &&& 0x70 = 0 ∧ WsOpcode.ofCode (firstByte fin opcode &&& 0x0F) = some opcode ∧
      (firstByte fin opcode &&& 0x80 != 0) = fin := by
  cases fin <;> cases opcode <;> decide

/-- And put together again. -/
theorem eq_firstByte {b : UInt8} {opcode : WsOpcode} (hreserved : b &&& 0x70 = 0)
    (hop : WsOpcode.ofCode (b &&& 0x0F) = some opcode) : b = firstByte (b &&& 0x80 != 0) opcode := by
  have hall (b : UInt8) : b &&& 0x70 = 0 →
      (WsOpcode.ofCode (b &&& 0x0F)).all (fun op => b == firstByte (b &&& 0x80 != 0) op) = true := by
    revert b
    apply forall_byte
    decide +kernel
  have hb := hall b hreserved
  rw [hop] at hb
  exact beq_iff_eq.mp hb

def maskBit (masked : Bool) : UInt8 := if masked then 0x80 else 0

/-- The mask bit and the length of a payload, in as few bytes as possible. -/
def lengthBytes (masked : Bool) (n : Nat) : List UInt8 :=
  if n < 126 then [maskBit masked ||| UInt8.ofNat n]
  else if n ≤ 0xFFFF then (maskBit masked ||| 126) :: beBytes 2 n
  else (maskBit masked ||| 127) :: beBytes 8 n

theorem length_lengthBytes (masked : Bool) (n : Nat) :
    (lengthBytes masked n).length = if n < 126 then 1 else if n ≤ 0xFFFF then 3 else 9 := by
  unfold lengthBytes
  split
  · rfl
  · split
    · rw [List.length_cons, length_beBytes]
    · rw [List.length_cons, length_beBytes]

theorem short_parts (masked : Bool) (h : n < 126) :
    (maskBit masked ||| UInt8.ofNat n) &&& 0x7F = UInt8.ofNat n ∧
      ((maskBit masked ||| UInt8.ofNat n) &&& 0x80 != 0) = masked := by
  have hall : ∀ n < 126, ∀ masked, (maskBit masked ||| UInt8.ofNat n) &&& 0x7F = UInt8.ofNat n ∧
      ((maskBit masked ||| UInt8.ofNat n) &&& 0x80 != 0) = masked := by decide
  exact hall n h masked

/-- Every second byte is a mask bit and seven bits. -/
theorem eq_maskBit_or (b : UInt8) : b = maskBit (b &&& 0x80 != 0) ||| (b &&& 0x7F) := by
  revert b
  apply forall_byte
  decide +kernel

/-- The length is read back. -/
theorem parseLength_lengthBytes (hn : n < 2 ^ 63) (masked : Bool) (b0 : UInt8) (rest : List UInt8) :
    ∃ b1 more, lengthBytes masked n = b1 :: more ∧ (b1 &&& 0x80 != 0) = masked ∧
      parseLength (b0 :: (lengthBytes masked n ++ rest)) b1 = .ok (n, 1 + (lengthBytes masked n).length) := by
  have hslice {k : Nat} (b1 : UInt8) : slice (b0 :: (b1 :: beBytes k n ++ rest)) 2 k = beBytes k n := by
    have happend := slice_append [b0, b1] (beBytes k n) rest
    rw [length_beBytes] at happend
    exact happend
  rw [length_lengthBytes]
  unfold lengthBytes
  split
  · next hshort =>
    obtain ⟨hvalue, hmask⟩ := short_parts masked hshort
    have hlen : (UInt8.ofNat n).toNat = n := by
      rw [UInt8.toNat_ofNat']
      exact Nat.mod_eq_of_lt (by omega)
    have h126 : UInt8.ofNat n ≠ 126 := fun h => by
      have := congrArg UInt8.toNat h
      rw [hlen] at this
      exact absurd this (Nat.ne_of_lt hshort)
    have h127 : UInt8.ofNat n ≠ 127 := fun h => by
      have := congrArg UInt8.toNat h
      rw [hlen] at this
      exact absurd (this : n = 127) (Nat.ne_of_lt (hshort.trans (by decide)))
    refine ⟨_, [], rfl, hmask, ?_⟩
    rw [parseLength, hvalue, if_neg h126, if_neg h127, hlen]
  · next hlong =>
    split
    · next hmid =>
      refine ⟨_, _, rfl, by cases masked <;> decide, ?_⟩
      have hroom : ¬ (b0 :: ((maskBit masked ||| 126) :: beBytes 2 n ++ rest)).length < 4 := by
        simp only [List.length_cons, List.length_append, length_beBytes]
        omega
      have hvalue : beNat (slice (b0 :: ((maskBit masked ||| 126) :: beBytes 2 n ++ rest)) 2 2) = n := by
        rw [hslice, beNat_beBytes (by omega)]
      rw [parseLength, if_pos (by cases masked <;> decide), if_neg hroom, hvalue, if_neg hlong]
    · next hlarge =>
      refine ⟨_, _, rfl, by cases masked <;> decide, ?_⟩
      have hroom : ¬ (b0 :: ((maskBit masked ||| 127) :: beBytes 8 n ++ rest)).length < 10 := by
        simp only [List.length_cons, List.length_append, length_beBytes]
        omega
      have hvalue : beNat (slice (b0 :: ((maskBit masked ||| 127) :: beBytes 8 n ++ rest)) 2 8) = n := by
        rw [hslice, beNat_beBytes (by omega)]
      rw [parseLength, if_neg (by cases masked <;> decide), if_pos (by cases masked <;> decide), if_neg hroom, hvalue,
        if_neg (by omega)]

/-- A length that was read stands at the front in as few bytes as possible. -/
theorem lengthBytes_of_parseLength {b0 b1 : UInt8} {rest : List UInt8} {pos : Nat}
    (h : parseLength (b0 :: b1 :: rest) b1 = .ok (n, pos)) :
    n < 2 ^ 63 ∧ lengthBytes (b1 &&& 0x80 != 0) n <+: b1 :: rest ∧ pos = 1 + (lengthBytes (b1 &&& 0x80 != 0) n).length := by
  have hbits := eq_maskBit_or b1
  have hfield {k : Nat} (hroom : ¬ (b0 :: b1 :: rest).length < k + 2) :
      beBytes k (beNat (slice (b0 :: b1 :: rest) 2 k)) <+: rest ∧ beNat (slice (b0 :: b1 :: rest) 2 k) < 256 ^ k := by
    have hslice : slice (b0 :: b1 :: rest) 2 k = rest.take k := rfl
    have hlen : (rest.take k).length = k := by
      rw [List.length_take_of_le]
      simp only [List.length_cons] at hroom
      omega
    have hwrite := beBytes_beNat (rest.take k)
    have hlt := beNat_lt (rest.take k)
    rw [hlen] at hwrite hlt
    rw [hslice, hwrite]
    exact ⟨List.take_prefix k rest, hlt⟩
  unfold parseLength at h
  split at h
  · next hmid =>
    rw [hmid] at hbits
    split at h
    · cases h
    · next hroom =>
      obtain ⟨hfront, hlt⟩ := hfield hroom
      split at h
      · cases h
      · next hlarge =>
        cases h
        have hbytes : lengthBytes (b1 &&& 0x80 != 0) (beNat (slice (b0 :: b1 :: rest) 2 2))
            = b1 :: beBytes 2 (beNat (slice (b0 :: b1 :: rest) 2 2)) := by
          rw [lengthBytes, if_neg hlarge, if_pos (by omega), ← hbits]
        rw [hbytes, List.cons_prefix_cons, List.length_cons, length_beBytes]
        exact ⟨by omega, ⟨rfl, hfront⟩, rfl⟩
  · split at h
    · next hmid hlong =>
      rw [hlong] at hbits
      split at h
      · cases h
      · next hroom =>
        obtain ⟨hfront, -⟩ := hfield hroom
        split at h
        · cases h
        · next hlarge =>
          cases h
          have hbytes : lengthBytes (b1 &&& 0x80 != 0) (beNat (slice (b0 :: b1 :: rest) 2 8))
              = b1 :: beBytes 8 (beNat (slice (b0 :: b1 :: rest) 2 8)) := by
            rw [lengthBytes, if_neg (by omega), if_neg (by omega), ← hbits]
          rw [hbytes, List.cons_prefix_cons, List.length_cons, length_beBytes]
          exact ⟨by omega, ⟨rfl, hfront⟩, rfl⟩
    · next h126 h127 =>
      cases h
      have hshort : (b1 &&& 0x7F).toNat < 126 := by
        have hall (b : UInt8) : b &&& 0x7F ≠ 126 → b &&& 0x7F ≠ 127 → (b &&& 0x7F).toNat < 126 := by
          revert b
          apply forall_byte
          decide +kernel
        exact hall b1 h126 h127
      have hbytes : lengthBytes (b1 &&& 0x80 != 0) (b1 &&& 0x7F).toNat = [b1] := by
        rw [lengthBytes, if_pos hshort, UInt8.ofNat_toNat, ← hbits]
      rw [hbytes]
      exact ⟨by omega, ⟨rest, rfl⟩, rfl⟩

/-! Headers and their images. -/

namespace WsFrameHeader

/-- The bytes of a header. -/
def image (hdr : WsFrameHeader) : List UInt8 :=
  firstByte hdr.fin hdr.opcode :: (lengthBytes hdr.masked hdr.payloadLen ++ if hdr.masked then hdr.maskKey else [])

/-- A header that may stand before a frame: its length fits in 63 bits, control frames are whole and short, and the key
is there if the frame is masked. -/
structure Sound (hdr : WsFrameHeader) : Prop where
  size : hdr.payloadLen < 2 ^ 63
  control : hdr.opcode.isControl = true → hdr.fin = true ∧ hdr.payloadLen ≤ 125
  key : if hdr.masked then hdr.maskKey.length = 4 else hdr.maskKey = [0, 0, 0, 0]
  whole : hdr.headerSize = hdr.image.length

/-- A header has between two and fourteen bytes. -/
theorem Sound.headerSize_bounds (h : hdr.Sound) : 2 ≤ hdr.headerSize ∧ hdr.headerSize ≤ 14 := by
  have hlength := length_lengthBytes hdr.masked hdr.payloadLen
  have hkey : (if hdr.masked then hdr.maskKey else []).length ≤ 4 := by
    have hkey := h.key
    split at hkey
    · next hmasked => rw [if_pos hmasked, hkey]
    · next hmasked => rw [if_neg hmasked]; exact Nat.zero_le 4
  rw [h.whole, image, List.length_cons, List.length_append, hlength]
  split
  · omega
  · split
    · omega
    · omega

end WsFrameHeader

/-- Behind the length field the parser takes the key, if there is one. -/
theorem parseMask_image (h : hdr.Sound) (rest : List UInt8) :
    parseMask (hdr.image ++ rest) hdr.fin hdr.masked hdr.opcode hdr.payloadLen
      (1 + (lengthBytes hdr.masked hdr.payloadLen).length) = .header hdr := by
  obtain ⟨fin, masked, opcode, n, key, size⟩ := hdr
  have hcontrol : ¬ (opcode.isControl = true ∧ (125 < n ∨ fin = false)) := by
    rintro ⟨hcontrol, hlong | hpart⟩
    · exact absurd (h.control hcontrol).2 (Nat.not_le.mpr hlong)
    · exact absurd ((h.control hcontrol).1.symm.trans hpart) nofun
  have hwhole := h.whole
  have hkey := h.key
  dsimp only [WsFrameHeader.image] at hwhole hkey ⊢
  rw [List.length_cons, List.length_append] at hwhole
  rw [parseMask, if_neg hcontrol]
  cases masked with
  | true =>
    rw [if_pos rfl] at hkey hwhole ⊢
    have hbuf : firstByte fin opcode :: (lengthBytes true n ++ key) ++ rest
        = (firstByte fin opcode :: lengthBytes true n) ++ (key ++ rest) := by
      rw [List.cons_append, List.cons_append, List.append_assoc]
    have hroom : ¬ ((firstByte fin opcode :: lengthBytes true n) ++ (key ++ rest)).length <
        1 + (lengthBytes true n).length + 4 := by
      simp only [List.length_append, List.length_cons, hkey]
      omega
    have hslice : slice ((firstByte fin opcode :: lengthBytes true n) ++ (key ++ rest)) (1 + (lengthBytes true n).length) 4
        = key := by
      have happend := slice_append (firstByte fin opcode :: lengthBytes true n) key rest
      rw [List.length_cons, hkey, Nat.add_comm] at happend
      exact happend
    have hsize : 1 + (lengthBytes true n).length + 4 = size := by omega
    rw [if_pos rfl, hbuf, if_neg hroom, hslice, hsize]
  | false =>
    rw [if_neg Bool.false_ne_true] at hkey hwhole
    have hsize : 1 + (lengthBytes false n).length = size := by
      rw [hwhole, List.length_nil]
      omega
    rw [if_neg Bool.false_ne_true, hsize, hkey]

theorem wsParseHeader_image (h : hdr.Sound) (rest : List UInt8) :
    wsParseHeader (hdr.image ++ rest) = .header hdr := by
  obtain ⟨hreserved, hopcode, hfin⟩ := firstByte_parts hdr.fin hdr.opcode
  obtain ⟨b1, more, hfield, hmask, hlength⟩ := parseLength_lengthBytes h.size hdr.masked (firstByte hdr.fin hdr.opcode)
    ((if hdr.masked then hdr.maskKey else []) ++ rest)
  have hbuf : hdr.image ++ rest = firstByte hdr.fin hdr.opcode ::
      (lengthBytes hdr.masked hdr.payloadLen ++ ((if hdr.masked then hdr.maskKey else []) ++ rest)) := by
    rw [WsFrameHeader.image, List.cons_append, List.append_assoc]
  have hlast := parseMask_image h rest
  rw [hbuf] at hlast ⊢
  rw [hfield, List.cons_append] at hlength hlast ⊢
  unfold wsParseHeader
  dsimp only
  rw [if_neg (not_not.mpr hreserved), hopcode]
  dsimp only
  rw [hlength]
  dsimp only
  rw [hfin, hmask]
  exact hlast

/-- A header the parser returns is sound, and its image stands at the front. -/
theorem image_of_parseMask {b0 b1 : UInt8} {rest : List UInt8} {fin masked : Bool} {opcode : WsOpcode} {pos : Nat}
    (h : parseMask (b0 :: b1 :: rest) fin masked opcode n pos = .header hdr)
    (hfirst : b0 = firstByte fin opcode) (hsize : n < 2 ^ 63) (hlen : lengthBytes masked n <+: b1 :: rest)
    (hpos : pos = 1 + (lengthBytes masked n).length) : hdr.Sound ∧ hdr.image <+: b0 :: b1 :: rest := by
  unfold parseMask at h
  split at h
  · cases h
  · next hcontrol =>
    have hwhole (hop : opcode.isControl = true) : fin = true ∧ n ≤ 125 := by
      constructor
      · exact Bool.not_eq_false _ ▸ fun hfin => hcontrol ⟨hop, Or.inr hfin⟩
      · exact Nat.not_lt.mp fun hlong => hcontrol ⟨hop, Or.inl hlong⟩
    cases masked with
    | true =>
      rw [if_pos rfl] at h
      split at h
      · cases h
      · next hroom =>
        cases h
        have hslice : slice (b0 :: b1 :: rest) pos 4 = ((b1 :: rest).drop (lengthBytes true n).length).take 4 := by
          rw [slice, hpos, Nat.add_comm, List.drop_succ_cons]
        have hkey : (slice (b0 :: b1 :: rest) pos 4).length = 4 := by
          rw [slice, List.length_take, List.length_drop]
          omega
        obtain ⟨more, hmore⟩ := hlen
        refine ⟨⟨hsize, hwhole, hkey, ?_⟩, ?_⟩
        · rw [WsFrameHeader.image, if_pos rfl, List.length_cons, List.length_append, hkey]
          change pos + 4 = (lengthBytes true n).length + 4 + 1
          omega
        · rw [WsFrameHeader.image, if_pos rfl, List.cons_prefix_cons, hslice, ← hmore, List.drop_left]
          exact ⟨hfirst.symm, (List.prefix_append_right_inj _).mpr (List.take_prefix 4 more)⟩
    | false =>
      rw [if_neg Bool.false_ne_true] at h
      cases h
      refine ⟨⟨hsize, hwhole, rfl, ?_⟩, ?_⟩
      · rw [WsFrameHeader.image, if_neg Bool.false_ne_true, List.append_nil, List.length_cons, hpos, Nat.add_comm]
      · rw [WsFrameHeader.image, if_neg Bool.false_ne_true, List.append_nil, List.cons_prefix_cons]
        exact ⟨hfirst.symm, hlen⟩

theorem parseLength_error {b1 : UInt8} {r : HeaderResult}
    (h : parseLength buf b1 = .error r) : r ≠ .header hdr := by
  unfold parseLength at h
  split at h
  · split at h
    · cases h
      exact nofun
    · split at h
      · cases h
        exact nofun
      · cases h
  · split at h
    · split at h
      · cases h
        exact nofun
      · split at h
        · cases h
          exact nofun
        · cases h
    · cases h

/-- **The parser's headers.** A buffer is parsed as a header exactly if that header is sound and its image stands at the
front. -/
theorem wsParseHeader_eq_header :
    wsParseHeader buf = .header hdr ↔ hdr.Sound ∧ hdr.image <+: buf := by
  constructor
  · intro h
    unfold wsParseHeader at h
    split at h
    · split at h
      · cases h
      · next hreserved =>
        split at h
        · cases h
        · next opcode hop =>
          split at h
          · next hlen => exact absurd h (parseLength_error hlen)
          · next hlen =>
            obtain ⟨hsize, hfront, hpos⟩ := lengthBytes_of_parseLength hlen
            exact image_of_parseMask h (eq_firstByte (not_not.mp hreserved) hop) hsize hfront hpos
    · cases h
  · rintro ⟨hsound, rest, rfl⟩
    exact wsParseHeader_image hsound rest

/-! More bytes. -/

theorem parseLength_append {b1 : UInt8} (h : parseLength buf b1 ≠ .error .incomplete)
    (more : List UInt8) : parseLength (buf ++ more) b1 = parseLength buf b1 := by
  have hslice {k : Nat} (hroom : ¬ buf.length < 2 + k) : slice (buf ++ more) 2 k = slice buf 2 k := by
    have htake : slice ((buf ++ more).take buf.length) 2 k = slice (buf ++ more) 2 k := slice_take (Nat.not_lt.mp hroom)
    rw [List.take_left] at htake
    exact htake.symm
  have hlonger {k : Nat} (hroom : ¬ buf.length < k) : ¬ (buf ++ more).length < k := by
    rw [List.length_append]
    omega
  unfold parseLength at h ⊢
  split
  · next hmid =>
    rw [if_pos hmid] at h
    by_cases hroom : buf.length < 4
    · exact absurd (if_pos hroom) h
    · rw [if_neg hroom, if_neg (hlonger hroom), hslice hroom]
  · next hmid =>
    rw [if_neg hmid] at h
    split
    · next hlong =>
      rw [if_pos hlong] at h
      by_cases hroom : buf.length < 10
      · exact absurd (if_pos hroom) h
      · rw [if_neg hroom, if_neg (hlonger hroom), hslice hroom]
    · rfl

/-- Only a frame of a kind that is never right is an error behind the length field, whatever follows. -/
theorem parseMask_error {fin masked : Bool} {opcode : WsOpcode} {pos : Nat}
    (h : parseMask buf fin masked opcode n pos = .error) (buf' : List UInt8) :
    parseMask buf' fin masked opcode n pos = .error := by
  unfold parseMask at h ⊢
  split
  · rfl
  · next hcontrol =>
    rw [if_neg hcontrol] at h
    split at h
    · split at h
      · cases h
      · cases h
    · cases h

/-- An error stays an error. -/
theorem wsParseHeader_error_append (h : wsParseHeader buf = .error) (more : List UInt8) :
    wsParseHeader (buf ++ more) = .error := by
  match buf with
  | [] => cases h
  | [_] => cases h
  | b0 :: b1 :: rest =>
    rw [List.cons_append, List.cons_append]
    unfold wsParseHeader at h ⊢
    dsimp only at h ⊢
    split
    · rfl
    · next hreserved =>
      rw [if_neg hreserved] at h
      split
      · rfl
      · next opcode hop =>
        rw [hop] at h
        dsimp only at h
        have hlength : parseLength (b0 :: b1 :: rest) b1 ≠ .error .incomplete := fun hshort => by
          rw [hshort] at h
          cases h
        have happend := parseLength_append hlength more
        rw [List.cons_append, List.cons_append] at happend
        rw [happend]
        split
        · next hr =>
          rw [hr] at h
          exact h
        · next hok =>
          rw [hok] at h
          exact parseMask_error h _

theorem wsParseHeader_header_append (h : wsParseHeader buf = .header hdr)
    (more : List UInt8) : wsParseHeader (buf ++ more) = .header hdr := by
  obtain ⟨hsound, hfront⟩ := wsParseHeader_eq_header.mp h
  exact wsParseHeader_eq_header.mpr ⟨hsound, hfront.trans (List.prefix_append buf more)⟩

/-- A part of a header is waited for: neither a header nor an error would be taken back when the rest comes in. -/
theorem wsParseHeader_part (h : hdr.Sound) {part : List UInt8} (hpart : part <+: hdr.image)
    (hlen : part.length < hdr.image.length) : wsParseHeader part = .incomplete := by
  obtain ⟨more, hmore⟩ := hpart
  have hwhole := wsParseHeader_image h []
  rw [List.append_nil, ← hmore] at hwhole
  match hp : wsParseHeader part with
  | .incomplete => rfl
  | .error =>
    rw [wsParseHeader_error_append hp more] at hwhole
    cases hwhole
  | .header other =>
    rw [wsParseHeader_header_append hp more] at hwhole
    cases hwhole
    exact absurd (wsParseHeader_eq_header.mp hp).2.length_le (Nat.not_le.mpr hlen)

theorem parseLength_ne_incomplete (h : 10 ≤ buf.length) {b1 : UInt8} :
    parseLength buf b1 ≠ .error .incomplete := by
  unfold parseLength
  rw [if_neg (show ¬ buf.length < 4 by omega), if_neg (show ¬ buf.length < 10 by omega)]
  split
  · split
    · exact nofun
    · exact nofun
  · split
    · split
      · exact nofun
      · exact nofun
    · exact nofun

/-- Fourteen bytes hold every header. -/
theorem wsParseHeader_ne_incomplete (h : 14 ≤ buf.length) : wsParseHeader buf ≠ .incomplete := by
  match buf with
  | [] => exact absurd h (by decide)
  | [_] => exact absurd h (by simp)
  | b0 :: b1 :: rest =>
    unfold wsParseHeader
    dsimp only
    split
    · exact nofun
    · split
      · exact nofun
      · split
        · next r hr =>
          rintro rfl
          exact parseLength_ne_incomplete (le_trans (by decide) h) hr
        · next n pos hok =>
          obtain ⟨-, -, hpos⟩ := lengthBytes_of_parseLength hok
          have hshort := length_lengthBytes (b1 &&& 0x80 != 0) n
          have hroom : ¬ (b0 :: b1 :: rest).length < pos + 4 := by
            split at hshort
            · omega
            · split at hshort
              · omega
              · omega
          unfold parseMask
          rw [if_neg hroom]
          split
          · exact nofun
          · split
            · exact nofun
            · exact nofun

/-- **Parsing is stable.** A verdict other than "need more" stands whatever comes in later. No part of a header is
anything but "need more", and fourteen bytes are always enough for a verdict. -/
theorem wsParseHeader_stable (b s : List UInt8) :
    (∀ hdr, wsParseHeader b = .header hdr →
      wsParseHeader (b ++ s) = .header hdr ∧ hdr.headerSize ≤ b.length ∧
        ∀ p, p <+: b.take hdr.headerSize → p ≠ b.take hdr.headerSize → wsParseHeader p = .incomplete) ∧
      (wsParseHeader b = .error → wsParseHeader (b ++ s) = .error) ∧
      (14 ≤ b.length → wsParseHeader b ≠ .incomplete) := by
  refine ⟨fun hdr h => ?_, fun h => wsParseHeader_error_append h s, wsParseHeader_ne_incomplete⟩
  obtain ⟨hsound, hfront⟩ := wsParseHeader_eq_header.mp h
  have himage : b.take hdr.headerSize = hdr.image := by
    rw [hsound.whole]
    exact (List.prefix_iff_eq_take.mp hfront).symm
  refine ⟨wsParseHeader_header_append h s, hsound.whole.trans_le hfront.length_le, fun p hp hne => ?_⟩
  rw [himage] at hp hne
  refine wsParseHeader_part hsound hp (Nat.lt_of_le_of_ne hp.length_le fun hlen => hne ?_)
  exact hp.eq_of_length hlen

/-- A masked header of five bytes' payload, its first three bytes, and a reserved opcode. -/
theorem hello_wsParseHeader_stable :
    wsParseHeader ([0x81, 0x85, 1, 2, 3, 4] ++ [9]) =
        .header { masked := true, payloadLen := 5, maskKey := [1, 2, 3, 4], headerSize := 6 } ∧
      wsParseHeader [0x81, 0x85, 1] = .incomplete ∧ wsParseHeader ([0x83, 0] ++ [7]) = .error := by
  obtain ⟨hheader, -, -⟩ := wsParseHeader_stable [0x81, 0x85, 1, 2, 3, 4] [9]
  obtain ⟨hlonger, -, hparts⟩ :=
    hheader { masked := true, payloadLen := 5, maskKey := [1, 2, 3, 4], headerSize := 6 } (by decide)
  exact ⟨hlonger, hparts [0x81, 0x85, 1] (by decide) (by decide), (wsParseHeader_stable [0x83, 0] [7]).2.1 (by decide)⟩

/-! Client frames. -/

/-- The header of a client frame. -/
def clientHeader (opcode : WsOpcode) (payloadLen : Nat) (maskKey : List UInt8) (fin : Bool) : WsFrameHeader :=
  { fin := fin, masked := true, opcode := opcode, payloadLen := payloadLen, maskKey := maskKey
    headerSize := wsClientHeaderSize payloadLen }

theorem wsEncodeClientHeader_eq_image {room : Nat} {opcode : WsOpcode} {payloadLen : Nat} {maskKey : List UInt8} {fin : Bool}
    (hroom : wsClientHeaderSize payloadLen ≤ room) :
    wsEncodeClientHeader room opcode payloadLen maskKey fin = (clientHeader opcode payloadLen maskKey fin).image := by
  rw [wsEncodeClientHeader, if_neg (Nat.not_lt.mpr hroom)]
  rfl

theorem clientHeader_sound {opcode : WsOpcode} {payloadLen : Nat} {maskKey : List UInt8} {fin : Bool}
    (hsize : payloadLen < 2 ^ 63) (hcontrol : opcode.isControl = true → fin = true ∧ payloadLen ≤ 125)
    (hkey : maskKey.length = 4) : (clientHeader opcode payloadLen maskKey fin).Sound := by
  refine ⟨hsize, hcontrol, hkey, ?_⟩
  rw [← wsEncodeClientHeader_eq_image (Nat.le_refl _), length_wsEncodeClientHeader (Nat.le_refl _) hkey]
  rfl

/-- **Headers go round.** The header of a client frame fills the size announced for it and is parsed as it was given,
whatever follows; and a masked header that was parsed is encoded to the bytes it came from. -/
theorem wsClientHeader_round_trip :
    (∀ (opcode : WsOpcode) (n : Nat) (key : List UInt8) (fin : Bool) (room : Nat) (suffix : List UInt8),
      n < 2 ^ 63 → key.length = 4 → (opcode.isControl = true → fin = true ∧ n ≤ 125) → wsClientHeaderSize n ≤ room →
      (wsEncodeClientHeader room opcode n key fin).length = wsClientHeaderSize n ∧
        wsParseHeader (wsEncodeClientHeader room opcode n key fin ++ suffix) = .header
          { fin := fin, masked := true, opcode := opcode, payloadLen := n, maskKey := key
            headerSize := wsClientHeaderSize n }) ∧
      ∀ (buf : List UInt8) (hdr : WsFrameHeader) (room : Nat),
        wsParseHeader buf = .header hdr → hdr.masked = true → hdr.headerSize ≤ room →
        wsEncodeClientHeader room hdr.opcode hdr.payloadLen hdr.maskKey hdr.fin = buf.take hdr.headerSize := by
  constructor
  · intro opcode n key fin room suffix hsize hkey hcontrol hroom
    refine ⟨length_wsEncodeClientHeader hroom hkey, ?_⟩
    rw [wsEncodeClientHeader_eq_image hroom]
    exact wsParseHeader_image (clientHeader_sound hsize hcontrol hkey) suffix
  · intro buf hdr room h hmasked hroom
    obtain ⟨hsound, hfront⟩ := wsParseHeader_eq_header.mp h
    obtain ⟨fin, masked, opcode, n, key, size⟩ := hdr
    dsimp only at hmasked hroom ⊢
    subst hmasked
    have hclient := clientHeader_sound hsound.size hsound.control hsound.key
    have hwhole : size = wsClientHeaderSize n := hsound.whole.trans hclient.whole.symm
    rw [wsEncodeClientHeader_eq_image (hwhole ▸ hroom), show size = _ from hsound.whole]
    exact List.prefix_iff_eq_take.mp hfront

/-- A ping with its header in ten bytes of room, there and back. -/
theorem ping_wsClientHeader_round_trip :
    wsParseHeader (wsEncodeClientHeader 10 .ping 2 [1, 2, 3, 4] true ++ [5]) =
        .header { masked := true, opcode := .ping, payloadLen := 2, maskKey := [1, 2, 3, 4], headerSize := 6 } ∧
      wsEncodeClientHeader 6 .ping 2 [1, 2, 3, 4] true = [0x89, 0x82, 1, 2, 3, 4, 5].take 6 := by
  obtain ⟨hencode, hparse⟩ := wsClientHeader_round_trip
  have hthere := hencode .ping 2 [1, 2, 3, 4] true 10 [5] (by decide) rfl (by decide) (by decide)
  have hback := hparse [0x89, 0x82, 1, 2, 3, 4, 5]
    { masked := true, opcode := .ping, payloadLen := 2, maskKey := [1, 2, 3, 4], headerSize := 6 } 6 (by decide) rfl
    (by decide)
  exact ⟨hthere.2, hback⟩

end Lepton.Ws

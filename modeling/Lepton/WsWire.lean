import Lepton.WsSafe
import Lepton.WsVerdict

/-! What a server sends: the header block that accepts the upgrade, and unmasked frames. A receive buffer that holds
the beginning of them is parsed as far as it goes: a frame that is there is found, and one that is not is waited
for. -/

namespace Lepton.Ws

open Search Http Words

/-- A complete header block that `drive_upgrade_read` accepts, with nothing behind it. -/
structure UpgradeBlock (expected block : List UInt8) : Prop where
  complete : (validateWsUpgrade block expected).complete = true
  whole : (validateWsUpgrade block expected).headersLen = block.length
  accepted : ((validateWsUpgrade block expected).accepted ||
    (expected = [] && 0 < (validateWsUpgrade block expected).headersLen)) = true

theorem UpgradeBlock.block {expected block : List UInt8} (h : UpgradeBlock expected block) : Block block := by
  have hcomplete := h.complete
  have hwhole := h.whole
  unfold validateWsUpgrade at hcomplete hwhole
  split at hcomplete
  · cases hcomplete
  · next k hk =>
    rw [hk] at hwhole
    exact ⟨k, hk, hwhole⟩

theorem statusIs101_append {input : List UInt8} (h : statusIs101 input = true) (rest : List UInt8) :
    statusIs101 (input ++ rest) = true := by
  unfold statusIs101 at h ⊢
  rw [Bool.and_eq_true] at h ⊢
  refine ⟨istartsWith_append h.1 rest, ?_⟩
  have hcode := h.2
  split at hcode
  · cases hcode
  · next sp hsp =>
    rw [Bool.and_eq_true, decide_eq_true_eq] at hcode
    have hslice : slice (input ++ rest) (sp + 1) 3 = slice input (sp + 1) 3 := by
      have htake : slice ((input ++ rest).take input.length) (sp + 1) 3 = slice (input ++ rest) (sp + 1) 3 :=
        slice_take (by omega)
      rw [List.take_left] at htake
      exact htake.symm
    rw [find_append hsp]
    dsimp only
    rw [hslice, hcode.2, Bool.and_true, decide_eq_true_eq, List.length_append]
    omega

/-- The block is accepted, with whatever came behind it in the same read. -/
theorem UpgradeBlock.long {expected block : List UInt8} (h : UpgradeBlock expected block) (rest : List UInt8) :
    (validateWsUpgrade (block ++ rest) expected).complete = true ∧
      (validateWsUpgrade (block ++ rest) expected).headersLen = block.length ∧
      ((validateWsUpgrade (block ++ rest) expected).accepted ||
        (expected = [] && 0 < (validateWsUpgrade (block ++ rest) expected).headersLen)) = true := by
  have haccepted := h.accepted
  have halone := h.block.validate [] expected
  rw [List.append_nil] at halone
  rw [halone] at haccepted
  rw [h.block.validate rest expected]
  refine ⟨rfl, rfl, ?_⟩
  dsimp only at haccepted ⊢
  rw [Bool.or_eq_true, Bool.and_eq_true] at haccepted ⊢
  exact haccepted.imp_left fun hok => ⟨statusIs101_append hok.1 rest, hok.2⟩

/-- A frame of the server. -/
structure ServerFrame where
  fin : Bool
  opcode : WsOpcode
  payload : List UInt8
  deriving DecidableEq, Repr

/-- The length of a payload in as few bytes as possible. -/
def lengthField (n : Nat) : List UInt8 :=
  if n < 126 then [UInt8.ofNat n] else if n ≤ 0xFFFF then 126 :: beBytes 2 n else 127 :: beBytes 8 n

namespace ServerFrame

/-- The bytes before the payload. -/
def head (f : ServerFrame) : List UInt8 :=
  ((if f.fin then 0x80 else 0) ||| f.opcode.code) :: lengthField f.payload.length

def encode (f : ServerFrame) : List UInt8 := f.head ++ f.payload

/-- The header as the parser returns it. -/
def header (f : ServerFrame) : WsFrameHeader :=
  { fin := f.fin, opcode := f.opcode, payloadLen := f.payload.length, headerSize := f.head.length }

/-- The frame may be sent, and does not close the connection: control frames are whole and short. -/
structure Valid (f : ServerFrame) : Prop where
  size : f.payload.length < 2 ^ 63
  control : f.opcode.isControl = true → f.fin = true ∧ f.payload.length ≤ 125
  notClose : f.opcode ≠ .close

end ServerFrame

theorem lengthField_eq (n : Nat) : lengthField n = lengthBytes false n := by
  have hzero (b : UInt8) : maskBit false ||| b = b := UInt8.zero_or
  unfold lengthField lengthBytes
  rw [hzero, hzero, hzero]

theorem ServerFrame.head_eq_image (f : ServerFrame) : f.head = f.header.image := by
  rw [head, lengthField_eq, WsFrameHeader.image]
  exact congrArg _ (List.append_nil _).symm

theorem ServerFrame.Valid.sound {f : ServerFrame} (hf : f.Valid) : f.header.Sound :=
  ⟨hf.size, hf.control, rfl, congrArg List.length f.head_eq_image⟩

/-- **The header of a frame is parsed**, whatever is there of its payload. -/
theorem wsParseHeader_head {f : ServerFrame} (hf : f.Valid) (rest : List UInt8) :
    wsParseHeader (f.head ++ rest) = .header f.header := by
  rw [f.head_eq_image]
  exact wsParseHeader_image hf.sound rest

theorem wsParseHeader_short {f : ServerFrame} (hf : f.Valid) {part : List UInt8} (hpart : part <+: f.head)
    (hlen : part.length < f.head.length) : wsParseHeader part = .incomplete := by
  rw [f.head_eq_image] at hpart hlen
  exact wsParseHeader_part hf.sound hpart hlen

namespace WsSession

variable {s : WsSession}

theorem nextFrame_empty (hbytes : s.recv.bytes = []) : s.nextFrame = .wait := by
  rw [nextFrame, hbytes]
  rfl

/-- A frame that is there is found. -/
theorem nextFrame_whole (hfits : s.recv.Fits) {f : ServerFrame} (hf : f.Valid) {rest : List UInt8}
    (hbytes : s.recv.bytes = f.encode ++ rest) : s.nextFrame = .frame f.header f.payload f.encode.length := by
  have hlen := hfits.length_bytes
  have htotal : add f.header.headerSize f.header.payloadLen = f.encode.length := by
    have hin := hfits.inside
    have hsmall := hfits.small
    have hsize : wordSize = 2 ^ 64 := rfl
    rw [hbytes, List.length_append] at hlen
    have hencode : f.encode.length = f.header.headerSize + f.header.payloadLen := List.length_append
    rw [add_of_lt (by omega), hencode]
  have hpayload : slice s.recv.bytes f.header.headerSize f.header.payloadLen = f.payload := by
    rw [hbytes, ServerFrame.encode, List.append_assoc]
    exact slice_append f.head f.payload rest
  have hheader : wsParseHeader s.recv.bytes = .header f.header := by
    rw [hbytes, ServerFrame.encode, List.append_assoc]
    exact wsParseHeader_head hf _
  have hroom : ¬ s.recv.len < f.encode.length := by
    rw [← hlen, hbytes, List.length_append]
    omega
  rw [nextFrame, hheader]
  dsimp only
  rw [htotal, if_neg hroom, hpayload]

/-- A frame that is not there yet is waited for. -/
theorem nextFrame_part (hfits : s.recv.Fits) {f : ServerFrame} (hf : f.Valid) (hpart : s.recv.bytes <+: f.encode)
    (hlen : s.recv.bytes.length < f.encode.length) : s.nextFrame = .wait := by
  have hbytes := hfits.length_bytes
  by_cases hhead : s.recv.bytes.length < f.head.length
  · have hprefix : s.recv.bytes <+: f.head := List.prefix_of_prefix_length_le hpart (List.prefix_append _ _) hhead.le
    rw [nextFrame, wsParseHeader_short hf hprefix hhead]
  · have hprefix : f.head <+: s.recv.bytes :=
      List.prefix_of_prefix_length_le (List.prefix_append _ _) hpart (Nat.not_lt.mp hhead)
    obtain ⟨more, hmore⟩ := hprefix
    have hheader : wsParseHeader s.recv.bytes = .header f.header := by
      rw [← hmore]
      exact wsParseHeader_head hf more
    have htotal : s.recv.len < add f.header.headerSize f.header.payloadLen := by
      have hencode : f.encode.length = f.header.headerSize + f.header.payloadLen := List.length_append
      have hhere : f.header.headerSize ≤ s.recv.len := by
        rw [← hbytes]
        exact Nat.not_lt.mp hhead
      have hin := hfits.inside
      have hsmall := hfits.small
      have hpayload : f.header.payloadLen < 2 ^ 63 := hf.size
      have hsize : wordSize = 2 ^ 64 := rfl
      rw [add_of_lt (by omega)]
      omega
    rw [nextFrame, hheader]
    dsimp only
    rw [if_pos htotal]

end WsSession

end Lepton.Ws

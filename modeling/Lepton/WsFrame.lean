import Lepton.Words
import Lepton.HttpText

/-! RFC 6455 framing: the frame header parser, the client header encoder, and the masking of client
payloads with keys from the PCG-XSH-RR generator. -/

namespace Lepton.Ws

open Words

inductive WsOpcode where
  | continuation
  | text
  | binary
  | close
  | ping
  | pong
  deriving DecidableEq, Repr

namespace WsOpcode

def code : WsOpcode → UInt8
  | .continuation => 0x0
  | .text => 0x1
  | .binary => 0x2
  | .close => 0x8
  | .ping => 0x9
  | .pong => 0xa

/-- The opcode of a frame, unless it is reserved. -/
def ofCode (c : UInt8) : Option WsOpcode :=
  if c = 0x0 then some .continuation
  else if c = 0x1 then some .text
  else if c = 0x2 then some .binary
  else if c = 0x8 then some .close
  else if c = 0x9 then some .ping
  else if c = 0xa then some .pong
  else none

def isControl (op : WsOpcode) : Bool := op.code &&& 0x08 != 0

end WsOpcode

structure WsFrameHeader where
  fin : Bool := true
  masked : Bool := false
  opcode : WsOpcode := .text
  payloadLen : Nat := 0
  maskKey : List UInt8 := [0, 0, 0, 0]
  headerSize : Nat := 0
  deriving DecidableEq, Repr

/-- The value of a big-endian field. -/
def beNat (field : List UInt8) : Nat := field.foldl (fun v b => v * 256 + b.toNat) 0

/-- The big-endian field of `n` bytes with a given value. -/
def beBytes : Nat → Nat → List UInt8
  | 0, _ => []
  | n + 1, v => beBytes n (v / 256) ++ [UInt8.ofNat (v % 256)]

/-- What the header parser returns: more bytes are needed, a protocol violation, or a header. -/
inductive HeaderResult where
  | incomplete
  | error
  | header (hdr : WsFrameHeader)
  deriving DecidableEq, Repr

/-- The payload length and the offset behind it, from the second byte on. -/
def parseLength (buf : List UInt8) (b1 : UInt8) : Except HeaderResult (Nat × Nat) :=
  if b1 &&& 0x7F = 126 then
    if buf.length < 4 then .error .incomplete
    else if beNat (Search.slice buf 2 2) < 126 then .error .error
    else .ok (beNat (Search.slice buf 2 2), 4)
  else if b1 &&& 0x7F = 127 then
    if buf.length < 10 then .error .incomplete
    else if 2 ^ 63 ≤ beNat (Search.slice buf 2 8) ∨ beNat (Search.slice buf 2 8) ≤ 0xFFFF then .error .error
    else .ok (beNat (Search.slice buf 2 8), 10)
  else .ok ((b1 &&& 0x7F).toNat, 2)

/-- The last part of the parser, behind the length field. -/
def parseMask (buf : List UInt8) (fin masked : Bool) (opcode : WsOpcode) (payloadLen pos : Nat) : HeaderResult :=
  if opcode.isControl ∧ (125 < payloadLen ∨ fin = false) then .error
  else if masked then
    if buf.length < pos + 4 then .incomplete
    else
      .header { fin := fin, masked := masked, opcode := opcode, payloadLen := payloadLen
                maskKey := Search.slice buf pos 4, headerSize := pos + 4 }
  else .header { fin := fin, masked := masked, opcode := opcode, payloadLen := payloadLen, headerSize := pos }

def wsParseHeader (buf : List UInt8) : HeaderResult :=
  match buf with
  | b0 :: b1 :: _ =>
    if b0 &&& 0x70 ≠ 0 then .error
    else
      match WsOpcode.ofCode (b0 &&& 0x0F) with
      | none => .error
      | some opcode =>
        match parseLength buf b1 with
        | .error r => r
        | .ok (payloadLen, pos) =>
          parseMask buf (b0 &&& 0x80 != 0) (b1 &&& 0x80 != 0) opcode payloadLen pos
  | _ => .incomplete

def wsClientHeaderSize (payloadLen : Nat) : Nat :=
  if 0xFFFF < payloadLen then 14 else if 126 ≤ payloadLen then 8 else 6

/-- The header of a client frame, or nothing if it does not fit in `room`. -/
def wsEncodeClientHeader (room : Nat) (opcode : WsOpcode) (payloadLen : Nat) (maskKey : List UInt8) (fin : Bool) :
    List UInt8 :=
  if room < wsClientHeaderSize payloadLen then []
  else
    ((if fin then 0x80 else 0) ||| opcode.code) ::
      (if payloadLen < 126 then [0x80 ||| UInt8.ofNat payloadLen]
       else if payloadLen ≤ 0xFFFF then (0x80 ||| 126) :: beBytes 2 payloadLen
       else (0x80 ||| 127) :: beBytes 8 payloadLen) ++ maskKey

/-- `PcgXshRr6432::next`: the key, and the next state. -/
def pcgNext (state : UInt64) : UInt32 × UInt64 :=
  let xorshifted := (((state >>> 18) ^^^ state) >>> 27).toUInt32
  let rot := (state >>> 59).toUInt32
  ((xorshifted >>> rot) ||| (xorshifted <<< ((32 - rot) &&& 31)),
    state * 6364136223846793005 + 1442695040888963407)

/-- The four bytes of a key as they lie in memory. -/
def keyBytes (key : UInt32) : List UInt8 :=
  [key.toUInt8, (key >>> 8).toUInt8, (key >>> 16).toUInt8, (key >>> 24).toUInt8]

/-- Masking, byte by byte, from key index `offset` on. -/
def maskBytes (key : List UInt8) (offset : Nat) (data : List UInt8) : List UInt8 :=
  data.mapIdx fun i b => b ^^^ key.getD ((offset + i) % 4) 0

theorem length_maskBytes (key : List UInt8) (offset : Nat) (data : List UInt8) :
    (maskBytes key offset data).length = data.length := List.length_mapIdx

theorem length_beBytes (n v : Nat) : (beBytes n v).length = n := by
  induction n generalizing v with
  | zero => rfl
  | succ n ih => rw [beBytes, List.length_append, ih]; rfl

/-- The encoder writes as many bytes as the size function says. -/
theorem length_wsEncodeClientHeader {room : Nat} {opcode : WsOpcode} {payloadLen : Nat} {maskKey : List UInt8}
    {fin : Bool} (hroom : wsClientHeaderSize payloadLen ≤ room) (hkey : maskKey.length = 4) :
    (wsEncodeClientHeader room opcode payloadLen maskKey fin).length = wsClientHeaderSize payloadLen := by
  rw [wsEncodeClientHeader, if_neg (Nat.not_lt.mpr hroom), wsClientHeaderSize]
  by_cases hsmall : payloadLen < 126
  · have hmid : ¬ 126 ≤ payloadLen := by omega
    have hlarge : ¬ 0xFFFF < payloadLen := by omega
    simp [hsmall, hmid, hlarge, hkey]
  · have hmid : 126 ≤ payloadLen := by omega
    by_cases hlarge : 0xFFFF < payloadLen
    · simp [hsmall, hlarge, hkey, length_beBytes, Nat.not_le.mpr hlarge]
    · simp [hsmall, hmid, hlarge, hkey, length_beBytes, Nat.not_lt.mp hlarge]

theorem wsClientHeaderSize_le (n : Nat) : wsClientHeaderSize n ≤ 14 := by
  unfold wsClientHeaderSize
  split
  · exact Nat.le_refl 14
  · split
    · decide
    · decide

theorem length_keyBytes (key : UInt32) : (keyBytes key).length = 4 := rfl

end Lepton.Ws

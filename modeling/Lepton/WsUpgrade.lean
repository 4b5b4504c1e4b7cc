import Lepton.HttpText

/-! The WebSocket upgrade handshake: the request, and the validation of a possibly partial
response. -/

namespace Lepton.Ws

open Search Http

/-- `put`, for a list of pieces: the text so far, unless a piece does not fit in `room`. -/
def putAll (room : Nat) : List UInt8 → List (List UInt8) → Option (List UInt8)
  | text, [] => some text
  | text, piece :: rest =>
    if room < text.length + piece.length then none else putAll room (text ++ piece) rest

/-- `build_ws_upgrade`: the request, or `none` if it does not fit in `room`. -/
def buildWsUpgrade (room : Nat) (host path secKey : List UInt8) : Option (List UInt8) :=
  putAll room []
    [ascii "GET ", path, ascii " HTTP/1.1\r\nHost: ", host,
     ascii "\r\nUpgrade: websocket\r\nConnection: Upgrade\r\nSec-WebSocket-Key: ", secKey,
     ascii "\r\nSec-WebSocket-Version: 13\r\n\r\n"]

theorem length_putAll {room : Nat} {text out : List UInt8} {pieces : List (List UInt8)} (htext : text.length ≤ room)
    (h : putAll room text pieces = some out) : out.length ≤ room := by
  induction pieces generalizing text with
  | nil =>
    cases h
    exact htext
  | cons piece rest ih =>
    rw [putAll] at h
    split at h
    · cases h
    · next hfit =>
      refine ih ?_ h
      rw [List.length_append]
      exact Nat.not_lt.mp hfit

/-- A request fits in the room it was built for. -/
theorem length_buildWsUpgrade {room : Nat} {host path secKey text : List UInt8}
    (h : buildWsUpgrade room host path secKey = some text) : text.length ≤ room := length_putAll (Nat.zero_le _) h

structure WsUpgradeResult where
  complete : Bool := false
  accepted : Bool := false
  headersLen : Nat := 0
  deriving DecidableEq, Repr

def kSecWebSocketAccept : List UInt8 := ascii "sec-websocket-accept:"

def trimBack (s : List UInt8) : List UInt8 := (trimFront s.reverse).reverse

/-- The header loop: the value of the first accept header from `pos` on, trimmed. Every turn moves
`pos` past a CRLF. -/
def findAccept : Nat → List UInt8 → Nat → Option (List UInt8)
  | 0, _, _ => none
  | fuel + 1, headers, pos =>
    if pos < headers.length then
      match find headers crlf pos with
      | none => none
      | some eol =>
        let line := slice headers pos (eol - pos)
        if istartsWith line kSecWebSocketAccept then
          some (trimBack (trimFront (line.drop kSecWebSocketAccept.length)))
        else findAccept fuel headers (eol + 2)
    else none

/-- The status test of `validate_ws_upgrade`: an HTTP/1 prefix, and `101` behind the first space. -/
def statusIs101 (s : List UInt8) : Bool :=
  istartsWith s (ascii "HTTP/1.") &&
    match find s [32] 0 with
    | none => false
    | some sp => sp + 4 ≤ s.length && slice s (sp + 1) 3 == ascii "101"

def validateWsUpgrade (s expectedAccept : List UInt8) : WsUpgradeResult :=
  match find s crlfcrlf 0 with
  | none => {}
  | some hdrEnd =>
    let headers := s.take (hdrEnd + 4)
    { complete := true
      headersLen := hdrEnd + 4
      accepted := statusIs101 s && findAccept headers.length headers 0 == some expectedAccept }

end Lepton.Ws

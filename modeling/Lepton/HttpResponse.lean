import Lepton.HttpText

/-! The incremental HTTP/1.1 response parser `parse_http_response`. The buffer is the list of its
bytes; offsets are 64-bit words. A checked access outside the buffer is the outcome `fault`, and the
two unbounded chunk loops carry a bound on their iterations whose exhaustion is the outcome
`spinning`, so that staying inside the buffer and terminating are both statements about outcomes. -/

namespace Lepton.Http

open Words Search

/-- A byte buffer as the language allows one: no object is larger than `PTRDIFF_MAX` bytes. -/
structure Buffer where
  bytes : List UInt8
  small : bytes.length < 2 ^ 63

structure HttpResponseView where
  complete : Bool := false
  status : Nat := 0
  /-- Offset and length of the body view; `none` is the default-constructed empty span. -/
  body : Option (Nat × Nat) := none
  consumed : Nat := 0
  deriving DecidableEq, Repr

inductive Outcome where
  | ret (r : HttpResponseView) (buf : List UInt8)
  | fault
  | spinning
  deriving DecidableEq, Repr

/-- What the header scan has seen: a `chunked` transfer coding, and the last Content-Length. -/
structure HeaderScan where
  chunked : Bool := false
  contentLen : Nat := wordMax
  deriving DecidableEq, Repr

def kContentLength : List UInt8 := ascii "content-length:"
def kTransferEncoding : List UInt8 := ascii "transfer-encoding:"

def scanLine (scan : HeaderScan) (line : List UInt8) : HeaderScan :=
  if istartsWith line kContentLength then
    { scan with contentLen := parseDecLoop 0 (trimFront (line.drop kContentLength.length)) }
  else if istartsWith line kTransferEncoding then
    if (find (line.drop kTransferEncoding.length) (ascii "chunked") 0).isSome then
      { scan with chunked := true }
    else scan
  else scan

/-- The header loop. Every iteration moves `pos` past a CRLF, so the length of the header block
bounds the iterations. -/
def scanHeaders : Nat → List UInt8 → Nat → HeaderScan → HeaderScan
  | 0, _, _, scan => scan
  | fuel + 1, headers, pos, scan =>
    if pos < headers.length then
      match find headers crlf pos with
      | none => scan
      | some eol => scanHeaders fuel headers (eol + 2) (scanLine scan (slice headers pos (eol - pos)))
    else scan

/-- The status digits, or 502 when one of them is not a digit. -/
def statusOf (c1 c2 c3 : UInt8) : Nat :=
  match decDigit c1, decDigit c2, decDigit c3 with
  | some d1, some d2, some d3 => d1 * 100 + d2 * 10 + d3
  | _, _, _ => 502

inductive Head where
  | incomplete
  | fault
  | ready (bodyStart status : Nat) (scan : HeaderScan)
  deriving DecidableEq, Repr

/-- The part of `parse_http_response` up to the choice of the body framing. -/
def parseHead (buf : List UInt8) : Head :=
  match find buf crlfcrlf 0 with
  | none => .incomplete
  | some hdrEnd =>
    match find buf [32] 0 with
    | none => .incomplete
    | some sp =>
      if buf.length < add sp 4 then .incomplete
      else
        match buf[sp + 1]?, buf[sp + 2]?, buf[sp + 3]? with
        | some c1, some c2, some c3 =>
          let headers := slice buf 0 (add hdrEnd 2)
          .ready (add hdrEnd 4) (statusOf c1 c2 c3) (scanHeaders headers.length headers 0 {})
        | _, _, _ => .fault

/-- A body of announced length; a missing Content-Length means no body. -/
def parseSized (buf : List UInt8) (bodyStart status contentLen : Nat) : Outcome :=
  let len := if contentLen = wordMax then 0 else contentLen
  if buf.length < add bodyStart len then .ret { status := status } buf
  else .ret { complete := true, status := status, body := some (bodyStart, len),
              consumed := add bodyStart len } buf

inductive DryStep where
  | stop (allPresent : Bool)
  | next (rp : Nat)
  deriving DecidableEq, Repr

/-- One iteration of the dry run. -/
def dryStep (buf : List UInt8) (rp : Nat) : DryStep :=
  match find buf crlf rp with
  | none => .stop false
  | some lineEnd =>
    let chunkSz := parseHex (slice buf rp (lineEnd - rp))
    let dataStart := add lineEnd 2
    -- a malformed size is left to the real run
    if chunkSz = wordMax then .stop true
    else if chunkSz = 0 then .stop (find buf crlfcrlf lineEnd).isSome
    else if buf.length < add (add dataStart chunkSz) 2 then .stop false
    else .next (add (add dataStart chunkSz) 2)

def dryRun (buf : List UInt8) : Nat → Nat → Option Bool
  | 0, _ => none
  | fuel + 1, rp =>
    match dryStep buf rp with
    | .stop allPresent => some allPresent
    | .next rp' => dryRun buf fuel rp'

/-- `std::memmove` inside the buffer; `none` when source or destination leaves it. -/
def memmove (buf : List UInt8) (dst src n : Nat) : Option (List UInt8) :=
  if src + n ≤ buf.length ∧ dst + n ≤ buf.length then
    some (buf.take dst ++ slice buf src n ++ buf.drop (dst + n))
  else none

inductive DecodeStep where
  | stop (out : Outcome)
  | next (buf : List UInt8) (rp wp : Nat)
  deriving DecidableEq, Repr

/-- One iteration of the decoding loop: `rp` reads the encoded body, `wp` writes the decoded one. -/
def decodeStep (bodyStart status : Nat) (buf : List UInt8) (rp wp : Nat) : DecodeStep :=
  match find buf crlf rp with
  | none => .stop (.ret { status := status } buf)
  | some lineEnd =>
    let chunkSz := parseHex (slice buf rp (lineEnd - rp))
    let dataStart := add lineEnd 2
    if chunkSz = wordMax then
      .stop (.ret { complete := true, status := if status = 0 then 502 else status,
                    consumed := buf.length } buf)
    else if chunkSz = 0 then
      match find buf crlfcrlf lineEnd with
      | none => .stop (.ret { status := status } buf)
      | some term =>
        .stop (.ret { complete := true, status := status, body := some (bodyStart, sub wp bodyStart),
                      consumed := add term 4 } buf)
    else if buf.length < add (add dataStart chunkSz) 2 then .stop (.ret { status := status } buf)
    else
      match memmove buf wp dataStart chunkSz with
      | none => .stop .fault
      | some buf' => .next buf' (add (add dataStart chunkSz) 2) (add wp chunkSz)

def decodeRun (bodyStart status : Nat) : Nat → List UInt8 → Nat → Nat → Outcome
  | 0, _, _, _ => .spinning
  | fuel + 1, buf, rp, wp =>
    match decodeStep bodyStart status buf rp wp with
    | .stop out => out
    | .next buf' rp' wp' => decodeRun bodyStart status fuel buf' rp' wp'

/-- A chunked body: the dry run decides, before any byte is moved, whether to decode. -/
def parseChunked (fuel : Nat) (buf : List UInt8) (bodyStart status : Nat) : Outcome :=
  match dryRun buf fuel bodyStart with
  | none => .spinning
  | some false => .ret { status := status } buf
  | some true => decodeRun bodyStart status fuel buf bodyStart bodyStart

/-- `parse_http_response`, with at most `fuel` iterations of each chunk loop. -/
def parseHttpResponse (fuel : Nat) (buf : List UInt8) : Outcome :=
  match parseHead buf with
  | .incomplete => .ret {} buf
  | .fault => .fault
  | .ready bodyStart status scan =>
    if scan.chunked then parseChunked fuel buf bodyStart status
    else parseSized buf bodyStart status scan.contentLen

/-- The bytes a returned body view shows. -/
def HttpResponseView.bodyBytes (r : HttpResponseView) (buf : List UInt8) : List UInt8 :=
  match r.body with
  | none => []
  | some (off, len) => slice buf off len

end Lepton.Http

import Lepton.HttpBounds
import Lepton.HttpWire

/-! Exact and incremental decoding of well-formed responses. A buffer that holds a prefix of a
response followed by other bytes is left alone until the whole response is there; then the parser
returns its status, its length and its body, and has touched no byte behind it. The dry run and the
decoding loop are followed chunk by chunk, so the data may hold any bytes, line breaks included. -/

namespace Lepton.Http

open Words Search

/-! ### The header block -/

theorem scanLine_other (scan : HeaderScan) (line : OtherHeader) : scanLine scan line.text = scan := by
  rw [scanLine, line.notLength, line.notEncoding]
  rfl

theorem foldl_scanLine_other (scan : HeaderScan) (lines : List OtherHeader) :
    (lines.map (·.text)).foldl scanLine scan = scan := by
  induction lines with
  | nil => rfl
  | cons line lines ih => rw [List.map_cons, List.foldl_cons, scanLine_other, ih]

/-- What the header scan sees of a framing. -/
def Framing.scan : Framing → HeaderScan
  | .sized b => ⟨false, b.body.length⟩
  | .chunked _ => ⟨true, wordMax⟩

theorem trimFront_digits {digits : List UInt8} (hne : digits ≠ [])
    (hdec : ∀ c ∈ digits, (decDigit c).isSome = true) : trimFront (32 :: digits) = digits := by
  cases digits with
  | nil => exact absurd rfl hne
  | cons c rest =>
    have hc : c ≠ 32 := by
      rintro rfl
      exact absurd (hdec 32 List.mem_cons_self) (by decide)
    rw [trimFront, if_pos rfl, trimFront, if_neg hc]

theorem scanLine_framing (f : Framing) : scanLine {} f.header = f.scan := by
  cases f with
  | sized b =>
    have hstarts : istartsWith (ascii "Content-Length: " ++ b.digits) kContentLength = true :=
      istartsWith_append (by decide) _
    have hdrop : (ascii "Content-Length: " ++ b.digits).drop kContentLength.length = 32 :: b.digits := by
      rw [List.drop_append_of_le_length (by decide)]
      have hlast : (ascii "Content-Length: ").drop kContentLength.length = [32] := by decide
      rw [hlast]
      rfl
    have hsmall : b.body.length < wordSize := by
      have := b.sizeLt
      simp only [wordSize]
      omega
    rw [Framing.header, scanLine, if_pos hstarts, hdrop, trimFront_digits b.nonempty b.decimal,
      parseDecLoop_value _ b.decimal, b.size, Nat.mod_eq_of_lt hsmall]
    rfl
  | chunked b =>
    change scanLine {} (ascii "Transfer-Encoding: chunked") = ⟨true, wordMax⟩
    decide

theorem Framing.header_plain (f : Framing) : (13 : UInt8) ∉ f.header ∧ f.header ≠ [] := by
  cases f with
  | sized b =>
    rw [Framing.header, List.mem_append, not_or]
    refine ⟨⟨by decide, not_mem_of_digit (by decide) b.decimal⟩, fun h => ?_⟩
    exact absurd (List.append_eq_nil_iff.mp h).1 (by decide)
  | chunked b =>
    rw [Framing.header]
    decide

namespace HeaderBlock

variable (H : HeaderBlock)

theorem scanLine_statusLine : scanLine {} H.statusLine = {} := by
  obtain ⟨rest, hstatus⟩ : ∃ rest, H.statusLine = 72 :: rest :=
    ⟨ascii "TTP/1." ++ [H.minor, 32, H.d1, H.d2, H.d3, 32] ++ H.reason, rfl⟩
  have hlen : istartsWith (72 :: rest) kContentLength = false := by
    rw [show kContentLength = 99 :: ascii "ontent-length:" by decide]
    rfl
  have henc : istartsWith (72 :: rest) kTransferEncoding = false := by
    rw [show kTransferEncoding = 116 :: ascii "ransfer-encoding:" by decide]
    rfl
  rw [hstatus, scanLine, hlen, henc]
  rfl

theorem version_not_mem {x : UInt8} (hx : decDigit x = none) (htext : x ∉ ascii "HTTP/1.") :
    x ∉ ascii "HTTP/1." ++ [H.minor] := by
  rw [List.mem_append, not_or, List.mem_singleton]
  refine ⟨htext, ?_⟩
  rintro rfl
  exact absurd H.minorDigit (by rw [hx]; decide)

theorem statusLine_not_mem_cr : (13 : UInt8) ∉ H.statusLine := by
  have hversion := H.version_not_mem (show decDigit 13 = none by decide) (by decide)
  have hcode := not_mem_of_digit (show decDigit 13 = none by decide) H.codeDigits
  simp only [statusLine, List.mem_append, List.mem_cons, List.not_mem_nil, or_false, not_or] at *
  exact ⟨⟨hversion.1, hversion.2, by decide, hcode.1, hcode.2.1, hcode.2.2, by decide⟩, H.reasonPlain.1⟩

theorem lines_not_mem_cr : ∀ l ∈ H.lines, (13 : UInt8) ∉ l := by
  intro l hl
  rcases List.mem_cons.mp hl with rfl | hl
  · exact H.statusLine_not_mem_cr
  · exact (H.headersPlain l hl).1

theorem head_length : H.head.length = (joinLines H.lines).length + 2 := by
  rw [head, List.length_append]
  rfl

theorem joinLines_length : 13 + H.reason.length ≤ (joinLines H.lines).length := by
  have hversion : (ascii "HTTP/1.").length = 7 := by decide
  rw [lines, joinLines_cons, List.length_append, statusLine, List.length_append, List.length_append,
    hversion]
  simp only [List.length_cons, List.length_nil]
  omega

/-- The header block ends at the first empty line, whatever follows it. -/
theorem find_head (rest : List UInt8) :
    find (H.head ++ rest) crlfcrlf 0 = some (H.head.length - 4) := by
  have h := find_blockEnd [] H.statusLine_not_mem_cr H.headersPlain rest
  have hlen : H.head.length - 4 = (joinLines H.lines).length - 2 := by
    rw [H.head_length]
    omega
  rw [hlen, head, List.append_assoc]
  simpa only [List.nil_append, List.length_nil, Nat.zero_add, lines] using h

theorem statusOf_code : statusOf H.d1 H.d2 H.d3 = H.status := by
  obtain ⟨a, ha⟩ := Option.isSome_iff_exists.mp (H.codeDigits H.d1 (by simp))
  obtain ⟨b, hb⟩ := Option.isSome_iff_exists.mp (H.codeDigits H.d2 (by simp))
  obtain ⟨c, hc⟩ := Option.isSome_iff_exists.mp (H.codeDigits H.d3 (by simp))
  simp only [statusOf, status, digitsValue, ha, hb, hc, List.foldl_cons, List.foldl_nil, Option.getD_some]
  omega

/-- The header part of the parser reads a well-formed head exactly. -/
theorem parseHead_head (rest : List UInt8) (hlen : (H.head ++ rest).length < 2 ^ 63) :
    parseHead (H.head ++ rest) = .ready H.head.length H.status (H.headers.foldl scanLine {}) := by
  have hhead := H.head_length
  have hlines := H.joinLines_length
  have htotal : (H.head ++ rest).length = H.head.length + rest.length := List.length_append
  obtain ⟨tail, htail⟩ : ∃ tail, H.head ++ rest =
      [] ++ ((ascii "HTTP/1." ++ [H.minor]) ++ ([32] ++ ([H.d1, H.d2, H.d3] ++ tail))) := by
    refine ⟨32 :: (H.reason ++ (crlf ++ (joinLines H.headers ++ (crlf ++ rest)))), ?_⟩
    simp only [head, lines, joinLines_cons, statusLine, List.append_assoc, List.cons_append,
      List.nil_append]
  have hsp : find (H.head ++ rest) [32] 0 = some 8 := by
    rw [htail]
    have := find_append_of_not_mem [] ([H.d1, H.d2, H.d3] ++ tail) []
      (H.version_not_mem (show decDigit 32 = none by decide) (by decide))
    rwa [show ([] : List UInt8).length + (ascii "HTTP/1." ++ [H.minor]).length = 8 from rfl] at this
  have hget : ∀ i, (H.head ++ rest)[9 + i]? = ([H.d1, H.d2, H.d3] ++ tail)[i]? := by
    intro i
    rw [htail, List.nil_append, List.getElem?_append_right (by rw [List.length_append]; change 8 ≤ _; omega),
      List.getElem?_append_right (by rw [List.length_append]; change 1 ≤ 9 + i - 8; omega)]
    congr 1
    change 9 + i - 8 - 1 = i
    omega
  have hstart : add (H.head.length - 4) 4 = H.head.length := by
    rw [add_of_lt (by simp only [wordSize]; omega)]
    omega
  have hblock : slice (H.head ++ rest) 0 (add (H.head.length - 4) 2) = joinLines H.lines := by
    rw [add_of_lt (by simp only [wordSize]; omega), slice, List.drop_zero,
      show H.head.length - 4 + 2 = (joinLines H.lines).length by omega, head, List.append_assoc,
      List.take_left]
  have hscan : scanHeaders (joinLines H.lines).length (joinLines H.lines) 0 {} = H.headers.foldl scanLine {} := by
    rw [scanHeaders_eq (Nat.sub_le _ _), List.drop_zero, lines_joinLines H.lines_not_mem_cr, lines, List.foldl_cons,
      H.scanLine_statusLine]
  simp only [parseHead, H.find_head rest, hsp]
  rw [if_neg (by change ¬ (H.head ++ rest).length < 12; omega), hget 0, hget 1, hget 2]
  simp only [List.cons_append, List.getElem?_cons_zero, List.getElem?_cons_succ, hblock, hscan, hstart,
    H.statusOf_code]

/-- On a buffer that ends inside the head, the parser waits. -/
theorem parseHead_short (tail : List UInt8) {n : Nat} (hn : n < H.head.length) :
    parseHead ((H.head ++ tail).take n) = .incomplete := by
  have hhead := H.head_length
  have hlines := H.joinLines_length
  have hfour : crlfcrlf.length = 4 := rfl
  have hnone := find_take_of_lt (H.find_head tail) (n := n) (by omega) (by decide)
  rw [parseHead, hnone]

end HeaderBlock

namespace Response

variable (R : Response)

/-- The header block of a response. -/
def block : HeaderBlock where
  minor := R.minor
  minorDigit := R.minorDigit
  d1 := R.d1
  d2 := R.d2
  d3 := R.d3
  codeDigits := R.codeDigits
  reason := R.reason
  reasonPlain := R.reasonPlain
  headers := R.before.map (·.text) ++ R.framing.header :: R.after.map (·.text)
  headersPlain := by
    intro l hl
    rw [List.mem_append, List.mem_cons, List.mem_map, List.mem_map] at hl
    rcases hl with ⟨h, -, rfl⟩ | rfl | ⟨h, -, rfl⟩
    · exact ⟨h.plain.1, h.nonempty⟩
    · exact R.framing.header_plain
    · exact ⟨h.plain.1, h.nonempty⟩

theorem parseHead_head (rest : List UInt8) (hlen : (R.head ++ rest).length < 2 ^ 63) :
    parseHead (R.head ++ rest) = .ready R.head.length R.status R.framing.scan := by
  have hscan : R.block.headers.foldl scanLine {} = R.framing.scan := by
    rw [block, List.foldl_append, foldl_scanLine_other, List.foldl_cons, scanLine_framing, foldl_scanLine_other]
  rw [← hscan]
  exact R.block.parseHead_head rest hlen

end Response

/-! ### The chunk loops -/

/-- The end of a chunked body: the zero chunk, the trailers and the empty line. -/
def ChunkedBody.ending (b : ChunkedBody) : List UInt8 :=
  joinLines (b.last.text :: b.trailers.map Line.text) ++ crlf

/-- Chunks followed by the end of the body. -/
def ChunkedBody.rest (b : ChunkedBody) (chunks : List Chunk) : List UInt8 :=
  (chunks.map Chunk.encode).flatten ++ b.ending

namespace ChunkedBody

variable (b : ChunkedBody)

theorem rest_cons (c : Chunk) (chunks : List Chunk) :
    b.rest (c :: chunks) = c.text ++ (crlf ++ (c.data ++ (crlf ++ b.rest chunks))) := by
  simp only [rest, List.map_cons, List.flatten_cons, Chunk.encode, List.append_assoc]

theorem trailers_wf : ∀ l ∈ b.trailers.map Line.text, (13 : UInt8) ∉ l ∧ l ≠ [] := by
  intro l hl
  obtain ⟨t, -, rfl⟩ := List.mem_map.mp hl
  exact ⟨t.plain.1, t.nonempty⟩

theorem ending_length : b.last.text.length + 4 ≤ b.ending.length ∧
    b.ending.length = (joinLines (b.last.text :: b.trailers.map Line.text)).length + 2 := by
  have hcrlf : crlf.length = 2 := rfl
  rw [ending, List.length_append, joinLines_cons, List.length_append, List.length_append]
  omega

/-- The line break that ends the zero-size line. -/
theorem find_last (pre suffix : List UInt8) :
    find (pre ++ (b.ending ++ suffix)) crlf pre.length = some (pre.length + b.last.text.length) := by
  rw [ending, joinLines_cons]
  simp only [List.append_assoc]
  exact find_line pre b.last.not_mem_cr _

/-- The empty line that ends the trailers, searched for from the end of the zero-size line. -/
theorem find_term (pre suffix : List UInt8) :
    find (pre ++ (b.ending ++ suffix)) crlfcrlf (pre.length + b.last.text.length) =
      some (pre.length + b.ending.length - 4) := by
  have h := find_blockEnd pre b.last.not_mem_cr b.trailers_wf suffix
  have hlen := b.ending_length
  have hsplit : b.ending ++ suffix =
      joinLines (b.last.text :: b.trailers.map Line.text) ++ (crlf ++ suffix) := List.append_assoc _ _ _
  rw [hsplit]
  rw [show pre.length + (joinLines (b.last.text :: b.trailers.map Line.text)).length - 2 =
    pre.length + b.ending.length - 4 by omega] at h
  exact find_from_later h (by omega) (by omega)

theorem parseHex_last : parseHex b.last.text = 0 := by
  rw [parseHex_text, b.lastZero]
  rfl

end ChunkedBody

/-- The chunks, of which the first begins at offset `p`, are measured right in every buffer of fewer than `2 ^ 63` bytes
that holds their size lines: a chunk that ends beyond all such buffers still does so when its end is reduced to 64 bits,
and its size is not read as the mark of a malformed one. -/
def ChunksFit : Nat → List Chunk → Prop
  | _, [] => True
  | p, c :: chunks =>
    let dataStart := p + c.text.length + 2
    let chunkEnd := dataStart + c.data.length + 2
    (dataStart < 2 ^ 63 → 2 ^ 63 ≤ chunkEnd → c.data.length % wordSize ≠ wordMax ∧ 2 ^ 63 ≤ chunkEnd % wordSize) ∧
      ChunksFit chunkEnd chunks

theorem ChunkedBody.length_rest_cons (b : ChunkedBody) (c : Chunk) (chunks : List Chunk) :
    (b.rest (c :: chunks)).length = c.text.length + 2 + c.data.length + 2 + (b.rest chunks).length := by
  have hcrlf : crlf.length = 2 := rfl
  rw [b.rest_cons]
  simp only [List.length_append]
  omega

theorem chunksFit_of_lt (b : ChunkedBody) {p : Nat} {chunks : List Chunk} (h : p + (b.rest chunks).length < 2 ^ 63) :
    ChunksFit p chunks := by
  induction chunks generalizing p with
  | nil => trivial
  | cons c chunks ih =>
    rw [b.length_rest_cons] at h
    exact ⟨fun _ hlong => absurd hlong (by omega), ih (by omega)⟩

/-- A chunk inside a response shorter than the word is read with its exact size. -/
theorem Chunk.parseHex_text (c : Chunk) (hsmall : c.data.length < wordMax) :
    parseHex c.text = c.data.length ∧ parseHex c.text ≠ wordMax ∧ parseHex c.text ≠ 0 := by
  have hvalue : parseHex c.text = c.data.length := by
    rw [Http.parseHex_text, c.size, Nat.mod_eq_of_lt]
    simp only [wordSize, wordMax] at *
    omega
  have hpos : 0 < c.data.length := List.length_pos_of_ne_nil c.dataNonempty
  rw [hvalue]
  exact ⟨rfl, by omega, by omega⟩

/-- Where the parser believes that a chunk ends. -/
theorem Chunk.cursor_eq (c : Chunk) {lineEnd : Nat} (hline : lineEnd + 2 < wordSize) :
    add (add (add lineEnd 2) (parseHex c.text)) 2 = (lineEnd + 2 + c.data.length + 2) % wordSize := by
  have hvalue : parseHex c.text = c.data.length % wordSize := by rw [Http.parseHex_text, c.size]
  rw [hvalue, add_of_lt hline, add, add, Nat.add_mod_mod, Nat.mod_add_mod]

/-- One step of the dry run at a chunk whose size line is in the buffer. -/
theorem dryStep_chunk (c : Chunk) (pre more : List UInt8)
    (hlen : (pre ++ (c.text ++ (crlf ++ more))).length < 2 ^ 63) :
    dryStep (pre ++ (c.text ++ (crlf ++ more))) pre.length =
      if c.data.length % wordSize = wordMax then .stop true
      else if c.data.length % wordSize = 0 then
        .stop (find (pre ++ (c.text ++ (crlf ++ more))) crlfcrlf (pre.length + c.text.length)).isSome
      else if (pre ++ (c.text ++ (crlf ++ more))).length < (pre.length + c.text.length + 2 + c.data.length + 2) % wordSize then
        .stop false
      else .next ((pre.length + c.text.length + 2 + c.data.length + 2) % wordSize) := by
  have hcrlf : crlf.length = 2 := rfl
  have hword : wordSize = 2 ^ 64 := rfl
  have hvalue : parseHex c.text = c.data.length % wordSize := by rw [Http.parseHex_text, c.size]
  have hsize : slice (pre ++ (c.text ++ (crlf ++ more))) pre.length c.text.length = c.text := slice_append _ _ _
  have hline : pre.length + c.text.length + 2 < wordSize := by
    simp only [List.length_append] at hlen
    omega
  have hcursor := c.cursor_eq hline
  simp only [dryStep, find_line pre c.not_mem_cr more, Nat.add_sub_cancel_left, hsize, hcursor]
  rw [hvalue]

/-- The step is the right one: it waits until the chunk is complete, and then goes on at its end. -/
theorem dryStep_right {c : Chunk} {pre more : List UInt8}
    (hfit : pre.length + c.text.length + 2 < 2 ^ 63 → 2 ^ 63 ≤ pre.length + c.text.length + 2 + c.data.length + 2 →
      c.data.length % wordSize ≠ wordMax ∧ 2 ^ 63 ≤ (pre.length + c.text.length + 2 + c.data.length + 2) % wordSize)
    (hlen : (pre ++ (c.text ++ (crlf ++ more))).length < 2 ^ 63) :
    dryStep (pre ++ (c.text ++ (crlf ++ more))) pre.length =
      if (pre ++ (c.text ++ (crlf ++ more))).length < pre.length + c.text.length + 2 + c.data.length + 2 then .stop false
      else .next (pre.length + c.text.length + 2 + c.data.length + 2) := by
  have hcrlf : crlf.length = 2 := rfl
  have hfour : crlfcrlf.length = 4 := rfl
  have hword : wordSize = 2 ^ 64 := rfl
  have hmax : wordMax = 2 ^ 64 - 1 := rfl
  have hpos : 0 < c.data.length := List.length_pos_of_ne_nil c.dataNonempty
  have hdata : pre.length + c.text.length + 2 ≤ (pre ++ (c.text ++ (crlf ++ more))).length := by
    simp only [List.length_append]
    omega
  rw [dryStep_chunk c pre more hlen]
  generalize pre ++ (c.text ++ (crlf ++ more)) = buf at hlen hdata ⊢
  by_cases hshort : pre.length + c.text.length + 2 + c.data.length + 2 < 2 ^ 63
  · -- nothing is reduced
    rw [Nat.mod_eq_of_lt (show c.data.length < wordSize by omega), Nat.mod_eq_of_lt (show _ < wordSize by omega),
      if_neg (by omega), if_neg (by omega)]
  · obtain ⟨hmark, hfar⟩ := hfit (by omega) (by omega)
    rw [if_neg hmark, if_pos (show buf.length < pre.length + c.text.length + 2 + c.data.length + 2 by omega)]
    split
    · next hzero =>
      -- a size that is reduced to nothing ends four bytes behind its digits, where no buffer reaches
      have hnone : find buf crlfcrlf (pre.length + c.text.length) = none := by
        by_contra hsome
        obtain ⟨i, hi⟩ := Option.ne_none_iff_exists'.mp hsome
        have hbounds := find_bounds hi
        simp only [wordSize] at hfar hzero
        omega
      rw [hnone]
      rfl
    · rw [if_pos (by omega)]

/-- At each of the chunks behind `pre`, and with any bytes behind its size line, a step of the dry run waits until the
chunk is complete, and then goes on at its end. -/
def MeasuresRight : List UInt8 → List Chunk → Prop
  | _, [] => True
  | pre, c :: chunks =>
    (∀ more, let buf := pre ++ (c.text ++ (crlf ++ more))
      buf.length < 2 ^ 63 → dryStep buf pre.length =
        if buf.length < (pre ++ c.encode).length then .stop false else .next (pre ++ c.encode).length) ∧
    MeasuresRight (pre ++ c.encode) chunks

theorem Chunk.length_encode (c : Chunk) (pre : List UInt8) :
    (pre ++ c.encode).length = pre.length + c.text.length + 2 + c.data.length + 2 := by
  have hcrlf : crlf.length = 2 := rfl
  simp only [Chunk.encode, List.length_append]
  omega

/-- A chunk that does not fit is measured wrong in some buffer. -/
theorem fits_of_dryStep {c : Chunk} {pre : List UInt8}
    (h : ∀ more, (pre ++ (c.text ++ (crlf ++ more))).length < 2 ^ 63 →
      dryStep (pre ++ (c.text ++ (crlf ++ more))) pre.length =
        if (pre ++ (c.text ++ (crlf ++ more))).length < pre.length + c.text.length + 2 + c.data.length + 2 then .stop false
        else .next (pre.length + c.text.length + 2 + c.data.length + 2))
    (hline : pre.length + c.text.length + 2 < 2 ^ 63)
    (hlong : 2 ^ 63 ≤ pre.length + c.text.length + 2 + c.data.length + 2) :
    c.data.length % wordSize ≠ wordMax ∧ 2 ^ 63 ≤ (pre.length + c.text.length + 2 + c.data.length + 2) % wordSize := by
  have hlength (more : List UInt8) :
      (pre ++ (c.text ++ (crlf ++ more))).length = pre.length + c.text.length + 2 + more.length := by
    have hcrlf : crlf.length = 2 := rfl
    simp only [List.length_append]
    omega
  -- the right step is to wait
  have hwaits (more : List UInt8) (hmore : pre.length + c.text.length + 2 + more.length < 2 ^ 63) :
      dryStep (pre ++ (c.text ++ (crlf ++ more))) pre.length = .stop false := by
    rw [h more (by rw [hlength]; exact hmore), if_pos (by rw [hlength]; omega)]
  have hmark : c.data.length % wordSize ≠ wordMax := by
    intro hmax
    have hstep := hwaits [] hline
    rw [dryStep_chunk c pre [] (by rw [hlength]; exact hline), if_pos hmax] at hstep
    cases hstep
  refine ⟨hmark, ?_⟩
  by_contra hnear
  by_cases hzero : c.data.length % wordSize = 0
  · -- an empty line behind the size line ends the body
    have hroom : pre.length + c.text.length + 2 + crlf.length < 2 ^ 63 := by
      change pre.length + c.text.length + 2 + 2 < 2 ^ 63
      simp only [wordSize] at hnear hzero
      omega
    have hstep := hwaits crlf hroom
    have hfound : find (pre ++ (c.text ++ (crlf ++ crlf))) crlfcrlf (pre.length + c.text.length) =
        some (pre.length + c.text.length) := by
      have h := find_append_of_not_mem (pre ++ c.text) [] [10, 13, 10] (List.not_mem_nil (a := (13 : UInt8)))
      rw [List.length_append, List.append_assoc] at h
      exact h
    rw [dryStep_chunk c pre crlf (by rw [hlength]; exact hroom), if_neg hmark, if_pos hzero, hfound] at hstep
    cases hstep
  · have hfull : pre.length + c.text.length + 2
        + (List.replicate (2 ^ 63 - 1 - (pre.length + c.text.length + 2)) (0 : UInt8)).length = 2 ^ 63 - 1 := by
      rw [List.length_replicate]
      omega
    have hstep := hwaits _ (by rw [hfull]; decide)
    rw [dryStep_chunk c pre _ (by rw [hlength, hfull]; decide), if_neg hmark, if_neg hzero, hlength, hfull,
      if_neg (by omega)] at hstep
    cases hstep

/-- The condition is exact. -/
theorem chunksFit_iff (pre : List UInt8) (chunks : List Chunk) :
    ChunksFit pre.length chunks ↔ MeasuresRight pre chunks := by
  induction chunks generalizing pre with
  | nil => exact Iff.rfl
  | cons c chunks ih =>
    rw [ChunksFit, MeasuresRight, ← ih (pre ++ c.encode), c.length_encode pre]
    refine and_congr_left fun _ => ⟨fun hfit more hlen => dryStep_right hfit hlen, fun h => fits_of_dryStep h⟩

/-- The dry run on a truncated response: it reports a complete body exactly when the truncation
keeps the whole body. -/
theorem dryRun_rest (b : ChunkedBody) (chunks : List Chunk) (pre suffix : List UInt8) {n : Nat}
    (hpre : pre.length ≤ n) (hn : n < 2 ^ 63) (htotal : n ≤ (pre ++ (b.rest chunks ++ suffix)).length)
    (hfit : ChunksFit pre.length chunks) :
    ∃ fuel, dryRun ((pre ++ (b.rest chunks ++ suffix)).take n) fuel pre.length =
      some (decide (pre.length + (b.rest chunks).length ≤ n)) := by
  have hcrlf : crlf.length = 2 := rfl
  have hfour : crlfcrlf.length = 4 := rfl
  induction chunks generalizing pre with
  | nil =>
    have hlen := b.ending_length
    have hrest : b.rest [] = b.ending := rfl
    rw [hrest] at htotal ⊢
    refine ⟨1, ?_⟩
    have hline := b.find_last pre suffix
    by_cases hcut : n < pre.length + b.last.text.length + 2
    · have hnone := find_take_of_lt hline (n := n) (by omega) (by decide)
      have hshort : ¬ pre.length + b.ending.length ≤ n := by omega
      rw [dryRun, dryStep, hnone, decide_eq_false hshort]
    · have hsome := find_take_of_le hline (n := n) (by omega)
      have hsize : slice ((pre ++ (b.ending ++ suffix)).take n) pre.length b.last.text.length =
          b.last.text := by
        rw [slice_take (by omega), ChunkedBody.ending, joinLines_cons]
        simp only [List.append_assoc]
        exact slice_append _ _ _
      simp only [dryRun, dryStep, hsome, Nat.add_sub_cancel_left, hsize, b.parseHex_last]
      rw [if_neg (by decide), if_pos trivial]
      have hterm := b.find_term pre suffix
      by_cases hall : pre.length + b.ending.length ≤ n
      · have hfound := find_take_of_le hterm (n := n) (by omega)
        simp only [hfound, decide_eq_true hall, Option.isSome_some]
      · have hnone := find_take_of_lt hterm (n := n) (by omega) (by decide)
        simp only [hnone, decide_eq_false hall, Option.isSome_none]
  | cons c chunks ih =>
    obtain ⟨hchunk, hchunks⟩ := hfit
    have hlong := b.length_rest_cons c chunks
    have hsplit : pre ++ (b.rest (c :: chunks) ++ suffix) =
        pre ++ (c.text ++ (crlf ++ (c.data ++ (crlf ++ (b.rest chunks ++ suffix))))) := by
      rw [b.rest_cons]
      simp only [List.append_assoc]
    rw [hsplit] at htotal ⊢
    by_cases hcut : n < pre.length + c.text.length + 2
    · refine ⟨1, ?_⟩
      have hline := find_line pre c.not_mem_cr (c.data ++ (crlf ++ (b.rest chunks ++ suffix)))
      have hnone := find_take_of_lt hline (n := n) (by omega) (by decide)
      rw [dryRun, dryStep, hnone, decide_eq_false (by omega)]
    · have hlength : ((pre ++ (c.text ++ (crlf ++ (c.data ++ (crlf ++ (b.rest chunks ++ suffix)))))).take n).length = n :=
        List.length_take_of_le htotal
      -- the buffer holds the size line
      obtain ⟨more, hmore⟩ : ∃ more, (pre ++ (c.text ++ (crlf ++ (c.data ++ (crlf ++ (b.rest chunks ++ suffix)))))).take n =
          pre ++ (c.text ++ (crlf ++ more)) := by
        have hfront : pre ++ (c.text ++ crlf) <+:
            (pre ++ (c.text ++ (crlf ++ (c.data ++ (crlf ++ (b.rest chunks ++ suffix)))))).take n := by
          refine List.prefix_take_iff.mpr ⟨?_, ?_⟩
          · simp only [List.prefix_append_right_inj]
            exact List.prefix_append _ _
          · simp only [List.length_append]
            omega
        obtain ⟨more, hmore⟩ := hfront
        refine ⟨more, hmore.symm.trans ?_⟩
        simp only [List.append_assoc]
      have hsmall : (pre ++ (c.text ++ (crlf ++ more))).length < 2 ^ 63 := by
        rw [← hmore, hlength]
        exact hn
      have hstep := dryStep_right hchunk hsmall
      rw [← hmore, hlength] at hstep
      by_cases hdata : n < pre.length + c.text.length + 2 + c.data.length + 2
      · refine ⟨1, ?_⟩
        rw [dryRun, hstep, if_pos hdata, decide_eq_false (by omega)]
      · have hpre' : (pre ++ (c.text ++ (crlf ++ (c.data ++ crlf)))).length =
            pre.length + c.text.length + 2 + c.data.length + 2 := by
          simp only [List.length_append]
          omega
        have hrest : (pre ++ (c.text ++ (crlf ++ (c.data ++ crlf)))) ++ (b.rest chunks ++ suffix) =
            pre ++ (c.text ++ (crlf ++ (c.data ++ (crlf ++ (b.rest chunks ++ suffix))))) := by
          simp only [List.append_assoc]
        obtain ⟨fuel, hrun⟩ := ih (pre ++ (c.text ++ (crlf ++ (c.data ++ crlf)))) (by omega) (by rw [hrest]; exact htotal)
          (by rw [hpre']; exact hchunks)
        refine ⟨fuel + 1, ?_⟩
        rw [hrest, hpre'] at hrun
        rw [dryRun, hstep, if_neg hdata]
        simp only [hrun]
        congr 2
        rw [eq_iff_iff]
        omega

/-- A move appends the moved bytes to what was decoded so far. -/
theorem memmove_slice {buf buf' : List UInt8} {start dst src n : Nat}
    (h : memmove buf dst src n = some buf') (hstart : start ≤ dst) :
    slice buf' start (dst - start + n) = slice buf start (dst - start) ++ slice buf src n := by
  obtain ⟨hs, hd, rfl⟩ := memmove_eq_some h
  have hlen : (slice buf src n).length = n := slice_length hs
  have htake : (buf.take dst).drop start = slice buf start (dst - start) := by
    rw [slice, List.drop_take]
  have hfront : (slice buf start (dst - start)).length = dst - start := slice_length (by omega)
  rw [slice, List.append_assoc, List.drop_append_of_le_length (by rw [List.length_take]; omega), htake,
    List.take_append, hfront, List.take_of_length_le (by omega), Nat.add_sub_cancel_left,
    List.take_append_of_le_length (by omega), List.take_of_length_le (by omega)]

/-- The decoding loop on a complete body: it returns the concatenated data and the end of the body,
and leaves what follows the body alone. -/
theorem decodeRun_rest (body : ChunkedBody) (chunks : List Chunk) (pre suffix : List UInt8)
    (status : Nat) {bodyStart wp : Nat} {b : List UInt8}
    (hsmall : (pre ++ (body.rest chunks ++ suffix)).length < 2 ^ 63)
    (h : Agrees (pre ++ (body.rest chunks ++ suffix)) b bodyStart pre.length wp) :
    ∃ fuel b', decodeRun bodyStart status fuel b pre.length wp =
        .ret { complete := true, status := status,
               body := some (bodyStart, wp - bodyStart + (chunks.map Chunk.data).flatten.length),
               consumed := pre.length + (body.rest chunks).length } b' ∧
      slice b' bodyStart (wp - bodyStart + (chunks.map Chunk.data).flatten.length) =
        slice b bodyStart (wp - bodyStart) ++ (chunks.map Chunk.data).flatten ∧
      b'.length = (pre ++ (body.rest chunks ++ suffix)).length ∧ b'.drop (pre ++ body.rest chunks).length = suffix := by
  have hcrlf : crlf.length = 2 := rfl
  induction chunks generalizing pre wp b with
  | nil =>
    have hrest : body.rest [] = body.ending := rfl
    have hlen := body.ending_length
    rw [hrest] at h hsmall ⊢
    have hstarted := h.started
    have hbehind := h.behind
    have htotal : (pre ++ (body.ending ++ suffix)).length = pre.length + body.ending.length + suffix.length := by
      simp only [List.length_append]
      omega
    have hline : find b crlf pre.length = some (pre.length + body.last.text.length) :=
      (h.find_eq le_rfl).trans (body.find_last pre suffix)
    have hterm : find b crlfcrlf (pre.length + body.last.text.length) =
        some (pre.length + body.ending.length - 4) :=
      (h.find_eq (by omega)).trans (body.find_term pre suffix)
    have hsize : slice b pre.length body.last.text.length = body.last.text := by
      rw [h.slice_eq, ChunkedBody.ending, joinLines_cons]
      simp only [List.append_assoc]
      exact slice_append _ _ _
    refine ⟨1, b, ?_, by simp, h.length, ?_⟩
    · have hsub : sub wp bodyStart = wp - bodyStart :=
        sub_of_le (by simp only [wordSize]; omega) hstarted
      have hend : add (pre.length + body.ending.length - 4) 4 = pre.length + body.ending.length := by
        rw [add_of_lt (by simp only [wordSize]; omega)]
        omega
      simp only [decodeRun, decodeStep, hline, Nat.add_sub_cancel_left, hsize, body.parseHex_last, hterm,
        hsub, hend]
      rw [if_neg (by decide), if_pos trivial]
      rfl
    · rw [List.length_append, ← List.drop_drop, h.rest, List.drop_left, List.drop_left]
  | cons c chunks ih =>
    rw [body.rest_cons] at h hsmall ⊢
    have hassoc : pre ++ (c.text ++ (crlf ++ (c.data ++ (crlf ++ body.rest chunks))) ++ suffix) =
        (pre ++ (c.text ++ (crlf ++ (c.data ++ crlf)))) ++ (body.rest chunks ++ suffix) := by
      simp only [List.append_assoc]
    have htotal : (pre ++ (c.text ++ (crlf ++ (c.data ++ (crlf ++ body.rest chunks))) ++ suffix)).length =
        pre.length + c.text.length + 2 + c.data.length + 2 + (body.rest chunks).length + suffix.length := by
      simp only [List.length_append]
      omega
    have hpre : (pre ++ (c.text ++ (crlf ++ (c.data ++ crlf)))).length =
        pre.length + c.text.length + 2 + c.data.length + 2 := by
      simp only [List.length_append]
      omega
    obtain ⟨hvalue, hmax, hzero⟩ := c.parseHex_text (by simp only [wordMax]; omega)
    have hl : SizeLine (pre ++ (c.text ++ (crlf ++ (c.data ++ (crlf ++ body.rest chunks))) ++ suffix))
        pre.length (pre.length + c.text.length) c.data.length := by
      have hsize : slice (pre ++ (c.text ++ (crlf ++ (c.data ++ (crlf ++ body.rest chunks))) ++ suffix))
          pre.length (pre.length + c.text.length - pre.length) = c.text := by
        rw [Nat.add_sub_cancel_left, List.append_assoc]
        exact slice_append _ _ _
      refine ⟨?_, by rw [hsize, hvalue], by rw [← hvalue]; exact hmax, by rw [← hvalue]; exact hzero⟩
      simp only [List.append_assoc]
      exact find_line pre c.not_mem_cr _
    obtain ⟨b', hmove, hstep, hagree⟩ := decodeStep_sizeLine status hsmall h hl (by omega)
    rw [hassoc] at hagree hsmall
    rw [← hpre] at hagree
    obtain ⟨fuel, b'', hrun, hbody, hlength, hdrop⟩ :=
      ih (pre ++ (c.text ++ (crlf ++ (c.data ++ crlf)))) hsmall hagree
    have hdata : slice b (pre.length + c.text.length + 2) c.data.length = c.data := by
      have hskip : b.drop (pre.length + c.text.length + 2) = c.data ++ (crlf ++ (body.rest chunks ++ suffix)) := by
        rw [Nat.add_assoc, ← List.drop_drop, h.rest, List.drop_left, ← List.drop_drop]
        simp only [List.append_assoc]
        rw [List.drop_left, ← hcrlf, List.drop_left]
      rw [slice, hskip, List.take_left]
    have hstarted := h.started
    have hlen : wp + c.data.length - bodyStart = wp - bodyStart + c.data.length := by omega
    have hmoved := memmove_slice hmove hstarted
    rw [hdata, ← hlen] at hmoved
    rw [List.map_cons, List.flatten_cons, List.length_append, ← Nat.add_assoc, ← hlen]
    refine ⟨fuel + 1, b'', ?_, ?_, ?_, ?_⟩
    · rw [hpre] at hrun
      rw [decodeRun, hstep]
      simp only [hrun, List.length_append]
      congr 2
      omega
    · rw [hbody, hmoved, List.append_assoc]
    · rw [hlength, hassoc]
    · simpa only [List.append_assoc] using hdrop

/-! ### Whole responses -/

/-- Whenever the parser gets enough iterations, it ends with this outcome. -/
def ParsesTo (buf : List UInt8) (out : Outcome) : Prop :=
  ∃ n, ∀ fuel, n ≤ fuel → parseHttpResponse fuel buf = out

/-- The parser waits, with the buffer untouched. -/
def Waits (buf : List UInt8) : Prop := ∃ r, ParsesTo buf (.ret r buf) ∧ r.complete = false

/-- The parser returns the response at the front of the buffer, and leaves the rest of it alone. -/
def Delivers (R : Response) (buf : List UInt8) : Prop :=
  ∃ r buf', ParsesTo buf (.ret r buf') ∧ r.complete = true ∧ r.status = R.status ∧
    r.consumed = R.encode.length ∧ r.bodyBytes buf' = R.framing.decoded ∧
    buf'.length = buf.length ∧ buf'.drop R.encode.length = buf.drop R.encode.length

/-- Incremental decoding of a response: on every buffer that holds a prefix of it and of the bytes
behind it, the parser waits until the response is complete and then delivers it. -/
def DecodesExactly (R : Response) : Prop :=
  ∀ suffix buf : List UInt8, buf <+: R.encode ++ suffix → buf.length < 2 ^ 63 →
    (buf.length < R.encode.length → Waits buf) ∧ (R.encode.length ≤ buf.length → Delivers R buf)

/-- The chunks of the response are measured right in every buffer. -/
def Response.SizesFit (R : Response) : Prop :=
  match R.framing with
  | .sized _ => True
  | .chunked b => ChunksFit R.head.length b.chunks

theorem Response.sizesFit_of_lt {R : Response} (h : R.encode.length < 2 ^ 63) : R.SizesFit := by
  unfold SizesFit
  split
  · trivial
  · next b hR =>
    rw [encode, List.length_append, hR] at h
    exact chunksFit_of_lt b h

theorem parsesTo_of_head {R : Response} {rest : List UInt8} {out : Outcome}
    (hlen : (R.head ++ rest).length < 2 ^ 63)
    (h : ∃ n, ∀ fuel, n ≤ fuel →
      (if R.framing.scan.chunked then parseChunked fuel (R.head ++ rest) R.head.length R.status
        else parseSized (R.head ++ rest) R.head.length R.status R.framing.scan.contentLen) = out) :
    ParsesTo (R.head ++ rest) out := by
  obtain ⟨n, hn⟩ := h
  refine ⟨n, fun fuel hfuel => ?_⟩
  rw [parseHttpResponse, R.parseHead_head rest hlen]
  exact hn fuel hfuel

/-- A sized body behind a complete head. -/
theorem decodes_sized {R : Response} {b : SizedBody} (hR : R.framing = .sized b) {rest suffix : List UInt8}
    (hrest : rest <+: b.body ++ suffix) (hlen : (R.head ++ rest).length < 2 ^ 63) :
    ((R.head ++ rest).length < R.encode.length → Waits (R.head ++ rest)) ∧
      (R.encode.length ≤ (R.head ++ rest).length → Delivers R (R.head ++ rest)) := by
  have hencode : R.encode.length = R.head.length + b.body.length := by
    rw [Response.encode, List.length_append, hR]
    rfl
  have htotal : (R.head ++ rest).length = R.head.length + rest.length := List.length_append
  have hbody := b.sizeLt
  have hne : b.body.length ≠ wordMax := by
    simp only [wordMax]
    omega
  have hadd : add R.head.length b.body.length = R.head.length + b.body.length :=
    add_of_lt (by simp only [wordSize]; omega)
  have hscan : R.framing.scan = ⟨false, b.body.length⟩ := by
    rw [hR]
    rfl
  constructor
  · intro hshort
    refine ⟨{ status := R.status }, parsesTo_of_head hlen ⟨0, fun fuel _ => ?_⟩, rfl⟩
    rw [hscan, if_neg Bool.false_ne_true, parseSized, if_neg hne, hadd, if_pos (by omega)]
  · intro hfull
    refine ⟨{ complete := true, status := R.status, body := some (R.head.length, b.body.length),
              consumed := R.head.length + b.body.length }, R.head ++ rest,
      parsesTo_of_head hlen ⟨0, fun fuel _ => ?_⟩, rfl, rfl, hencode.symm, ?_, rfl, rfl⟩
    · rw [hscan, if_neg Bool.false_ne_true, parseSized, if_neg hne, hadd, if_neg (by omega)]
    · have hprefix : b.body <+: rest :=
        List.prefix_of_prefix_length_le (List.prefix_append _ _) hrest (by omega)
      obtain ⟨more, rfl⟩ := hprefix
      rw [hR]
      exact slice_append _ _ _

/-- A chunked body behind a complete head. -/
theorem decodes_chunked {R : Response} {b : ChunkedBody} (hR : R.framing = .chunked b)
    (hfit : ChunksFit R.head.length b.chunks) {rest suffix : List UInt8} (hrest : rest <+: b.encode ++ suffix)
    (hlen : (R.head ++ rest).length < 2 ^ 63) :
    ((R.head ++ rest).length < R.encode.length → Waits (R.head ++ rest)) ∧
      (R.encode.length ≤ (R.head ++ rest).length → Delivers R (R.head ++ rest)) := by
  have hbody : b.encode = b.rest b.chunks := rfl
  have hencode : R.encode.length = R.head.length + (b.rest b.chunks).length := by
    rw [Response.encode, List.length_append, hR]
    rfl
  have htotal : (R.head ++ rest).length = R.head.length + rest.length := List.length_append
  have hscan : R.framing.scan = ⟨true, wordMax⟩ := by
    rw [hR]
    rfl
  have htake : (R.head ++ (b.rest b.chunks ++ suffix)).take (R.head ++ rest).length = R.head ++ rest :=
    (List.prefix_iff_eq_take.mp ((List.prefix_append_right_inj R.head).mpr hrest)).symm
  have hle : (R.head ++ rest).length ≤ (R.head ++ (b.rest b.chunks ++ suffix)).length :=
    ((List.prefix_append_right_inj R.head).mpr hrest).length_le
  obtain ⟨n, hdry⟩ := dryRun_rest b b.chunks R.head suffix (by omega) hlen hle hfit
  rw [htake] at hdry
  constructor
  · intro hshort
    rw [decide_eq_false (by omega)] at hdry
    refine ⟨{ status := R.status }, parsesTo_of_head hlen ⟨n, fun fuel hfuel => ?_⟩, rfl⟩
    rw [hscan, if_pos rfl, parseChunked, dryRun_mono hdry hfuel]
  · intro hfull
    rw [decide_eq_true (by omega)] at hdry
    obtain ⟨more, rfl⟩ : b.rest b.chunks <+: rest :=
      List.prefix_of_prefix_length_le (hbody ▸ List.prefix_append _ _) hrest (by omega)
    obtain ⟨m, buf', hrun, hslice, hlength, hdrop⟩ := decodeRun_rest b b.chunks R.head more R.status hlen
      ⟨rfl, rfl, le_rfl, le_rfl, by omega⟩
    have hparse : ParsesTo (R.head ++ (b.rest b.chunks ++ more))
        (decodeRun R.head.length R.status m (R.head ++ (b.rest b.chunks ++ more)) R.head.length R.head.length) := by
      refine parsesTo_of_head hlen ⟨max n m, fun fuel hfuel => ?_⟩
      rw [hscan, if_pos rfl, parseChunked, dryRun_mono hdry (le_trans (le_max_left n m) hfuel)]
      exact decodeRun_mono _ rfl (by rw [hrun]; simp) (le_trans (le_max_right n m) hfuel)
    rw [hrun] at hparse
    refine ⟨_, buf', hparse, rfl, rfl, hencode.symm, ?_, hlength, ?_⟩
    · rw [Nat.sub_self, Nat.zero_add] at hslice
      rw [hR]
      change slice buf' R.head.length (R.head.length - R.head.length + _) = _
      rw [Nat.sub_self, Nat.zero_add, hslice, slice, List.take_zero, List.nil_append]
      rfl
    · rw [hencode, ← List.length_append, hdrop, ← List.append_assoc, List.drop_left]

/-- A buffer that ends inside the header block. -/
theorem HeaderBlock.waits_short (H : HeaderBlock) {buf tail : List UInt8} (hpre : buf <+: H.head ++ tail)
    (hshort : buf.length < H.head.length) : Waits buf := by
  have hcut := H.parseHead_short tail hshort
  rw [← List.prefix_iff_eq_take.mp hpre] at hcut
  refine ⟨{}, ⟨0, fun fuel _ => ?_⟩, rfl⟩
  rw [parseHttpResponse, hcut]

theorem decodes_framed {R : Response} (hfit : R.SizesFit) {suffix buf : List UInt8} (hpre : buf <+: R.encode ++ suffix)
    (hlen : buf.length < 2 ^ 63) :
    (buf.length < R.encode.length → Waits buf) ∧ (R.encode.length ≤ buf.length → Delivers R buf) := by
  have hsplit : R.encode ++ suffix = R.head ++ (R.framing.encode ++ suffix) := List.append_assoc _ _ _
  rw [hsplit] at hpre
  by_cases hhead : buf.length < R.head.length
  · refine ⟨fun _ => R.block.waits_short hpre hhead, fun hfull => absurd hfull ?_⟩
    rw [Response.encode, List.length_append]
    omega
  · obtain ⟨rest, rfl⟩ : R.head <+: buf :=
      List.prefix_of_prefix_length_le (List.prefix_append _ _) hpre (by omega)
    have hrest := (List.prefix_append_right_inj R.head).mp hpre
    unfold Response.SizesFit at hfit
    cases hR : R.framing with
    | sized b =>
      rw [hR] at hrest
      exact decodes_sized hR hrest hlen
    | chunked b =>
      rw [hR] at hrest hfit
      exact decodes_chunked hR hfit hrest hlen

/-- The parser measures the chunks of the response right. -/
def Response.Measured (R : Response) : Prop :=
  match R.framing with
  | .sized _ => True
  | .chunked b => MeasuresRight R.head b.chunks

/-- **Exact incremental decoding.** The sizes of a response fit just if the parser measures each of its chunks right, and
then the response is decoded exactly. -/
theorem parseHttpResponse_decodesExactly (R : Response) :
    (R.SizesFit ↔ R.Measured) ∧ (R.SizesFit → DecodesExactly R) := by
  refine ⟨?_, fun hfit suffix buf hprefix hlen => decodes_framed hfit hprefix hlen⟩
  unfold Response.SizesFit Response.Measured
  split
  · exact Iff.rfl
  · exact chunksFit_iff _ _

theorem isSome_decDigit_one : (decDigit 49).isSome = true := by decide

theorem isSome_decDigit_ok : ∀ c ∈ [50, 48, 48], (decDigit c).isSome = true := List.all_eq_true.mp (by decide)

/-- A response with one framing header, `200 OK`, and the given chunked body. -/
def chunkedOk (b : ChunkedBody) : Response where
  minor := 49
  minorDigit := isSome_decDigit_one
  d1 := 50
  d2 := 48
  d3 := 48
  codeDigits := isSome_decDigit_ok
  reason := [79, 75]
  reasonPlain := by decide
  before := []
  after := []
  framing := .chunked b

def zeroSize : SizeText where
  digits := [48]
  ext := []
  nonempty := by decide
  hex := List.all_eq_true.mp (by decide)
  extForm := Or.inl rfl
  extPlain := plain_nil

theorem zeroSize_value : zeroSize.value = 0 := by decide

/-- The chunk `3;x`, whose data holds a line break. -/
def breakChunk : Chunk where
  digits := [51]
  ext := [59, 120]
  nonempty := by decide
  hex := List.all_eq_true.mp (by decide)
  extForm := Or.inr rfl
  extPlain := by decide
  data := [13, 10, 48]
  dataNonempty := by decide
  size := by decide

def breakBody : ChunkedBody := ⟨[breakChunk], zeroSize, zeroSize_value, []⟩

/-- A chunk of `2 ^ 64 - 72` bytes. -/
def longChunk (data : List UInt8) (hdata : data.length = 2 ^ 64 - 72) : Chunk where
  digits := List.replicate 14 70 ++ [66, 56]
  ext := []
  nonempty := by decide
  hex := List.all_eq_true.mp (by decide)
  extForm := Or.inl rfl
  extPlain := by decide
  data := data
  dataNonempty := fun h => by rw [h] at hdata; cases hdata
  size := by
    rw [hdata]
    decide

def longBody (data : List UInt8) (hdata : data.length = 2 ^ 64 - 72) : ChunkedBody :=
  ⟨[longChunk data hdata], zeroSize, zeroSize_value, []⟩

/-- The chunk ends at offset `2 ^ 64 - 5`: no buffer holds it, and the parser waits for it. -/
theorem longBody_fits (data : List UInt8) (hdata : data.length = 2 ^ 64 - 72) :
    (chunkedOk (longBody data hdata)).SizesFit := by
  have hhead : (chunkedOk (longBody data hdata)).head.length = 47 := by
    change (chunkedOk breakBody).head.length = 47
    decide
  have htext : (longChunk data hdata).text.length = 16 := by
    change (List.replicate 14 70 ++ [66, 56] ++ ([] : List UInt8)).length = 16
    decide
  change ChunksFit (chunkedOk (longBody data hdata)).head.length [longChunk data hdata]
  rw [hhead]
  refine ⟨fun _ _ => ?_, trivial⟩
  change data.length % wordSize ≠ wordMax ∧ 2 ^ 63 ≤ (47 + (longChunk data hdata).text.length + 2 + data.length + 2) % wordSize
  rw [htext, hdata]
  decide

theorem chunkedOk_decodesExactly :
    let long := chunkedOk (longBody (List.replicate (2 ^ 64 - 72) 0) List.length_replicate)
    (chunkedOk breakBody).SizesFit ∧ DecodesExactly (chunkedOk breakBody) ∧ long.SizesFit ∧ DecodesExactly long := by
  intro long
  have hfit : (chunkedOk breakBody).SizesFit := Response.sizesFit_of_lt (by decide)
  have hlong : long.SizesFit := longBody_fits _ _
  exact ⟨hfit, (parseHttpResponse_decodesExactly _).2 hfit, hlong, (parseHttpResponse_decodesExactly _).2 hlong⟩

section Huge

variable (more : List UInt8) (hmore : more.length = 2 ^ 64 - 2)

/-- A chunk of `2 ^ 64` bytes, the first two of them a line break. -/
def hugeChunk : Chunk where
  digits := 49 :: List.replicate 16 48
  ext := []
  nonempty := by decide
  hex := List.all_eq_true.mp (by decide)
  extForm := Or.inl rfl
  extPlain := by decide
  data := crlf ++ more
  dataNonempty := fun h => absurd (List.append_eq_nil_iff.mp h).1 (by decide)
  size := by
    rw [List.length_append, hmore]
    decide

def hugeBody : ChunkedBody := ⟨[hugeChunk more hmore], zeroSize, zeroSize_value, []⟩

/-- The head of the response, the size line of the huge chunk and its first two bytes. -/
def hugePrefix : List UInt8 :=
  (chunkedOk breakBody).head ++ ((49 :: List.replicate 16 48) ++ (crlf ++ crlf))

theorem hugePrefix_prefix : hugePrefix <+: (chunkedOk (hugeBody more hmore)).encode := by
  have hencode : (chunkedOk (hugeBody more hmore)).encode =
      (chunkedOk breakBody).head ++ (hugeBody more hmore).rest [hugeChunk more hmore] := rfl
  have htext : (hugeChunk more hmore).text = 49 :: List.replicate 16 48 := List.append_nil _
  have hdata : (hugeChunk more hmore).data = crlf ++ more := rfl
  rw [hencode, (hugeBody more hmore).rest_cons, htext, hdata, hugePrefix]
  simp only [List.append_assoc, List.prefix_append_right_inj]
  exact List.prefix_append _ _

/-- The size of the huge chunk is read as zero, so a prefix of the response that ends two bytes into
its data is reported as a complete response. -/
theorem hugeBody_not_decodesExactly : ¬ DecodesExactly (chunkedOk (hugeBody more hmore)) := by
  intro h
  have hparse : parseHttpResponse 1 hugePrefix = .ret
      { complete := true, status := 200, body := some (47, 0), consumed := 68 } hugePrefix := by
    decide
  have hlen : hugePrefix.length = 68 := by decide
  have hprefix : hugePrefix <+: (chunkedOk (hugeBody more hmore)).encode ++ [] := by
    rw [List.append_nil]
    exact hugePrefix_prefix more hmore
  have hlong : hugePrefix.length < (chunkedOk (hugeBody more hmore)).encode.length := by
    have hrest : (chunkedOk (hugeBody more hmore)).encode.length = (chunkedOk breakBody).head.length +
        ((hugeBody more hmore).rest [hugeChunk more hmore]).length := List.length_append
    have hdata : (hugeChunk more hmore).data = crlf ++ more := rfl
    rw [hrest, (hugeBody more hmore).rest_cons, hlen, hdata]
    simp only [List.length_append, hmore]
    omega
  obtain ⟨r, ⟨n, hn⟩, hwait⟩ := (h [] hugePrefix hprefix (by omega)).1 hlong
  have hmono := parseHttpResponse_mono hparse (by simp) (le_max_left 1 n)
  rw [hn _ (le_max_right 1 n)] at hmono
  cases hmono
  cases hwait

end Huge

theorem hugeZeros_not_decodesExactly :
    ¬ DecodesExactly (chunkedOk (hugeBody (List.replicate (2 ^ 64 - 2) 0) List.length_replicate)) :=
  hugeBody_not_decodesExactly _ _

end Lepton.Http

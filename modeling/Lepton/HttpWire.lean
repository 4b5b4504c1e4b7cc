import Lepton.HttpLines

/-! Well-formed HTTP/1.1 responses as they stand on the wire, built from parts that carry their own
well-formedness: header lines without line breaks, size texts made of hex digits and an optional
extension, chunks whose announced size is the length of their data. The parser lemmas here are about
one part each: a size text reads back as its value, a block of lines ends at its first empty line,
and joined lines come apart again. -/

namespace Lepton.Http

open Words Search

/-- Text without a line break. -/
def Plain (text : List UInt8) : Prop := 13 ∉ text ∧ 10 ∉ text

instance : DecidablePred Plain := fun text => inferInstanceAs (Decidable (13 ∉ text ∧ 10 ∉ text))

theorem plain_nil : Plain [] := ⟨List.not_mem_nil, List.not_mem_nil⟩

/-- A nonempty header or trailer line, without its CRLF. -/
structure Line where
  text : List UInt8
  plain : Plain text
  nonempty : text ≠ []

/-- A header line that does not announce a body. -/
structure OtherHeader extends Line where
  notLength : istartsWith text kContentLength = false
  notEncoding : istartsWith text kTransferEncoding = false

/-- The value of a digit string, most significant digit first. -/
def digitsValue (base : Nat) (digit : UInt8 → Option Nat) (digits : List UInt8) : Nat :=
  digits.foldl (fun v c => v * base + (digit c).getD 0) 0

/-- A chunk-size line: hex digits and an optional extension led by `;`. -/
structure SizeText where
  digits : List UInt8
  ext : List UInt8
  nonempty : digits ≠ []
  hex : ∀ c ∈ digits, (hexDigit c).isSome = true
  extForm : ext = [] ∨ ext.head? = some 59
  extPlain : Plain ext

namespace SizeText

def text (t : SizeText) : List UInt8 := t.digits ++ t.ext

def value (t : SizeText) : Nat := digitsValue 16 hexDigit t.digits

end SizeText

/-- A nonempty chunk with its size line. -/
structure Chunk extends SizeText where
  data : List UInt8
  dataNonempty : data ≠ []
  size : toSizeText.value = data.length

def Chunk.encode (c : Chunk) : List UInt8 := c.text ++ crlf ++ c.data ++ crlf

/-- A chunked body: chunks, a zero chunk, trailer lines and an empty line. -/
structure ChunkedBody where
  chunks : List Chunk
  last : SizeText
  lastZero : last.value = 0
  trailers : List Line

/-- Lines, each followed by CRLF. -/
def joinLines (lines : List (List UInt8)) : List UInt8 := (lines.map (· ++ crlf)).flatten

def ChunkedBody.encode (b : ChunkedBody) : List UInt8 :=
  (b.chunks.map Chunk.encode).flatten ++ (joinLines (b.last.text :: b.trailers.map Line.text) ++ crlf)

def ChunkedBody.decoded (b : ChunkedBody) : List UInt8 := (b.chunks.map Chunk.data).flatten

/-- A body of announced length. -/
structure SizedBody where
  digits : List UInt8
  nonempty : digits ≠ []
  decimal : ∀ c ∈ digits, (decDigit c).isSome = true
  body : List UInt8
  size : digitsValue 10 decDigit digits = body.length
  sizeLt : body.length < 2 ^ 63

inductive Framing where
  | sized (b : SizedBody)
  | chunked (b : ChunkedBody)

namespace Framing

def header : Framing → List UInt8
  | .sized b => ascii "Content-Length: " ++ b.digits
  | .chunked _ => ascii "Transfer-Encoding: chunked"

def encode : Framing → List UInt8
  | .sized b => b.body
  | .chunked b => b.encode

def decoded : Framing → List UInt8
  | .sized b => b.body
  | .chunked b => b.decoded

end Framing

/-- A well-formed response with exactly one framing header. -/
structure Response where
  minor : UInt8
  minorDigit : (decDigit minor).isSome = true
  d1 : UInt8
  d2 : UInt8
  d3 : UInt8
  codeDigits : ∀ c ∈ [d1, d2, d3], (decDigit c).isSome = true
  reason : List UInt8
  reasonPlain : Plain reason
  before : List OtherHeader
  after : List OtherHeader
  framing : Framing

namespace Response

variable (R : Response)

/-- `HTTP/1.x ddd reason`. -/
def statusLine : List UInt8 := ascii "HTTP/1." ++ [R.minor, 32, R.d1, R.d2, R.d3, 32] ++ R.reason

def lines : List (List UInt8) :=
  R.statusLine :: (R.before.map (·.text) ++ R.framing.header :: R.after.map (·.text))

/-- The status line and the headers, with the empty line that ends them. -/
def head : List UInt8 := joinLines R.lines ++ crlf

def encode : List UInt8 := R.head ++ R.framing.encode

/-- The three-digit status code. -/
def status : Nat := digitsValue 10 decDigit [R.d1, R.d2, R.d3]

end Response

/-- A status line and header lines, whatever these announce. -/
structure HeaderBlock where
  minor : UInt8
  minorDigit : (decDigit minor).isSome = true
  d1 : UInt8
  d2 : UInt8
  d3 : UInt8
  codeDigits : ∀ c ∈ [d1, d2, d3], (decDigit c).isSome = true
  reason : List UInt8
  reasonPlain : Plain reason
  headers : List (List UInt8)
  headersPlain : ∀ l ∈ headers, (13 : UInt8) ∉ l ∧ l ≠ []

namespace HeaderBlock

variable (H : HeaderBlock)

def statusLine : List UInt8 := ascii "HTTP/1." ++ [H.minor, 32, H.d1, H.d2, H.d3, 32] ++ H.reason

def lines : List (List UInt8) := H.statusLine :: H.headers

def head : List UInt8 := joinLines H.lines ++ crlf

def status : Nat := digitsValue 10 decDigit [H.d1, H.d2, H.d3]

end HeaderBlock

/-! ### Digit strings -/

theorem foldl_mod (base : Nat) (digit : UInt8 → Option Nat) (digits : List UInt8) (v : Nat) :
    digits.foldl (fun v c => (v * base + (digit c).getD 0) % wordSize) (v % wordSize) =
      digits.foldl (fun v c => v * base + (digit c).getD 0) v % wordSize := by
  induction digits generalizing v with
  | nil => rfl
  | cons c rest ih =>
    have hstep : (v % wordSize * base + (digit c).getD 0) % wordSize =
        (v * base + (digit c).getD 0) % wordSize := by
      rw [Nat.add_mod, Nat.mul_mod, Nat.mod_mod, ← Nat.mul_mod, ← Nat.add_mod]
    rw [List.foldl_cons, List.foldl_cons, hstep, ih]

theorem parseHexLoop_digits (digits ext : List UInt8) (hhex : ∀ c ∈ digits, (hexDigit c).isSome = true)
    (hext : ext = [] ∨ ext.head? = some 59) (v : Nat) :
    parseHexLoop v (digits ++ ext) =
      digits.foldl (fun v c => (v * 16 + (hexDigit c).getD 0) % wordSize) v := by
  induction digits generalizing v with
  | nil =>
    rcases hext with rfl | hext
    · rfl
    · cases ext with
      | nil => rfl
      | cons c rest =>
        cases hext
        rfl
  | cons c rest ih =>
    obtain ⟨d, hd⟩ := Option.isSome_iff_exists.mp (hhex c List.mem_cons_self)
    rw [List.cons_append, parseHexLoop, hd, List.foldl_cons, hd]
    exact ih (fun c hc => hhex c (List.mem_cons_of_mem _ hc)) _

/-- A size line reads back as its value, reduced to a word. -/
theorem parseHex_text (t : SizeText) : parseHex t.text = t.value % wordSize := by
  have hne : t.text ≠ [] := fun h => t.nonempty (List.append_eq_nil_iff.mp h).1
  rw [parseHex, if_neg hne, SizeText.text, parseHexLoop_digits _ _ t.hex t.extForm]
  exact foldl_mod 16 hexDigit t.digits 0

theorem parseDecLoop_digits (digits : List UInt8) (hdec : ∀ c ∈ digits, (decDigit c).isSome = true)
    (v : Nat) : parseDecLoop v digits =
      digits.foldl (fun v c => (v * 10 + (decDigit c).getD 0) % wordSize) v := by
  induction digits generalizing v with
  | nil => rfl
  | cons c rest ih =>
    obtain ⟨d, hd⟩ := Option.isSome_iff_exists.mp (hdec c List.mem_cons_self)
    rw [parseDecLoop, hd, List.foldl_cons, hd]
    exact ih (fun c hc => hdec c (List.mem_cons_of_mem _ hc)) _

theorem parseDecLoop_value (digits : List UInt8) (hdec : ∀ c ∈ digits, (decDigit c).isSome = true) :
    parseDecLoop 0 digits = digitsValue 10 decDigit digits % wordSize := by
  rw [parseDecLoop_digits _ hdec]
  exact foldl_mod 10 decDigit digits 0

theorem not_mem_of_digit {digit : UInt8 → Option Nat} {b : UInt8} (hb : digit b = none)
    {digits : List UInt8} (h : ∀ c ∈ digits, (digit c).isSome = true) : b ∉ digits := by
  intro hmem
  have := h b hmem
  rw [hb] at this
  cases this

theorem SizeText.not_mem_cr (t : SizeText) : (13 : UInt8) ∉ t.text := by
  rw [SizeText.text, List.mem_append, not_or]
  exact ⟨not_mem_of_digit (by decide) t.hex, t.extPlain.1⟩

/-! ### Blocks of lines -/

theorem joinLines_cons (line : List UInt8) (rest : List (List UInt8)) :
    joinLines (line :: rest) = line ++ (crlf ++ joinLines rest) := by
  rw [joinLines, List.map_cons, List.flatten_cons, List.append_assoc]
  rfl

/-- The next line break behind a position is the one that ends the line there. -/
theorem find_line (pre : List UInt8) {line : List UInt8} (hline : (13 : UInt8) ∉ line) (rest : List UInt8) :
    find (pre ++ (line ++ (crlf ++ rest))) crlf pre.length = some (pre.length + line.length) :=
  find_append_of_not_mem pre rest [10] hline

/-- A block of nonempty lines ends at its first empty line. -/
theorem find_blockEnd (pre : List UInt8) {line : List UInt8} (hline : (13 : UInt8) ∉ line)
    {lines : List (List UInt8)} (hlines : ∀ l ∈ lines, (13 : UInt8) ∉ l ∧ l ≠ []) (rest : List UInt8) :
    find (pre ++ (joinLines (line :: lines) ++ (crlf ++ rest))) crlfcrlf pre.length =
      some (pre.length + (joinLines (line :: lines)).length - 2) := by
  induction lines generalizing pre line with
  | nil =>
    have h := find_append_of_not_mem pre rest [10, 13, 10] hline
    rw [joinLines_cons]
    simp only [joinLines, List.map_nil, List.flatten_nil, List.append_nil, List.append_assoc,
      List.length_append]
    exact h
  | cons next lines ih =>
    obtain ⟨hnext, hrest⟩ := List.forall_mem_cons.mp hlines
    have hlater := ih (pre ++ (line ++ crlf)) hnext.1 hrest
    rw [joinLines_cons]
    simp only [List.append_assoc, List.length_append] at hlater ⊢
    rw [show pre.length + (line.length + (crlf.length + (joinLines (next :: lines)).length)) - 2 =
      pre.length + (line.length + crlf.length) + (joinLines (next :: lines)).length - 2 by omega]
    refine find_of_skip (by omega) (fun j hj hjlt hocc => ?_) hlater
    obtain ⟨hfirst, hocc⟩ := occursAt_cons.mp hocc
    obtain ⟨-, hocc⟩ := occursAt_cons.mp hocc
    obtain ⟨hthird, -⟩ := occursAt_cons.mp hocc
    obtain ⟨i, rfl⟩ := Nat.exists_eq_add_of_le hj
    have hcrlf : crlf.length = 2 := rfl
    rw [List.getElem?_append_right (by omega), Nat.add_sub_cancel_left] at hfirst
    by_cases hi : i < line.length
    · rw [List.getElem?_append_left hi] at hfirst
      exact hline (List.mem_of_getElem? hfirst)
    · rw [List.getElem?_append_right (by omega)] at hfirst
      have hcase : i - line.length = 0 ∨ i - line.length = 1 := by omega
      rcases hcase with h0 | h1
      · rw [joinLines_cons, show pre.length + i + 1 + 1 = pre.length + (line.length + (crlf.length + 0)) by omega,
          List.getElem?_append_right (by omega), Nat.add_sub_cancel_left,
          List.getElem?_append_right (by omega), Nat.add_sub_cancel_left,
          List.getElem?_append_right (by omega), Nat.add_sub_cancel_left, List.append_assoc,
          List.getElem?_append_left (List.length_pos_of_ne_nil hnext.2)] at hthird
        exact hnext.1 (List.mem_of_getElem? hthird)
      · rw [h1] at hfirst
        cases hfirst

/-- Joined lines come apart again. -/
theorem lines_joinLines {ls : List (List UInt8)} (h : ∀ l ∈ ls, (13 : UInt8) ∉ l) : lines (joinLines ls) = ls := by
  induction ls with
  | nil => rfl
  | cons line ls ih =>
    obtain ⟨hline, hrest⟩ := List.forall_mem_cons.mp h
    have hfind : find (joinLines (line :: ls)) crlf 0 = some line.length := by
      have hfirst := find_line [] hline (joinLines ls)
      rw [List.nil_append, List.length_nil, Nat.zero_add] at hfirst
      rw [joinLines_cons]
      exact hfirst
    rw [lines_eq, hfind]
    dsimp only
    rw [joinLines_cons, List.take_left, ← List.drop_drop, List.drop_left]
    exact congrArg (line :: ·) (ih hrest)

end Lepton.Http

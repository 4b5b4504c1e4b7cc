import Lepton.Codes
import Lepton.HttpBuild
import Lepton.HttpOutput

/-! The server that a client talks to. A server takes a request up to its empty line, finds the length of the body among
the header lines and takes the body. Whatever first part of the output has reached it, it has read the requests that were
accepted first and holds the beginning of the next one; and it has read at most one request more than the client has
responses. -/

namespace Lepton.Http

open Search Codes

/-- A request as a server reads it. -/
structure Received where
  lines : List (List UInt8)
  body : List UInt8
  deriving DecidableEq, Repr

/-- The lines that announce a length. -/
def sizeLines (ls : List (List UInt8)) : List (List UInt8) := ls.filter (istartsWith · kContentLength)

/-- The length of the body behind the header lines; none if two lines announce one. -/
def bodySize (ls : List (List UInt8)) : Option Nat :=
  match sizeLines ls with
  | [] => some 0
  | [line] => some (digitsValue 10 decDigit (trimFront (line.drop kContentLength.length)))
  | _ => none

/-- How a server reads a request. -/
def serverRead (bytes : List UInt8) : Reading Received UInt8 :=
  match find bytes crlfcrlf 0 with
  | none => .wait
  | some k =>
    match bodySize (lines (bytes.take (k + 2))) with
    | none => .broken
    | some n =>
      if bytes.length < k + 4 + n then .wait
      else .item ⟨lines (bytes.take (k + 2)), slice bytes (k + 4) n⟩ (bytes.drop (k + 4 + n))

namespace Received

variable {q : Received}

def head (q : Received) : List UInt8 := joinLines q.lines ++ crlf

def encode (q : Received) : List UInt8 := q.head ++ q.body

/-- A request that marks its own end. -/
structure Valid (q : Received) : Prop where
  started : q.lines ≠ []
  plain : ∀ l ∈ q.lines, (13 : UInt8) ∉ l ∧ l ≠ []
  bodySize : bodySize q.lines = some q.body.length

theorem length_head (q : Received) : q.head.length = (joinLines q.lines).length + 2 := List.length_append

/-- The first empty line is the one that ends the header. -/
theorem Valid.find_head (h : q.Valid) (rest : List UInt8) :
    find (q.head ++ rest) crlfcrlf 0 = some ((joinLines q.lines).length - 2) ∧ 2 ≤ (joinLines q.lines).length := by
  cases hlines : q.lines with
  | nil => exact absurd hlines h.started
  | cons line more =>
    have hplain := h.plain
    rw [hlines] at hplain
    obtain ⟨hline, hmore⟩ := List.forall_mem_cons.mp hplain
    have hend := find_blockEnd [] hline.1 hmore rest
    rw [List.nil_append, List.length_nil, Nat.zero_add] at hend
    refine ⟨?_, ?_⟩
    · rw [head, hlines, List.append_assoc]
      exact hend
    · rw [joinLines_cons]
      simp only [List.length_append, show crlf.length = 2 from rfl]
      omega

/-- Once the header is there, what is left to wait for is the body. -/
theorem Valid.serverRead_head (h : q.Valid) (rest : List UInt8) :
    serverRead (q.head ++ rest) =
      if (q.head ++ rest).length < q.head.length + q.body.length then .wait
      else .item ⟨q.lines, slice (q.head ++ rest) q.head.length q.body.length⟩
        ((q.head ++ rest).drop (q.head.length + q.body.length)) := by
  obtain ⟨hfind, hmin⟩ := h.find_head rest
  have hk : (joinLines q.lines).length - 2 + 4 = q.head.length := by
    rw [length_head]
    omega
  have hblock : (q.head ++ rest).take ((joinLines q.lines).length - 2 + 2) = joinLines q.lines := by
    rw [head, List.append_assoc, Nat.sub_add_cancel hmin, List.take_left]
  rw [serverRead, hfind]
  dsimp only
  rw [hblock, lines_joinLines fun l hl => (h.plain l hl).1, h.bodySize]
  dsimp only
  rw [hk]

theorem serverRead_whole (h : q.Valid) (rest : List UInt8) : serverRead (q.encode ++ rest) = .item q rest := by
  have hlen : ¬ (q.head ++ (q.body ++ rest)).length < q.head.length + q.body.length := by
    rw [List.length_append, List.length_append]
    omega
  rw [encode, List.append_assoc, h.serverRead_head, if_neg hlen, slice_append, ← List.append_assoc,
    List.drop_left' List.length_append]

theorem serverRead_part (h : q.Valid) {piece : List UInt8} (hpiece : piece <+: q.encode)
    (hlen : piece.length < q.encode.length) : serverRead piece = .wait := by
  rw [encode, List.length_append] at hlen
  by_cases hshort : piece.length < q.head.length
  · obtain ⟨hfind, hmin⟩ := h.find_head q.body
    have hnone := find_take_of_lt hfind (n := piece.length)
      (by rw [length_head] at hshort; change piece.length < _ + 4; omega) (fun hnil => by cases hnil)
    rw [← encode, ← List.prefix_iff_eq_take.mp hpiece] at hnone
    rw [serverRead, hnone]
  · have hhead : q.head <+: piece :=
      List.prefix_of_prefix_length_le (List.prefix_append _ _) hpiece (Nat.not_lt.mp hshort)
    obtain ⟨more, rfl⟩ := hhead
    rw [h.serverRead_head, if_pos hlen]

theorem encode_ne_nil (q : Received) : q.encode ≠ [] := by
  rw [encode, head]
  exact List.append_ne_nil_of_left_ne_nil (List.append_ne_nil_of_right_ne_nil _ (fun hnil => by cases hnil)) _

end Received

/-- What a server is to read. -/
def Request.received (host : List UInt8) (r : Request) : Received where
  lines := (httpMethodStr r.method ++ (ascii " " ++ (r.path ++ ascii " HTTP/1.1"))) :: (ascii "Host: " ++ host) ::
    (r.headerLines ++ if r.body = [] then [] else [ascii "Content-Length: " ++ decimal r.body.length])
  body := r.body

/-- A request whose parts have no line breaks and whose header lines do not announce a length. -/
structure Request.Plain (r : Request) : Prop where
  path : (13 : UInt8) ∉ r.path
  headers : ∀ l ∈ r.headerLines, ((13 : UInt8) ∉ l ∧ l ≠ []) ∧ istartsWith l kContentLength = false

theorem not_mem_decimal {c : UInt8} (hc : (decDigit c).isSome = false) (n : Nat) : c ∉ decimal n := fun hmem => by
  rw [(decimal_numeral n).decimal c hmem] at hc
  cases hc

/-- The length of the body is announced once, or not at all when there is no body. -/
theorem Request.Plain.bodySize {r : Request} (h : r.Plain) (host : List UInt8) :
    bodySize (r.received host).lines = some r.body.length := by
  have hmethod : istartsWith (httpMethodStr r.method ++ (ascii " " ++ (r.path ++ ascii " HTTP/1.1"))) kContentLength =
      false := by
    cases r.method with
    | get => rfl
    | post => rfl
    | delete => rfl
    | put => rfl
  have hhost : istartsWith (ascii "Host: " ++ host) kContentLength = false := rfl
  have hheaders : r.headerLines.filter (istartsWith · kContentLength) = [] :=
    List.filter_eq_nil_iff.mpr fun l hl => by rw [(h.headers l hl).2]; exact Bool.noConfusion
  have hlines : sizeLines (r.received host).lines =
      if r.body = [] then [] else [ascii "Content-Length: " ++ decimal r.body.length] := by
    rw [sizeLines, Request.received]
    dsimp only
    rw [List.filter_cons_of_neg (by rw [hmethod]; exact Bool.noConfusion),
      List.filter_cons_of_neg (by rw [hhost]; exact Bool.noConfusion), List.filter_append, hheaders, List.nil_append]
    split
    · rfl
    · exact List.filter_cons_of_pos rfl
  by_cases hbody : r.body = []
  · rw [Http.bodySize, hlines, if_pos hbody, hbody]
    rfl
  · rw [Http.bodySize, hlines, if_neg hbody]
    dsimp only
    have hdrop : (ascii "Content-Length: " ++ decimal r.body.length).drop kContentLength.length =
        32 :: decimal r.body.length := rfl
    have htrim : trimFront (32 :: decimal r.body.length) = decimal r.body.length := by
      rw [trimFront, if_pos rfl]
      cases hdigits : decimal r.body.length with
      | nil => rfl
      | cons c more =>
        have hspace : c ≠ 32 := by
          rintro rfl
          exact not_mem_decimal (c := 32) (by decide) r.body.length (by rw [hdigits]; exact List.mem_cons_self)
        rw [trimFront, if_neg hspace]
    rw [hdrop, htrim, (decimal_numeral r.body.length).value]

theorem Request.Plain.valid {r : Request} (h : r.Plain) {host : List UInt8} (hhost : (13 : UInt8) ∉ host) :
    (r.received host).Valid := by
  refine ⟨List.cons_ne_nil _ _, ?_, h.bodySize host⟩
  have hmethod : (13 : UInt8) ∉ httpMethodStr r.method ∧ httpMethodStr r.method ≠ [] := by
    cases r.method with
    | get => decide
    | post => decide
    | delete => decide
    | put => decide
  have hlength : ∀ l ∈ (if r.body = [] then [] else [ascii "Content-Length: " ++ decimal r.body.length]),
      (13 : UInt8) ∉ l ∧ l ≠ [] := by
    split
    · exact fun l hl => absurd hl List.not_mem_nil
    · refine List.forall_mem_singleton.mpr ⟨?_, List.append_ne_nil_of_left_ne_nil (by decide) _⟩
      rw [List.mem_append, not_or]
      exact ⟨by decide, not_mem_decimal (by decide) _⟩
  rw [Request.received]
  dsimp only
  simp only [List.forall_mem_cons, List.forall_mem_append]
  refine ⟨⟨?_, List.append_ne_nil_of_left_ne_nil hmethod.2 _⟩, ⟨?_, List.append_ne_nil_of_left_ne_nil (by decide) _⟩,
    fun l hl => (h.headers l hl).1, hlength⟩
  · simp only [List.mem_append, not_or]
    exact ⟨hmethod.1, by decide, h.path, by decide⟩
  · rw [List.mem_append, not_or]
    exact ⟨by decide, hhost⟩

namespace HttpClient

end HttpClient

end Lepton.Http

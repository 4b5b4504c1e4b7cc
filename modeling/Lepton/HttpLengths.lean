import Lepton.HttpCase
import Lepton.HttpChunked

/-! Which length fields are read exactly. Both digit loops work in a 64-bit word and do not look whether a digit is shifted
out, `parse_hex` takes a size without digits for zero, and a Content-Length of `SIZE_MAX` is taken for none at all.
These are all the ways in which a length other than the announced one is used. -/

namespace Lepton.Http

open Words Search

/-! ### Chunk sizes -/

/-- The text before the first `;`. -/
def sizeField (s : List UInt8) : List UInt8 := s.takeWhile (· != 59)

/-- What a chunk-size line announces; `SIZE_MAX` stands for a line that is not a size, or is too large. -/
def hexLength (s : List UInt8) : Nat :=
  if sizeField s ≠ [] ∧ (sizeField s).all (fun c => (hexDigit c).isSome) = true ∧
      digitsValue 16 hexDigit (sizeField s) < wordMax then
    digitsValue 16 hexDigit (sizeField s)
  else wordMax

/-- The lines `parse_hex` reads wrongly: an extension without a size, and a size whose word is not its value. -/
def Misread (s : List UInt8) : Prop :=
  (s ≠ [] ∧ sizeField s = []) ∨
    ((sizeField s).all (fun c => (hexDigit c).isSome) = true ∧ wordSize ≤ digitsValue 16 hexDigit (sizeField s) ∧
      digitsValue 16 hexDigit (sizeField s) % wordSize ≠ wordMax)

theorem sizeField_append {digits ext : List UInt8} (hhex : ∀ c ∈ digits, (hexDigit c).isSome = true)
    (hext : ext = [] ∨ ext.head? = some 59) : sizeField (digits ++ ext) = digits := by
  have hfree : ∀ c ∈ digits, (c != 59) = true := by
    intro c hc
    have hsome := hhex c hc
    refine bne_iff_ne.mpr ?_
    rintro rfl
    cases hsome
  have hstop : ext.takeWhile (· != 59) = [] := by
    rcases hext with rfl | hext
    · rfl
    · obtain ⟨rest, rfl⟩ := List.head?_eq_some_iff.mp hext
      rfl
  rw [sizeField, List.takeWhile_append_of_pos hfree, hstop, List.append_nil]

/-- The text behind the field is empty or starts with `;`. -/
theorem sizeField_ext (s : List UInt8) : ∃ ext, s = sizeField s ++ ext ∧ (ext = [] ∨ ext.head? = some 59) := by
  refine ⟨s.dropWhile (· != 59), List.takeWhile_append_dropWhile.symm, ?_⟩
  have hhead := List.head?_dropWhile_not (· != (59 : UInt8)) s
  cases hext : s.dropWhile (· != 59) with
  | nil => exact Or.inl rfl
  | cons c rest =>
    rw [hext] at hhead
    exact Or.inr (congrArg some (by simpa using hhead))

theorem parseHex_of_hex {s : List UInt8} (hne : s ≠ []) (hhex : (sizeField s).all (fun c => (hexDigit c).isSome) = true) :
    parseHex s = digitsValue 16 hexDigit (sizeField s) % wordSize := by
  obtain ⟨ext, hs, hext⟩ := sizeField_ext s
  rw [parseHex, if_neg hne]
  conv_lhs => rw [hs]
  rw [parseHexLoop_digits _ _ (List.all_eq_true.mp hhex) hext]
  exact foldl_mod 16 hexDigit (sizeField s) 0

theorem parseHex_of_not_hex {s : List UInt8} (hhex : (sizeField s).all (fun c => (hexDigit c).isSome) ≠ true) :
    parseHex s = wordMax := by
  by_contra hform
  obtain ⟨ext, hs, hext⟩ := parseHex_ext hform
  have hfield : sizeField s = sizeDigits s := by
    conv_lhs => rw [hs]
    exact sizeField_append (sizeDigits_hex s) hext
  exact hhex (List.all_eq_true.mpr (hfield ▸ sizeDigits_hex s))

theorem parseHex_eq_iff (s : List UInt8) : parseHex s = hexLength s ↔ ¬ Misread s := by
  have hmax : wordMax < wordSize := by decide
  unfold Misread hexLength
  by_cases hhex : (sizeField s).all (fun c => (hexDigit c).isSome) = true
  · by_cases hempty : s = []
    · rw [hempty]
      decide
    by_cases hfield : sizeField s = []
    · have hzero : parseHex s = 0 := by
        rw [parseHex_of_hex hempty hhex, hfield]
        rfl
      rw [hzero, if_neg fun h => h.1 hfield]
      exact iff_of_false (by decide) fun h => h (Or.inl ⟨hempty, hfield⟩)
    · rw [parseHex_of_hex hempty hhex]
      generalize digitsValue 16 hexDigit (sizeField s) = v
      by_cases hv : v < wordMax
      · rw [if_pos ⟨hfield, hhex, hv⟩, Nat.mod_eq_of_lt (by omega)]
        refine iff_of_true rfl ?_
        rintro (⟨-, h⟩ | ⟨-, h, -⟩)
        · exact hfield h
        · omega
      · rw [if_neg fun h => hv h.2.2]
        constructor
        · rintro h (⟨-, h'⟩ | ⟨-, -, h'⟩)
          · exact hfield h'
          · exact h' h
        · intro h
          by_contra hne
          refine h (Or.inr ⟨hhex, ?_, hne⟩)
          by_contra hlt
          rw [Nat.mod_eq_of_lt (by omega)] at hne
          have hsucc : wordSize = wordMax + 1 := rfl
          omega
  · rw [parseHex_of_not_hex hhex, if_neg fun h => hhex h.2.1]
    refine iff_of_true rfl ?_
    rintro (⟨-, h⟩ | ⟨h, -⟩)
    · rw [h] at hhex
      exact hhex rfl
    · exact hhex h

/-! ### Content-Length -/

/-- The Content-Length lines. -/
def lengthLines (buf : List UInt8) : List (List UInt8) := (headLines buf).filter (istartsWith · kContentLength)

/-- The value of a Content-Length line, without the spaces in front. -/
def lengthText (line : List UInt8) : List UInt8 := trimFront (line.drop kContentLength.length)

/-- The length a Content-Length line announces: the value of the digits in front. -/
def announced (line : List UInt8) : Nat :=
  digitsValue 10 decDigit ((lengthText line).takeWhile fun c => (decDigit c).isSome)

/-- The response is reported as complete. -/
def Completes (fuel : Nat) (buf : List UInt8) (r : HttpResponseView) : Prop :=
  r.complete = true ∧ ∃ c, parseHttpResponse fuel buf = .ret r c

/-- The Content-Length fields of a response that is reported as complete are read exactly, and the one that is used
is used as it stands. -/
structure LengthsExact (fuel : Nat) (buf : List UInt8) : Prop where
  read : ∀ r, Completes fuel buf r → ∀ line ∈ lengthLines buf, parseDecLoop 0 (lengthText line) = announced line
  used : ∀ r, Completes fuel buf r → announcesChunked buf = false → ∀ line ∈ (lengthLines buf).getLast?,
    ∃ start, r.body = some (start, announced line)

theorem parseDecLoop_lengthText (line : List UInt8) : parseDecLoop 0 (lengthText line) = announced line % wordSize := by
  have hstop (n : Nat) (text : List UInt8) :
      parseDecLoop n text = parseDecLoop n (text.takeWhile fun c => (decDigit c).isSome) := by
    induction text generalizing n with
    | nil => rfl
    | cons c rest ih =>
      cases hc : decDigit c with
      | none => simp only [List.takeWhile_cons, parseDecLoop, hc, Option.isSome_none, Bool.false_eq_true, if_false]
      | some d =>
        simp only [List.takeWhile_cons, parseDecLoop, hc, Option.isSome_some, if_true]
        exact ih _
  rw [hstop]
  exact parseDecLoop_value _ fun c hc => List.mem_takeWhile_imp (p := fun c => (decDigit c).isSome) hc

theorem contentLen_scanLine (scan : HeaderScan) (line : List UInt8) :
    (scanLine scan line).contentLen
      = if istartsWith line kContentLength then parseDecLoop 0 (lengthText line) else scan.contentLen := by
  unfold scanLine
  split
  · rfl
  · split
    · split
      · rfl
      · rfl
    · rfl

/-- The last Content-Length line counts. -/
theorem foldl_contentLen_eq (ls : List (List UInt8)) (scan : HeaderScan) :
    (ls.foldl scanLine scan).contentLen =
      (((ls.filter (istartsWith · kContentLength)).getLast?.map fun line => parseDecLoop 0 (lengthText line)).getD
        scan.contentLen) := by
  induction ls generalizing scan with
  | nil => rfl
  | cons line ls ih =>
    rw [List.foldl_cons, ih, contentLen_scanLine, List.filter_cons]
    by_cases hline : istartsWith line kContentLength = true
    · rw [if_pos hline, if_pos hline, List.getLast?_cons]
      cases (ls.filter (istartsWith · kContentLength)).getLast? with
      | none => rfl
      | some last => rfl
    · rw [if_neg hline, if_neg hline]

/-- A complete response without chunks has the body that its last Content-Length line announces. -/
theorem Completes.body {fuel : Nat} {buf : List UInt8} {r : HttpResponseView} (h : Completes fuel buf r)
    (hsized : announcesChunked buf = false) {line : List UInt8} (hline : line ∈ (lengthLines buf).getLast?) :
    ∃ start, r.body = some (start,
      if announced line % wordSize = wordMax then 0 else announced line % wordSize) := by
  obtain ⟨hcomplete, c, hparsed⟩ := h
  unfold parseHttpResponse at hparsed
  split at hparsed
  · cases hparsed
    cases hcomplete
  · cases hparsed
  · next bodyStart status scan hhead =>
    obtain ⟨hscan, hchunked⟩ := parseHead_scan hhead
    have hlen : scan.contentLen = announced line % wordSize := by
      rw [hscan, foldl_contentLen_eq, ← parseDecLoop_lengthText]
      change (((lengthLines buf).getLast?.map _).getD _) = _
      rw [Option.mem_def.mp hline]
      rfl
    rw [hchunked, hsized, if_neg Bool.false_ne_true, hlen] at hparsed
    unfold parseSized at hparsed
    generalize (if announced line % wordSize = wordMax then 0 else announced line % wordSize) = len at hparsed ⊢
    dsimp only at hparsed
    split at hparsed
    · cases hparsed
      cases hcomplete
    · cases hparsed
      exact ⟨bodyStart, rfl⟩

theorem lengthsExact_iff (fuel : Nat) (buf : List UInt8) :
    LengthsExact fuel buf ↔ ∀ r, Completes fuel buf r → (∀ line ∈ lengthLines buf, announced line < wordSize) ∧
      (announcesChunked buf = false → ∀ line ∈ (lengthLines buf).getLast?, announced line ≠ wordMax) := by
  constructor
  · intro h r hr
    have hread {line : List UInt8} (hline : line ∈ lengthLines buf) : announced line % wordSize = announced line :=
      (parseDecLoop_lengthText line).symm.trans (h.read r hr line hline)
    refine ⟨fun line hline => hread hline ▸ Nat.mod_lt _ (by decide), fun hsized line hline hmax => ?_⟩
    obtain ⟨start, hused⟩ := h.used r hr hsized line hline
    obtain ⟨start', hbody⟩ := hr.body hsized hline
    rw [hbody, hmax] at hused
    cases hused
  · intro h
    refine ⟨fun r hr line hline => ?_, fun r hr hsized line hline => ?_⟩
    · rw [parseDecLoop_lengthText, Nat.mod_eq_of_lt ((h r hr).1 line hline)]
    · obtain ⟨start, hbody⟩ := hr.body hsized hline
      have hlt := (h r hr).1 line (List.mem_of_getLast? hline)
      rw [Nat.mod_eq_of_lt hlt, if_neg ((h r hr).2 hsized line hline)] at hbody
      exact ⟨start, hbody⟩

/-- **Length fields.** `parse_hex` reads a line exactly, or rejects it, unless the line has an extension but no size or a
size above a word. The Content-Length fields of a complete response are read and used exactly if none of them is above
a word and the one that counts is not `SIZE_MAX`. -/
theorem lengths_read_iff (s : List UInt8) (fuel : Nat) (buf : List UInt8) :
    (parseHex s = hexLength s ↔ ¬ Misread s) ∧
    (LengthsExact fuel buf ↔ ∀ r, Completes fuel buf r → (∀ line ∈ lengthLines buf, announced line < wordSize) ∧
      (announcesChunked buf = false → ∀ line ∈ (lengthLines buf).getLast?, announced line ≠ wordMax)) :=
  ⟨parseHex_eq_iff s, lengthsExact_iff fuel buf⟩

/-- A body of `2 ^ 64 + 1` bytes is announced, and one byte is there. -/
def wrappedReply : List UInt8 := ascii "HTTP/1.1 200 OK\r\nContent-Length: 18446744073709551617\r\n\r\nA"

theorem wrappedReply_completes : Completes 0 wrappedReply ⟨true, 200, some (57, 1), 58⟩ := by
  obtain ⟨c, hparsed, -⟩ := @Outcome.ret_of_view (parseHttpResponse 0 wrappedReply)
    ⟨true, 200, some (57, 1), 58⟩ [65] (by decide)
  exact ⟨rfl, c, hparsed⟩

/-- An extension alone and a size of seventeen digits are read as the size zero, and a response is complete with the
first of `2 ^ 64 + 1` bytes. -/
theorem wrapped_not_exact :
    (parseHex (ascii ";x") = 0 ∧ hexLength (ascii ";x") = wordMax) ∧
    (parseHex (ascii "10000000000000000") = 0 ∧ hexLength (ascii "10000000000000000") = wordMax) ∧
    Completes 0 wrappedReply ⟨true, 200, some (57, 1), 58⟩ ∧ ¬ LengthsExact 0 wrappedReply := by
  refine ⟨by decide, by decide, wrappedReply_completes, fun h => ?_⟩
  have hread := h.read _ wrappedReply_completes (ascii "Content-Length: 18446744073709551617") (by decide)
  exact absurd hread (by decide)

end Lepton.Http

import Lepton.HttpExact
import Lepton.HttpProgress
import Mathlib.Data.List.TakeWhile

/-! Which complete chunked responses carry a well-formed body. The decoding loop reads a size line, moves
as many bytes as it announces and skips two more, without looking at them. A body it accepts is well
formed exactly when none of the lines on its way takes one of four ways past it: a size the parser rejects,
a size without digits, a size above a 64-bit word, and data with no CRLF behind it. -/

namespace Lepton.Http

open Words Search

/-- Text without a CRLF; a lone CR or LF may occur. -/
def OneLine (text : List UInt8) : Prop := find text crlf 0 = none

instance : DecidablePred OneLine := fun text => inferInstanceAs (Decidable (find text crlf 0 = none))

/-- The size line of a chunk of `n` bytes: at least one hex digit and an optional extension led by `;`. -/
def Announces (line : List UInt8) (n : Nat) : Prop :=
  ∃ digits ext, line = digits ++ ext ∧ digits ≠ [] ∧ (∀ c ∈ digits, (hexDigit c).isSome = true) ∧
    (ext = [] ∨ ext.head? = some 59) ∧ digitsValue 16 hexDigit digits = n

/-- The text is a well-formed chunked body with these chunks. -/
inductive WellChunked : List UInt8 → List (List UInt8) → Prop
  | last {line : List UInt8} {trailers : List (List UInt8)} (oneLine : OneLine line) (zero : Announces line 0)
      (trailer : ∀ l ∈ trailers, l ≠ [] ∧ OneLine l) :
      WellChunked (line ++ (crlf ++ (joinLines trailers ++ crlf))) []
  | chunk {line data rest : List UInt8} {chunks : List (List UInt8)} (oneLine : OneLine line)
      (size : Announces line data.length) (nonempty : data ≠ []) (more : WellChunked rest chunks) :
      WellChunked (line ++ (crlf ++ (data ++ (crlf ++ rest)))) (data :: chunks)

/-! ### Size lines -/

/-- The hex digits a size line starts with. -/
def sizeDigits (line : List UInt8) : List UInt8 := line.takeWhile fun c => (hexDigit c).isSome

theorem sizeDigits_hex (line : List UInt8) : ∀ c ∈ sizeDigits line, (hexDigit c).isSome = true :=
  fun _ hc => List.mem_takeWhile_imp (p := fun c => (hexDigit c).isSome) hc

theorem sizeDigits_append {digits ext : List UInt8} (hhex : ∀ c ∈ digits, (hexDigit c).isSome = true)
    (hext : ext = [] ∨ ext.head? = some 59) : sizeDigits (digits ++ ext) = digits := by
  have hstop : ext.takeWhile (fun c => (hexDigit c).isSome) = [] := by
    rcases hext with rfl | hext
    · rfl
    · obtain ⟨rest, rfl⟩ := List.head?_eq_some_iff.mp hext
      rfl
  rw [sizeDigits, List.takeWhile_append_of_pos hhex, hstop, List.append_nil]

/-- A byte that is neither a digit nor `;` behind the digits makes the size malformed. -/
theorem parseHexLoop_junk (digits rest : List UInt8) (hhex : ∀ c ∈ digits, (hexDigit c).isSome = true)
    {c : UInt8} (hc : hexDigit c = none) (hsemi : c ≠ 59) (v : Nat) :
    parseHexLoop v (digits ++ c :: rest) = wordMax := by
  induction digits generalizing v with
  | nil => rw [List.nil_append, parseHexLoop, hc, if_neg hsemi]
  | cons d digits ih =>
    obtain ⟨k, hk⟩ := Option.isSome_iff_exists.mp (hhex d List.mem_cons_self)
    rw [List.cons_append, parseHexLoop, hk]
    exact ih (fun c hc => hhex c (List.mem_cons_of_mem _ hc)) _

/-- A size the parser does not reject is a string of digits, up to an extension. -/
theorem parseHex_ext {line : List UInt8} (hform : parseHex line ≠ wordMax) :
    ∃ ext, line = sizeDigits line ++ ext ∧ (ext = [] ∨ ext.head? = some 59) := by
  refine ⟨line.dropWhile fun c => (hexDigit c).isSome, List.takeWhile_append_dropWhile.symm, ?_⟩
  cases hext : line.dropWhile fun c => (hexDigit c).isSome with
  | nil => exact Or.inl rfl
  | cons c rest =>
    refine Or.inr ?_
    by_contra hsemi
    have hc : hexDigit c = none := by
      have hhead := List.head?_dropWhile_not (fun c => (hexDigit c).isSome) line
      rw [hext] at hhead
      exact Option.not_isSome_iff_eq_none.mp (by simpa using hhead)
    have hline : line = sizeDigits line ++ c :: rest := by
      rw [← hext]
      exact List.takeWhile_append_dropWhile.symm
    refine hform ?_
    rw [parseHex, if_neg (by rw [hline]; simp), hline]
    exact parseHexLoop_junk _ _ (sizeDigits_hex line) hc (fun h => hsemi (congrArg some h)) 0

theorem Announces.parseHex_eq {line : List UInt8} {n : Nat} (h : Announces line n) :
    parseHex line = n % wordSize ∧ sizeDigits line ≠ [] ∧ digitsValue 16 hexDigit (sizeDigits line) = n := by
  obtain ⟨digits, ext, rfl, hne, hhex, hext, rfl⟩ := h
  rw [sizeDigits_append hhex hext]
  refine ⟨?_, hne, rfl⟩
  rw [parseHex, if_neg fun hnil => hne (List.append_eq_nil_iff.mp hnil).1, parseHexLoop_digits _ _ hhex hext]
  exact foldl_mod 16 hexDigit digits 0

theorem parseHex_announces {line : List UInt8} (hform : parseHex line ≠ wordMax) (hdigits : sizeDigits line ≠ [])
    (hfit : digitsValue 16 hexDigit (sizeDigits line) < wordSize) : Announces line (parseHex line) := by
  obtain ⟨ext, hline, hext⟩ := parseHex_ext hform
  have h : Announces line (digitsValue 16 hexDigit (sizeDigits line)) :=
    ⟨sizeDigits line, ext, hline, hdigits, sizeDigits_hex line, hext, rfl⟩
  have hvalue := h.parseHex_eq.1
  rw [Nat.mod_eq_of_lt hfit] at hvalue
  rw [hvalue]
  exact h

/-! ### The ways past the decoder -/

/-- The chunk at `rp` is malformed, and the decoding loop does not mind. -/
inductive Escapes (buf : List UInt8) (rp : Nat) : Prop
  | malformed {lineEnd : Nat} (line : find buf crlf rp = some lineEnd)
      (size : parseHex (slice buf rp (lineEnd - rp)) = wordMax)
  | digitless {lineEnd : Nat} (line : find buf crlf rp = some lineEnd)
      (size : sizeDigits (slice buf rp (lineEnd - rp)) = [])
  | overflow {lineEnd : Nat} (line : find buf crlf rp = some lineEnd)
      (size : wordSize ≤ digitsValue 16 hexDigit (sizeDigits (slice buf rp (lineEnd - rp))))
  | unterminated {lineEnd c : Nat} (line : SizeLine buf rp lineEnd c)
      (skipped : ¬ OccursAt buf crlf (lineEnd + 2 + c))

/-- A line that announces its size, with the CRLF behind the data, escapes in none of the four ways. -/
theorem not_escapes {buf : List UInt8} {rp lineEnd n : Nat} (hline : find buf crlf rp = some lineEnd)
    (hsize : Announces (slice buf rp (lineEnd - rp)) n) (hn : n < wordMax)
    (hterm : n ≠ 0 → OccursAt buf crlf (lineEnd + 2 + n)) : ¬ Escapes buf rp := by
  obtain ⟨hparse, hdigits, hvalue⟩ := hsize.parseHex_eq
  have hlt : n < wordSize := hn.trans (by decide)
  rw [Nat.mod_eq_of_lt hlt] at hparse
  intro hesc
  cases hesc with
  | malformed line size =>
    cases hline.symm.trans line
    omega
  | digitless line size =>
    cases hline.symm.trans line
    exact hdigits size
  | overflow line size =>
    cases hline.symm.trans line
    omega
  | unterminated line skipped =>
    cases hline.symm.trans line.line
    cases hparse.symm.trans line.size
    exact skipped (hterm line.nonempty)

theorem announces_of_not_escapes {buf : List UInt8} {rp lineEnd : Nat} (hline : find buf crlf rp = some lineEnd)
    (h : ¬ Escapes buf rp) :
    Announces (slice buf rp (lineEnd - rp)) (parseHex (slice buf rp (lineEnd - rp))) :=
  parseHex_announces (fun hmax => h (.malformed hline hmax)) (fun hnil => h (.digitless hline hnil))
    (not_le.mp fun hbig => h (.overflow hline hbig))

/-! ### Well-formed bodies do not escape -/

theorem find_oneLine (pre : List UInt8) {line : List UInt8} (hline : OneLine line) (rest : List UInt8) :
    find (pre ++ (line ++ (crlf ++ rest))) crlf pre.length = some (pre.length + line.length) :=
  find_append_of_none hline (by decide) pre rest

theorem WellChunked.not_escapes {text : List UInt8} {chunks : List (List UInt8)} (h : WellChunked text chunks)
    (pre suffix : List UInt8) (hbuf : (pre ++ (text ++ suffix)).length < 2 ^ 63) :
    ∀ x, Hops (pre ++ (text ++ suffix)) pre.length x → ¬ Escapes (pre ++ (text ++ suffix)) x := by
  induction h generalizing pre with
  | @last line trailers oneLine zero trailer =>
    intro x hx
    simp only [List.append_assoc] at hx ⊢
    have hfind := find_oneLine pre oneLine (joinLines trailers ++ (crlf ++ suffix))
    have hslice := slice_append pre line (crlf ++ (joinLines trailers ++ (crlf ++ suffix)))
    rw [← Nat.add_sub_cancel_left (n := pre.length) (m := line.length)] at hslice
    rcases hx.cases_head with rfl | ⟨y, ⟨lineEnd, c, hl, -, -⟩, -⟩
    · refine Http.not_escapes hfind (n := 0) ?_ (by decide) (fun hne => absurd rfl hne)
      rw [hslice]
      exact zero
    · -- a zero size is not hopped over
      cases hfind.symm.trans hl.line
      have hsize := hl.size
      rw [hslice, zero.parseHex_eq.1] at hsize
      exact absurd hsize.symm hl.nonempty
  | @chunk line data rest chunks oneLine size nonempty more ih =>
    intro x hx
    have hassoc : pre ++ (line ++ (crlf ++ (data ++ (crlf ++ rest))) ++ suffix) =
        pre ++ (line ++ (crlf ++ (data ++ (crlf ++ (rest ++ suffix))))) := by
      simp only [List.append_assoc]
    rw [hassoc] at hx hbuf ⊢
    have hfind := find_oneLine pre oneLine (data ++ (crlf ++ (rest ++ suffix)))
    have hslice := slice_append pre line (crlf ++ (data ++ (crlf ++ (rest ++ suffix))))
    rw [← Nat.add_sub_cancel_left (n := pre.length) (m := line.length)] at hslice
    have hlen : data.length < 2 ^ 63 := by
      simp only [List.length_append] at hbuf
      omega
    rcases hx.cases_head with rfl | ⟨y, ⟨lineEnd, c, hl, hy, -⟩, hrest⟩
    · refine Http.not_escapes hfind (n := data.length) ?_ (by simp only [wordMax]; omega) (fun _ => ?_)
      · rw [hslice]
        exact size
      · unfold OccursAt
        have hpre : pre.length + line.length + 2 + data.length = (pre ++ line ++ crlf ++ data).length := by
          simp only [List.length_append]
          rfl
        have hsplit : pre ++ (line ++ (crlf ++ (data ++ (crlf ++ (rest ++ suffix))))) =
            pre ++ line ++ crlf ++ data ++ (crlf ++ (rest ++ suffix)) := by
          simp only [List.append_assoc]
        rw [hpre, hsplit, List.drop_left]
        exact List.prefix_append _ _
    · cases hfind.symm.trans hl.line
      have hsize := hl.size
      rw [hslice, size.parseHex_eq.1, Nat.mod_eq_of_lt (by simp only [wordSize]; omega)] at hsize
      subst hsize
      have hsplit : pre ++ (line ++ (crlf ++ (data ++ (crlf ++ (rest ++ suffix))))) =
          (pre ++ (line ++ (crlf ++ (data ++ crlf)))) ++ (rest ++ suffix) := by
        simp only [List.append_assoc]
      have hnext : y = (pre ++ (line ++ (crlf ++ (data ++ crlf)))).length := by
        have htwo : crlf.length = 2 := rfl
        simp only [List.length_append, htwo] at hbuf ⊢
        rw [hy, Nat.mod_eq_of_lt (by simp only [wordSize]; omega)]
        omega
      rw [hsplit] at hrest hbuf ⊢
      rw [hnext] at hrest
      exact ih _ hbuf x hrest

/-! ### Accepted bodies -/

theorem slice_crlf {s : List UInt8} {i k : Nat} (h : OccursAt s crlf i) (hk : i + 2 ≤ k) :
    slice s i (k - i) = crlf ++ slice s (i + 2) (k - (i + 2)) := by
  have htwo : i + 2 - i = 2 := Nat.add_sub_cancel_left i 2
  obtain ⟨rest, hrest⟩ := h
  have hcrlf : slice s i 2 = crlf := by
    rw [slice, ← hrest]
    rfl
  rw [slice_split s (Nat.le_add_right i 2) hk, htwo, hcrlf]

/-- CRLF CRLF is one CRLF behind another. -/
theorem occursAt_crlfcrlf {s : List UInt8} {i : Nat} :
    OccursAt s crlfcrlf i ↔ OccursAt s crlf i ∧ OccursAt s crlf (i + 2) := by
  unfold OccursAt
  constructor
  · rintro ⟨rest, hrest⟩
    refine ⟨⟨crlf ++ rest, hrest⟩, ⟨rest, ?_⟩⟩
    rw [← List.drop_drop, ← hrest]
    rfl
  · rintro ⟨⟨rest, hrest⟩, ⟨rest', hrest'⟩⟩
    refine ⟨rest', ?_⟩
    rw [← List.drop_drop, ← hrest] at hrest'
    rw [← hrest, show rest = crlf ++ rest' from hrest'.symm]
    rfl

/-- Between the CRLF at `pos` and the first empty line behind it stand the trailer lines. -/
theorem trailers_of_find {s : List UInt8} {pos term : Nat} (hpos : OccursAt s crlf pos)
    (hterm : find s crlfcrlf pos = some term) :
    ∃ trailers, (∀ l ∈ trailers, l ≠ [] ∧ OneLine l) ∧ slice s (pos + 2) (term - pos) = joinLines trailers := by
  -- each round takes the line that ends at the next CRLF
  induction hd : term - pos using Nat.strong_induction_on generalizing pos with
  | _ d ih =>
    subst hd
    obtain ⟨hle, hin, hocc, hfirst⟩ := find_eq_some.mp hterm
    obtain ⟨hat, hbehind⟩ := occursAt_crlfcrlf.mp hocc
    rcases Nat.eq_or_lt_of_le hle with rfl | hlt
    · exact ⟨[], by simp, by rw [Nat.sub_self]; rfl⟩
    have hstep : pos + 2 ≤ term := by
      -- the LF of the CRLF at `pos` starts no CRLF
      by_contra hnear
      obtain rfl : term = pos + 1 := by omega
      obtain ⟨rest, hrest⟩ := hpos
      unfold OccursAt at hat
      rw [← List.drop_drop, ← hrest] at hat
      exact absurd (List.cons_prefix_cons.mp hat).1 (by decide)
    obtain ⟨eol, heol⟩ : ∃ eol, find s crlf (pos + 2) = some eol := by
      cases hfind : find s crlf (pos + 2) with
      | none => exact absurd hat (find_eq_none.mp hfind term hstep hin)
      | some eol => exact ⟨eol, rfl⟩
    obtain ⟨heolLe, -, heolOcc, heolFirst⟩ := find_eq_some.mp heol
    have heolTerm : eol ≤ term := by
      by_contra hpast
      exact heolFirst term hstep (by omega) hat
    have hmore : pos + 2 < eol := by
      refine lt_of_le_of_ne heolLe fun heq => ?_
      exact hfirst pos le_rfl hlt (occursAt_crlfcrlf.mpr ⟨hpos, heq ▸ heolOcc⟩)
    obtain ⟨trailers, hlines, htext⟩ :=
      ih (term - eol) (by omega) heolOcc (find_from_later hterm (by omega) heolTerm) rfl
    have hline : (slice s (pos + 2) (eol - (pos + 2))).length = eol - (pos + 2) :=
      slice_length (by omega)
    refine ⟨slice s (pos + 2) (eol - (pos + 2)) :: trailers, ?_, ?_⟩
    · intro l hl
      rcases List.mem_cons.mp hl with rfl | hl
      · refine ⟨fun hnil => ?_, find_slice (by decide) heol⟩
        rw [hnil, List.length_nil] at hline
        omega
      · exact hlines l hl
    · have hwhole : term - pos = term + 2 - (pos + 2) := by omega
      have hrest : term + 2 - (eol + 2) = term - eol := by omega
      rw [hwhole, slice_split s heolLe (by omega), slice_crlf heolOcc (by omega), hrest, htext, joinLines_cons]

/-- When the decoding loop completes a response at a line that is not malformed, it is a zero chunk with its
terminator. -/
theorem decodeStep_complete {buf b c : List UInt8} {bodyStart status rp wp : Nat} {r : HttpResponseView}
    (hbuf : buf.length < 2 ^ 63) (h : Agrees buf b bodyStart rp wp)
    (hstep : decodeStep bodyStart status b rp wp = .stop (.ret r c)) (hdone : r.complete = true)
    (hclean : ¬ Escapes buf rp) :
    c = b ∧ ∃ lineEnd term, find buf crlf rp = some lineEnd ∧ parseHex (slice buf rp (lineEnd - rp)) = 0 ∧
      find buf crlfcrlf lineEnd = some term ∧ r.body = some (bodyStart, wp - bodyStart) ∧ r.consumed = term + 4 := by
  unfold decodeStep at hstep
  rw [h.find_eq le_rfl] at hstep
  cases hline : find buf crlf rp with
  | none =>
    rw [hline] at hstep
    cases hstep
    cases hdone
  | some lineEnd =>
    have hbounds := find_bounds hline
    rw [hline] at hstep
    simp only [h.slice_eq, h.find_eq hbounds.1] at hstep
    by_cases hmax : parseHex (slice buf rp (lineEnd - rp)) = wordMax
    · exact absurd (.malformed hline hmax) hclean
    rw [if_neg hmax] at hstep
    by_cases hzero : parseHex (slice buf rp (lineEnd - rp)) = 0
    · rw [if_pos hzero] at hstep
      cases hterm : find buf crlfcrlf lineEnd with
      | none =>
        rw [hterm] at hstep
        cases hstep
        cases hdone
      | some term =>
        rw [hterm] at hstep
        cases hstep
        have hend := (find_bounds hterm).2
        have hfour : crlfcrlf.length = 4 := rfl
        have hbehind := h.behind
        have hinside := h.inside
        have hsub : sub wp bodyStart = wp - bodyStart :=
          sub_of_le (by simp only [wordSize]; omega) h.started
        have hadd : add term 4 = term + 4 := add_of_lt (by simp only [wordSize]; omega)
        exact ⟨rfl, lineEnd, term, rfl, hzero, hterm, by rw [hsub], hadd⟩
    · rw [if_neg hzero] at hstep
      split_ifs at hstep
      · cases hstep
        cases hdone
      · split at hstep
        · cases hstep
        · cases hstep

/-- The last chunk with its trailers, from its size line to the end of the empty line. -/
theorem wellChunked_last {buf : List UInt8} {rp lineEnd term : Nat} (hline : find buf crlf rp = some lineEnd)
    (hclean : ¬ Escapes buf rp) (hzero : parseHex (slice buf rp (lineEnd - rp)) = 0)
    (hterm : find buf crlfcrlf lineEnd = some term) : WellChunked (slice buf rp (term + 4 - rp)) [] := by
  obtain ⟨hle, -, hocc, -⟩ := find_eq_some.mp hline
  obtain ⟨hlast, -, htermOcc, -⟩ := find_eq_some.mp hterm
  obtain ⟨trailers, htrailers, htext⟩ := trailers_of_find hocc hterm
  have hmid : term + 2 - (lineEnd + 2) = term - lineEnd := by omega
  have hend : slice buf (term + 2) (term + 4 - (term + 2)) = crlf := by
    rw [slice_crlf (occursAt_crlfcrlf.mp htermOcc).2 le_rfl, Nat.sub_self]
    rfl
  have hwhole : slice buf rp (term + 4 - rp) =
      slice buf rp (lineEnd - rp) ++ (crlf ++ (joinLines trailers ++ crlf)) := by
    rw [slice_split buf hle (show lineEnd ≤ term + 4 by omega), slice_crlf hocc (by omega),
      slice_split buf (show lineEnd + 2 ≤ term + 2 by omega) (show term + 2 ≤ term + 4 by omega), hmid, htext, hend]
  have hsize := announces_of_not_escapes hline hclean
  rw [hzero] at hsize
  rw [hwhole]
  exact .last (find_slice (by decide) hline) hsize htrailers

/-- A chunk in front of a well-formed rest. -/
theorem wellChunked_chunk {buf : List UInt8} {rp lineEnd n stop : Nat} {chunks : List (List UInt8)}
    (hl : SizeLine buf rp lineEnd n) (hfits : lineEnd + 2 + n + 2 ≤ buf.length) (hclean : ¬ Escapes buf rp)
    (hstop : lineEnd + 2 + n + 2 ≤ stop)
    (hmore : WellChunked (slice buf (lineEnd + 2 + n + 2) (stop - (lineEnd + 2 + n + 2))) chunks) :
    WellChunked (slice buf rp (stop - rp)) (slice buf (lineEnd + 2) n :: chunks) := by
  obtain ⟨hle, -, hocc, -⟩ := find_eq_some.mp hl.line
  have hterm : OccursAt buf crlf (lineEnd + 2 + n) := by
    by_contra hskipped
    exact hclean (.unterminated hl hskipped)
  have hmid : lineEnd + 2 + n - (lineEnd + 2) = n := by omega
  have hlen : (slice buf (lineEnd + 2) n).length = n := slice_length (by omega)
  rw [slice_split buf hle (show lineEnd ≤ stop by omega), slice_crlf hocc (by omega),
    slice_split buf (show lineEnd + 2 ≤ lineEnd + 2 + n by omega) (show lineEnd + 2 + n ≤ stop by omega), hmid,
    slice_crlf hterm hstop]
  refine .chunk (find_slice (by decide) hl.line) ?_ (fun hnil => ?_) hmore
  · rw [hlen, ← hl.size]
    exact announces_of_not_escapes hl.line hclean
  · rw [hnil, List.length_nil] at hlen
    exact hl.nonempty hlen.symm

/-- What the decoding loop has left to read is well formed when no line on its way escapes, and what it adds
to the decoded bytes is the data of the chunks. -/
theorem decodeRun_wellChunked {buf : List UInt8} (hbuf : buf.length < 2 ^ 63) {bodyStart status : Nat}
    {r : HttpResponseView} {c : List UInt8} (hdone : r.complete = true) {fuel rp wp : Nat} {b : List UInt8}
    (h : Agrees buf b bodyStart rp wp) (hrun : decodeRun bodyStart status fuel b rp wp = .ret r c)
    (hclean : ∀ x, Hops buf rp x → ¬ Escapes buf x) :
    rp ≤ r.consumed ∧ ∃ chunks, WellChunked (slice buf rp (r.consumed - rp)) chunks ∧
      r.bodyBytes c = slice b bodyStart (wp - bodyStart) ++ chunks.flatten := by
  induction fuel generalizing rp wp b with
  | zero => cases hrun
  | succ fuel ih =>
    rw [decodeRun] at hrun
    cases hstep : decodeStep bodyStart status b rp wp with
    | stop out =>
      rw [hstep] at hrun
      subst hrun
      obtain ⟨rfl, lineEnd, term, hline, hzero, hterm, hbody, hconsumed⟩ :=
        decodeStep_complete hbuf h hstep hdone (hclean rp .refl)
      have hle := (find_bounds hline).1
      have hlast := (find_bounds hterm).1
      refine ⟨by omega, [], ?_, ?_⟩
      · rw [hconsumed]
        exact wellChunked_last hline (hclean rp .refl) hzero hterm
      · rw [HttpResponseView.bodyBytes, hbody, List.flatten_nil, List.append_nil]
    | next b' rp' wp' =>
      rw [hstep] at hrun
      have hhop := decodeStep_next_hop hbuf h hstep
      obtain ⟨lineEnd, n, hl, hnext, hfits⟩ := id hhop
      have hsmall : lineEnd + 2 + n + 2 < wordSize := by
        by_contra hbig
        rw [decodeStep_oversize status hbuf h hhop ⟨lineEnd, n, hl, by omega⟩] at hstep
        cases hstep
      rw [Nat.mod_eq_of_lt hsmall] at hnext
      subst hnext
      obtain ⟨moved, hmove, hstep', hagree⟩ := decodeStep_sizeLine status hbuf h hl hfits
      cases hstep'.symm.trans hstep
      obtain ⟨hmore, chunks, hchunks, hbytes⟩ := ih hagree hrun fun x hx => hclean x (.head hhop hx)
      have hle := (find_bounds hl.line).1
      refine ⟨by omega, _, wellChunked_chunk hl hfits (hclean rp .refl) hmore hchunks, ?_⟩
      -- the data is moved from behind the read cursor, where nothing has been written yet
      have hdata : slice b (lineEnd + 2) n = slice buf (lineEnd + 2) n := by
        have hskip : lineEnd + 2 = rp + (lineEnd + 2 - rp) := by omega
        rw [slice, slice, hskip, ← List.drop_drop, ← List.drop_drop, h.rest]
      have hstarted := h.started
      have hgrown : wp + n - bodyStart = wp - bodyStart + n := by omega
      rw [hbytes, hgrown, memmove_slice hmove hstarted, hdata, List.flatten_cons, List.append_assoc]

/-! ### Complete responses -/

/-- `parse_http_response` reports success: the header block announces a chunked body with a 2xx status, and
the response is complete with a 2xx status. -/
structure ChunkedSuccess (buf : List UInt8) (fuel bodyStart : Nat) (r : HttpResponseView) (c : List UInt8) : Prop where
  head : ∃ status scan, parseHead buf = .ready bodyStart status scan ∧ scan.chunked = true ∧
    200 ≤ status ∧ status ≤ 299
  parsed : parseHttpResponse fuel buf = .ret r c
  complete : r.complete = true
  success : 200 ≤ r.status ∧ r.status ≤ 299

/-- The bytes from `bodyStart` to `consumed` are a chunked body, and the response shows its chunks. -/
def Genuine (buf : List UInt8) (bodyStart : Nat) (r : HttpResponseView) (c : List UInt8) : Prop :=
  ∃ chunks, WellChunked (slice buf bodyStart (r.consumed - bodyStart)) chunks ∧ r.bodyBytes c = chunks.flatten

theorem ChunkedSuccess.decoded {buf : List UInt8} {fuel bodyStart : Nat} {r : HttpResponseView} {c : List UInt8}
    (h : ChunkedSuccess buf fuel bodyStart r c) :
    ∃ status, decodeRun bodyStart status fuel buf bodyStart bodyStart = .ret r c := by
  obtain ⟨status, scan, hhead, hchunked, -⟩ := h.head
  have hparsed := h.parsed
  rw [parseHttpResponse, hhead] at hparsed
  dsimp only at hparsed
  rw [if_pos hchunked, parseChunked] at hparsed
  refine ⟨status, ?_⟩
  cases hdry : dryRun buf fuel bodyStart with
  | none =>
    rw [hdry] at hparsed
    cases hparsed
  | some present =>
    rw [hdry] at hparsed
    cases present with
    | false =>
      cases hparsed
      cases h.complete
    | true => exact hparsed

/-- A chunked body that holds a line which escapes is not well formed, however far it reaches. -/
theorem genuine_not_escapes (b : Buffer) {bodyStart : Nat} (hstart : bodyStart ≤ b.bytes.length)
    {r : HttpResponseView} {c : List UInt8} (h : Genuine b.bytes bodyStart r c) :
    ∀ rp, Hops b.bytes bodyStart rp → ¬ Escapes b.bytes rp := by
  obtain ⟨chunks, hwell, -⟩ := h
  have hsplit : b.bytes = b.bytes.take bodyStart ++ (slice b.bytes bodyStart (r.consumed - bodyStart) ++
      (b.bytes.drop bodyStart).drop (r.consumed - bodyStart)) := by
    rw [slice, List.take_append_drop, List.take_append_drop]
  have hlen : (b.bytes.take bodyStart).length = bodyStart := List.length_take_of_le hstart
  have hclean := hwell.not_escapes (b.bytes.take bodyStart)
    ((b.bytes.drop bodyStart).drop (r.consumed - bodyStart)) (hsplit ▸ b.small)
  rwa [← hsplit, hlen] at hclean

/-- A chunked response reported as a success has a well-formed body, and shows its data, exactly when no size
line on the way of the decoding loop escapes. -/
theorem chunkedSuccess_genuine_iff (b : Buffer) {fuel bodyStart : Nat} {r : HttpResponseView} {c : List UInt8}
    (h : ChunkedSuccess b.bytes fuel bodyStart r c) :
    Genuine b.bytes bodyStart r c ↔ ∀ rp, Hops b.bytes bodyStart rp → ¬ Escapes b.bytes rp := by
  obtain ⟨status, scan, hhead, -, -⟩ := h.head
  obtain ⟨-, -, -, hstart⟩ := parseHead_ready b.small hhead
  refine ⟨genuine_not_escapes b hstart, fun hclean => ?_⟩
  obtain ⟨status, hrun⟩ := h.decoded
  obtain ⟨-, chunks, hwell, hbytes⟩ :=
    decodeRun_wellChunked b.small h.complete ⟨rfl, rfl, le_rfl, le_rfl, hstart⟩ hrun hclean
  refine ⟨chunks, hwell, ?_⟩
  rw [hbytes, Nat.sub_self]
  rfl

/-- A returned response with the bytes it shows. -/
def Outcome.view : Outcome → Option (HttpResponseView × List UInt8)
  | .ret r c => some (r, r.bodyBytes c)
  | .fault => none
  | .spinning => none

theorem Outcome.ret_of_view {out : Outcome} {r : HttpResponseView} {body : List UInt8}
    (h : out.view = some (r, body)) : ∃ c, out = .ret r c ∧ r.bodyBytes c = body := by
  cases out with
  | ret r' c =>
    cases h
    exact ⟨c, rfl, rfl⟩
  | fault => cases h
  | spinning => cases h

/-- A chunk with an extension, the last chunk and a trailer. -/
def trailerReply : Buffer :=
  ⟨ascii "HTTP/1.1 200 OK\r\nTransfer-Encoding: chunked\r\n\r\n3;x=1\r\nabc\r\n0\r\nA: b\r\n\r\n", by decide⟩

theorem trailerReply_wellChunked : WellChunked (slice trailerReply.bytes 47 (70 - 47)) [ascii "abc"] := by
  have htext : slice trailerReply.bytes 47 (70 - 47) = ascii "3;x=1" ++ (crlf ++ (ascii "abc" ++ (crlf ++
      (ascii "0" ++ (crlf ++ (joinLines [ascii "A: b"] ++ crlf)))))) := by
    decide
  rw [htext]
  refine .chunk (by decide) ⟨ascii "3", ascii ";x=1", by decide +kernel⟩ (by decide) ?_
  exact .last (by decide) ⟨ascii "0", [], by decide +kernel⟩ (by decide)

theorem trailerReply_genuine_iff :
    ∃ r c, ChunkedSuccess trailerReply.bytes 3 47 r c ∧ r.bodyBytes c = ascii "abc" ∧
      Genuine trailerReply.bytes 47 r c ∧ ∀ rp, Hops trailerReply.bytes 47 rp → ¬ Escapes trailerReply.bytes rp := by
  obtain ⟨c, hparsed, hbytes⟩ := @Outcome.ret_of_view (parseHttpResponse 3 trailerReply.bytes)
    ⟨true, 200, some (47, 3), 70⟩ (ascii "abc") (by decide)
  have hsuccess : ChunkedSuccess trailerReply.bytes 3 47 ⟨true, 200, some (47, 3), 70⟩ c :=
    ⟨⟨200, ⟨true, wordMax⟩, by decide⟩, hparsed, rfl, by decide⟩
  have hgenuine : Genuine trailerReply.bytes 47 ⟨true, 200, some (47, 3), 70⟩ c :=
    ⟨[ascii "abc"], trailerReply_wellChunked, hbytes.trans (by decide)⟩
  exact ⟨_, c, hsuccess, hbytes, hgenuine, (chunkedSuccess_genuine_iff trailerReply hsuccess).mp hgenuine⟩

/-- The size line is not a number. -/
def sizelessReply : Buffer :=
  ⟨ascii "HTTP/1.1 200 OK\r\nTransfer-Encoding: chunked\r\n\r\nXYZ\r\n", by decide⟩

/-- The data of the first chunk is longer than announced. -/
def overlongReply : Buffer :=
  ⟨ascii "HTTP/1.1 200 OK\r\nTransfer-Encoding: chunked\r\n\r\n3\r\nabcde0\r\n\r\n", by decide⟩

/-- Both are reported as complete with status 200: the first with no body and the whole buffer consumed, the
second with the announced bytes. -/
theorem malformed_not_genuine :
    (∃ r c, ChunkedSuccess sizelessReply.bytes 1 47 r c ∧ r.bodyBytes c = [] ∧
      ¬ Genuine sizelessReply.bytes 47 r c) ∧
    (∃ r c, ChunkedSuccess overlongReply.bytes 2 47 r c ∧ r.bodyBytes c = ascii "abc" ∧
      ¬ Genuine overlongReply.bytes 47 r c) := by
  constructor
  · obtain ⟨c, hparsed, hbytes⟩ := @Outcome.ret_of_view (parseHttpResponse 1 sizelessReply.bytes)
      ⟨true, 200, none, 52⟩ [] (by decide)
    refine ⟨_, c, ⟨⟨200, ⟨true, wordMax⟩, by decide⟩, hparsed, rfl, by decide⟩, hbytes, fun hgenuine => ?_⟩
    refine genuine_not_escapes sizelessReply (by decide) hgenuine 47 .refl ?_
    exact @Escapes.malformed _ _ 50 (by decide) (by decide)
  · obtain ⟨c, hparsed, hbytes⟩ := @Outcome.ret_of_view (parseHttpResponse 2 overlongReply.bytes)
      ⟨true, 200, some (47, 3), 60⟩ (ascii "abc") (by decide)
    refine ⟨_, c, ⟨⟨200, ⟨true, wordMax⟩, by decide⟩, hparsed, rfl, by decide⟩, hbytes, fun hgenuine => ?_⟩
    refine genuine_not_escapes overlongReply (by decide) hgenuine 47 .refl ?_
    have hline : SizeLine overlongReply.bytes 47 48 3 :=
      ⟨by decide, by decide, by decide, by decide⟩
    exact .unterminated hline (by unfold OccursAt; decide)

end Lepton.Http

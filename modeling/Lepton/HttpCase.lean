import Lepton.HttpExact
import Mathlib.Data.List.Forall2
import Mathlib.Data.List.Infix

/-! Letter case. Whatever `parse_http_response` looks for in a response, it finds at the same places in another one that
differs in the case of letters only: delimiters are no letters, names are folded before they are compared, and digits have
no case or are read in both. The one exception is the word `chunked` in the value of Transfer-Encoding: two spellings of
a header are framed alike for every body exactly when both have it in small letters, or neither has. -/

namespace Lepton.Http

open Words Search

/-- The same text up to the case of letters. -/
def Alike (s t : List UInt8) : Prop := s.map lower = t.map lower

instance (s t : List UInt8) : Decidable (Alike s t) := inferInstanceAs (Decidable (_ = _))

section Letters

theorem lower_lower (c : UInt8) : lower (lower c) = lower c := by
  revert c
  apply forall_byte
  decide +kernel

/-- A byte below the letters is its own and nobody else's small letter. -/
theorem lower_eq_iff {n : UInt8} (hn : n < 65) (c : UInt8) : lower c = n ↔ c = n := by
  have hall (c : UInt8) : (lower c < 65 → lower c = c) ∧ (c < 65 → lower c = c) := by
    revert c
    apply forall_byte
    decide +kernel
  constructor
  · rintro rfl
    exact ((hall c).1 hn).symm
  · rintro rfl
    exact (hall c).2 hn

theorem hexDigit_lower (c : UInt8) : hexDigit (lower c) = hexDigit c := by
  revert c
  apply forall_byte
  decide +kernel

theorem decDigit_lower (c : UInt8) : decDigit (lower c) = decDigit c := by
  revert c
  apply forall_byte
  decide +kernel

end Letters

section Reading

variable {s t : List UInt8}

theorem prefix_map_lower {pat : List UInt8} (hpat : ∀ c ∈ pat, c < 65) (s : List UInt8) : pat <+: s.map lower ↔ pat <+: s := by
  induction pat generalizing s with
  | nil => exact iff_of_true List.nil_prefix List.nil_prefix
  | cons c pat ih =>
    cases s with
    | nil => rfl
    | cons d s =>
      rw [List.map_cons, List.cons_prefix_cons, List.cons_prefix_cons, ih fun e he => hpat e (List.mem_cons_of_mem c he),
        eq_comm, lower_eq_iff (hpat c List.mem_cons_self), eq_comm]

theorem indexOf_map_lower {pat : List UInt8} (hpat : ∀ c ∈ pat, c < 65) (s : List UInt8) (i : Nat) :
    indexOf pat (s.map lower) i = indexOf pat s i := by
  induction s generalizing i with
  | nil => rfl
  | cons c s ih =>
    have hiff := prefix_map_lower hpat (c :: s)
    rw [List.map_cons] at hiff ⊢
    rw [indexOf, indexOf, ih]
    simp only [hiff]

theorem Alike.length_eq (h : Alike s t) : s.length = t.length := by
  have hlen := congrArg List.length h
  rwa [List.length_map, List.length_map] at hlen

theorem Alike.take (h : Alike s t) (n : Nat) : Alike (s.take n) (t.take n) := by
  rw [Alike, List.map_take, h, ← List.map_take]

theorem Alike.drop (h : Alike s t) (n : Nat) : Alike (s.drop n) (t.drop n) := by
  rw [Alike, List.map_drop, h, ← List.map_drop]

theorem Alike.of_slice (h : Alike s t) (pos n : Nat) : Alike (slice s pos n) (slice t pos n) :=
  (h.drop pos).take n

theorem Alike.append {s' t' : List UInt8} (h : Alike s t) (h' : Alike s' t') : Alike (s ++ s') (t ++ t') := by
  rw [Alike, List.map_append, h, h', ← List.map_append]

theorem Alike.find_eq (h : Alike s t) {pat : List UInt8} (hpat : pat.all (· < 65) = true) (pos : Nat) :
    find s pat pos = find t pat pos := by
  have hbelow : ∀ c ∈ pat, c < 65 := fun c hc => of_decide_eq_true (List.all_eq_true.mp hpat c hc)
  rw [find, find, h.length_eq, ← indexOf_map_lower hbelow (s.drop pos), h.drop pos, indexOf_map_lower hbelow]

theorem istartsWith_map_lower (s needle : List UInt8) : istartsWith (s.map lower) needle = istartsWith s needle := by
  induction s generalizing needle with
  | nil => rfl
  | cons c s ih =>
    cases needle with
    | nil => rfl
    | cons n needle => rw [List.map_cons, istartsWith, istartsWith, lower_lower, ih]

theorem Alike.istartsWith_eq (h : Alike s t) (needle : List UInt8) : istartsWith s needle = istartsWith t needle := by
  rw [← istartsWith_map_lower s, h, istartsWith_map_lower]

theorem parseHexLoop_map_lower (v : Nat) (s : List UInt8) : parseHexLoop v (s.map lower) = parseHexLoop v s := by
  induction s generalizing v with
  | nil => rfl
  | cons c s ih =>
    rw [List.map_cons, parseHexLoop, parseHexLoop, hexDigit_lower]
    cases hexDigit c with
    | some d => exact ih _
    | none => simp only [lower_eq_iff (by decide : (59 : UInt8) < 65)]

theorem Alike.parseHex_eq (h : Alike s t) : parseHex s = parseHex t := by
  have hnil : s = [] ↔ t = [] := by
    rw [← List.length_eq_zero_iff, ← List.length_eq_zero_iff, h.length_eq]
  rw [parseHex, parseHex, ← parseHexLoop_map_lower 0 s, h, parseHexLoop_map_lower]
  simp only [hnil]

theorem trimFront_map_lower (s : List UInt8) : trimFront (s.map lower) = (trimFront s).map lower := by
  induction s with
  | nil => rfl
  | cons c s ih =>
    rw [List.map_cons, trimFront, trimFront, ih]
    simp only [lower_eq_iff (by decide : (32 : UInt8) < 65)]
    split
    · rfl
    · rfl

theorem parseDecLoop_map_lower (n : Nat) (s : List UInt8) : parseDecLoop n (s.map lower) = parseDecLoop n s := by
  induction s generalizing n with
  | nil => rfl
  | cons c s ih =>
    rw [List.map_cons, parseDecLoop, parseDecLoop, decDigit_lower]
    cases decDigit c with
    | some d => exact ih _
    | none => rfl

theorem lines_map_lower (s : List UInt8) : lines (s.map lower) = (lines s).map (List.map lower) := by
  have hcr (c d : UInt8) : lower c = 13 ∧ lower d = 10 ↔ c = 13 ∧ d = 10 := by
    rw [lower_eq_iff (by decide), lower_eq_iff (by decide)]
  induction s using lines.induct with
  | case1 => rfl
  | case2 c => rfl
  | case3 c d rest hcrlf ih =>
    rw [List.map_cons, List.map_cons, lines, if_pos ((hcr c d).mpr hcrlf), ih, lines, if_pos hcrlf]
    rfl
  | case4 c d rest hcrlf ih =>
    rw [List.map_cons] at ih
    rw [List.map_cons, List.map_cons, lines, if_neg fun h => hcrlf ((hcr c d).mp h), ih, lines, if_neg hcrlf]
    cases lines (d :: rest) with
    | nil => rfl
    | cons line more => rfl

theorem Alike.forall_lines (h : Alike s t) : List.Forall₂ Alike (lines s) (lines t) := by
  have hmap := lines_map_lower s
  rw [h, lines_map_lower t] at hmap
  have hequal : List.Forall₂ (· = ·) ((lines s).map (List.map lower)) ((lines t).map (List.map lower)) := by
    rw [List.forall₂_eq_eq_eq]
    exact hmap.symm
  rw [List.forall₂_map_left_iff, List.forall₂_map_right_iff] at hequal
  exact hequal

end Reading

/-! The header block. -/

/-- A Transfer-Encoding line with the word `chunked`, spelled so. -/
def chunkedLine (line : List UInt8) : Bool :=
  istartsWith line kTransferEncoding && (find (line.drop kTransferEncoding.length) (ascii "chunked") 0).isSome

/-- The lines of the header block. -/
def headLines (buf : List UInt8) : List (List UInt8) :=
  match find buf crlfcrlf 0 with
  | none => []
  | some hdrEnd => lines (slice buf 0 (add hdrEnd 2))

/-- The header block announces a chunked body, in small letters. -/
def announcesChunked (buf : List UInt8) : Bool :=
  match find buf crlfcrlf 0 with
  | none => false
  | some hdrEnd => (lines (slice buf 0 (add hdrEnd 2))).any chunkedLine

/-- A line is not of both names. -/
theorem not_both {line : List UInt8} (h : istartsWith line kContentLength = true) :
    istartsWith line kTransferEncoding = false := by
  have hlen : kContentLength = 99 :: ascii "ontent-length:" := by decide
  have henc : kTransferEncoding = 116 :: ascii "ransfer-encoding:" := by decide
  cases line with
  | nil => rfl
  | cons c line =>
    rw [hlen, istartsWith, Bool.and_eq_true, beq_iff_eq] at h
    rw [henc, istartsWith, h.1]
    rfl

theorem scanLine_chunked (scan : HeaderScan) (line : List UInt8) :
    (scanLine scan line).chunked = (scan.chunked || chunkedLine line) := by
  unfold scanLine chunkedLine
  split
  · next hlen =>
    rw [not_both hlen, Bool.false_and, Bool.or_false]
  · split
    · next henc =>
      rw [henc, Bool.true_and]
      split
      · next hword => rw [hword, Bool.or_true]
      · next hword => rw [Bool.eq_false_iff.mpr hword, Bool.or_false]
    · next henc => rw [Bool.eq_false_iff.mpr henc, Bool.false_and, Bool.or_false]

theorem scanLine_contentLen {scan scan' : HeaderScan} (hscan : scan.contentLen = scan'.contentLen) {line line' : List UInt8}
    (h : Alike line line') : (scanLine scan line).contentLen = (scanLine scan' line').contentLen := by
  have hvalue : parseDecLoop 0 (trimFront (line.drop kContentLength.length)) =
      parseDecLoop 0 (trimFront (line'.drop kContentLength.length)) := by
    rw [← parseDecLoop_map_lower, ← trimFront_map_lower, h.drop, trimFront_map_lower, parseDecLoop_map_lower]
  have hother (scan : HeaderScan) (line : List UInt8) :
      (if istartsWith line kTransferEncoding then
        if (find (line.drop kTransferEncoding.length) (ascii "chunked") 0).isSome then { scan with chunked := true } else scan
      else scan).contentLen = scan.contentLen := by
    split
    · split
      · rfl
      · rfl
    · rfl
  unfold scanLine
  rw [h.istartsWith_eq kContentLength]
  split
  · exact hvalue
  · rw [hother, hother, hscan]

theorem foldl_contentLen {ls ls' : List (List UInt8)} (h : List.Forall₂ Alike ls ls') {scan scan' : HeaderScan}
    (hscan : scan.contentLen = scan'.contentLen) :
    (ls.foldl scanLine scan).contentLen = (ls'.foldl scanLine scan').contentLen := by
  induction h generalizing scan scan' with
  | nil => exact hscan
  | cons hline _ ih => exact ih (scanLine_contentLen hscan hline)

theorem foldl_chunked (ls : List (List UInt8)) (scan : HeaderScan) :
    (ls.foldl scanLine scan).chunked = (scan.chunked || ls.any chunkedLine) := by
  induction ls generalizing scan with
  | nil => exact (Bool.or_false _).symm
  | cons line ls ih => rw [List.foldl_cons, ih, scanLine_chunked, List.any_cons, Bool.or_assoc]

/-- The status is read from three bytes, in whatever case. -/
theorem statusOf_map_lower (o1 o2 o3 : Option UInt8) (f : Nat → Head) :
    (match o1.map lower, o2.map lower, o3.map lower with
      | some c1, some c2, some c3 => f (statusOf c1 c2 c3)
      | _, _, _ => .fault) =
      match o1, o2, o3 with
      | some c1, some c2, some c3 => f (statusOf c1 c2 c3)
      | _, _, _ => .fault := by
  cases o1 with
  | none => rfl
  | some c1 =>
    cases o2 with
    | none => rfl
    | some c2 =>
      cases o3 with
      | none => rfl
      | some c3 => simp only [Option.map_some, statusOf, decDigit_lower]

section Responses

variable {b b' : List UInt8}

theorem Alike.getElem? (h : Alike b b') (i : Nat) : b[i]?.map lower = b'[i]?.map lower := by
  rw [← List.getElem?_map, h, List.getElem?_map]

theorem Alike.scan_eq (h : Alike b b') (hcoding : (lines b).any chunkedLine = (lines b').any chunkedLine) :
    scanHeaders b.length b 0 {} = scanHeaders b'.length b' 0 {} := by
  rw [scanHeaders_eq (Nat.sub_le _ _), scanHeaders_eq (Nat.sub_le _ _), List.drop_zero, List.drop_zero]
  have hchunked : ((lines b).foldl scanLine {}).chunked = ((lines b').foldl scanLine {}).chunked := by
    rw [foldl_chunked, foldl_chunked, hcoding]
  have hlength : ((lines b).foldl scanLine {}).contentLen = ((lines b').foldl scanLine {}).contentLen :=
    foldl_contentLen h.forall_lines rfl
  exact HeaderScan.mk.injEq .. ▸ ⟨hchunked, hlength⟩

/-- Two heads that are read in the same way. -/
theorem Alike.parseHead_eq (h : Alike b b') (hcoding : announcesChunked b = announcesChunked b') :
    parseHead b = parseHead b' := by
  have hend : find b crlfcrlf 0 = find b' crlfcrlf 0 := h.find_eq (by decide) 0
  unfold announcesChunked at hcoding
  unfold parseHead
  rw [hend] at hcoding ⊢
  cases hk : find b' crlfcrlf 0 with
  | none => rfl
  | some k =>
    rw [hk] at hcoding
    dsimp only at hcoding ⊢
    rw [h.find_eq (by decide : [(32 : UInt8)].all (· < 65) = true) 0, h.length_eq, (h.of_slice 0 (add k 2)).scan_eq hcoding]
    cases find b' [32] 0 with
    | none => rfl
    | some sp =>
      dsimp only
      split
      · rfl
      · generalize scanHeaders (slice b' 0 (add k 2)).length (slice b' 0 (add k 2)) 0 {} = scan
        have hleft := statusOf_map_lower b[sp + 1]? b[sp + 2]? b[sp + 3]? fun status => .ready (add k 4) status scan
        have hright := statusOf_map_lower b'[sp + 1]? b'[sp + 2]? b'[sp + 3]? fun status => .ready (add k 4) status scan
        rw [h.getElem?, h.getElem?, h.getElem?] at hleft
        exact hleft.symm.trans hright

/-- The dry run looks at delimiters and sizes only. -/
theorem Alike.dryRun_eq (h : Alike b b') (fuel rp : Nat) : dryRun b fuel rp = dryRun b' fuel rp := by
  have hstep (rp : Nat) : dryStep b rp = dryStep b' rp := by
    have hsize (n : Nat) : parseHex (slice b rp n) = parseHex (slice b' rp n) := (h.of_slice rp n).parseHex_eq
    have hend (pos : Nat) : find b crlfcrlf pos = find b' crlfcrlf pos := h.find_eq (by decide) pos
    have heol : find b crlf rp = find b' crlf rp := h.find_eq (by decide) rp
    unfold dryStep
    simp only [hsize, hend, heol, h.length_eq]
  induction fuel generalizing rp with
  | zero => rfl
  | succ fuel ih =>
    rw [dryRun, dryRun, hstep]
    cases dryStep b' rp with
    | stop allPresent => rfl
    | next rp' => exact ih rp'

/-- The same answer: the same verdict, status and length, and the same body. -/
def SameAnswer : Outcome → Outcome → Prop
  | .ret r c, .ret r' c' =>
    r.complete = r'.complete ∧ r.status = r'.status ∧ r.consumed = r'.consumed ∧ r.bodyBytes c = r'.bodyBytes c'
  | .fault, .fault => True
  | .spinning, .spinning => True
  | _, _ => False

instance (out out' : Outcome) : Decidable (SameAnswer out out') :=
  match out, out' with
  | .ret _ _, .ret _ _ => inferInstanceAs (Decidable (_ ∧ _ ∧ _ ∧ _))
  | .fault, .fault => .isTrue trivial
  | .spinning, .spinning => .isTrue trivial
  | .ret _ _, .fault => .isFalse id
  | .ret _ _, .spinning => .isFalse id
  | .fault, .ret _ _ => .isFalse id
  | .fault, .spinning => .isFalse id
  | .spinning, .ret _ _ => .isFalse id
  | .spinning, .fault => .isFalse id

/-- Two buffers that are the same from `start` on, and the same up to case before it. -/
structure Twins (start : Nat) (c c' : List UInt8) : Prop where
  alike : Alike c c'
  behind : c.drop start = c'.drop start

theorem Twins.sameAnswer {start : Nat} {c c' : List UInt8} (h : Twins start c c') {r : HttpResponseView}
    (hbody : ∀ view, r.body = some view → view.1 = start) : SameAnswer (.ret r c) (.ret r c') := by
  refine ⟨rfl, rfl, rfl, ?_⟩
  unfold HttpResponseView.bodyBytes
  cases hview : r.body with
  | none => rfl
  | some view =>
    rw [← hbody view hview] at h
    exact congrArg (List.take view.2) h.behind

theorem Twins.drop_eq {start : Nat} {c c' : List UInt8} (h : Twins start c c') {pos : Nat} (hpos : start ≤ pos) :
    c.drop pos = c'.drop pos := by
  obtain ⟨n, rfl⟩ := Nat.exists_eq_add_of_le hpos
  rw [← List.drop_drop, h.behind, List.drop_drop]

/-- What is moved inside the bodies keeps them equal. -/
theorem Twins.of_memmove {start : Nat} {c c' : List UInt8} (h : Twins start c c') {dst src n : Nat} (hdst : start ≤ dst)
    (hsrc : start ≤ src) {c₁ : List UInt8} (hmove : memmove c dst src n = some c₁) :
    ∃ c₁', memmove c' dst src n = some c₁' ∧ Twins start c₁ c₁' := by
  obtain ⟨hread, hwrite, rfl⟩ := memmove_eq_some hmove
  have hlen := h.alike.length_eq
  refine ⟨_, if_pos (hlen ▸ ⟨hread, hwrite⟩), ?_, ?_⟩
  · exact ((h.alike.take dst).append (h.alike.of_slice src n)).append (h.alike.drop (dst + n))
  · have hslice : slice c src n = slice c' src n := congrArg (List.take n) (h.drop_eq hsrc)
    have htake : (c.take dst).drop start = (c'.take dst).drop start := by
      rw [List.drop_take, List.drop_take, h.behind]
    have hfront (x : List UInt8) (hx : dst ≤ x.length) : start ≤ (x.take dst).length := by
      rw [List.length_take_of_le hx]
      exact hdst
    rw [List.append_assoc, List.append_assoc, List.drop_append_of_le_length (hfront c (by omega)),
      List.drop_append_of_le_length (hfront c' (by omega)), htake, hslice, h.drop_eq (by omega)]

/-- One turn of the decoding loop over twins. -/
theorem Twins.decodeStep_cases {start status rp wp : Nat} {c c' : List UInt8} (h : Twins start c c')
    (hsmall : c.length < 2 ^ 63) (hrp : start ≤ rp) (hwp : start ≤ wp) :
    (∃ r, decodeStep start status c rp wp = .stop (.ret r c) ∧ decodeStep start status c' rp wp = .stop (.ret r c') ∧
      ∀ view, r.body = some view → view.1 = start) ∨
    (decodeStep start status c rp wp = .stop .fault ∧ decodeStep start status c' rp wp = .stop .fault) ∨
    ∃ c₁ c₁' rp' wp', decodeStep start status c rp wp = .next c₁ rp' wp' ∧
      decodeStep start status c' rp wp = .next c₁' rp' wp' ∧ Twins start c₁ c₁' ∧ c₁.length = c.length ∧
      start ≤ rp' ∧ start ≤ wp' := by
  have hsize (n : Nat) : parseHex (slice c' rp n) = parseHex (slice c rp n) := (h.alike.of_slice rp n).parseHex_eq.symm
  have hend (pos : Nat) : find c' crlfcrlf pos = find c crlfcrlf pos := (h.alike.find_eq (by decide) pos).symm
  have heol : find c' crlf rp = find c crlf rp := (h.alike.find_eq (by decide) rp).symm
  have hlen := h.alike.length_eq
  unfold decodeStep
  simp only [hsize, hend, heol, ← hlen]
  cases hline : find c crlf rp with
  | none => exact Or.inl ⟨_, rfl, rfl, fun _ h => by cases h⟩
  | some lineEnd =>
    obtain ⟨hle, hfits⟩ := find_bounds hline
    have htwo : crlf.length = 2 := rfl
    have hdata : add lineEnd 2 = lineEnd + 2 := add_of_lt (by rw [wordSize]; omega)
    dsimp only
    by_cases hbad : parseHex (slice c rp (lineEnd - rp)) = wordMax
    · rw [if_pos hbad, if_pos hbad]
      exact Or.inl ⟨_, rfl, rfl, fun _ h => by cases h⟩
    · rw [if_neg hbad, if_neg hbad]
      by_cases hzero : parseHex (slice c rp (lineEnd - rp)) = 0
      · rw [if_pos hzero, if_pos hzero]
        cases find c crlfcrlf lineEnd with
        | none => exact Or.inl ⟨_, rfl, rfl, fun _ h => by cases h⟩
        | some term =>
          refine Or.inl ⟨_, rfl, rfl, ?_⟩
          rintro view hview
          cases hview
          rfl
      · rw [if_neg hzero, if_neg hzero]
        split
        · exact Or.inl ⟨_, rfl, rfl, fun _ h => by cases h⟩
        · rw [hdata]
          cases hmove : memmove c wp (lineEnd + 2) (parseHex (slice c rp (lineEnd - rp))) with
          | none =>
            have hmove' : memmove c' wp (lineEnd + 2) (parseHex (slice c rp (lineEnd - rp))) = none := by
              unfold memmove at hmove ⊢
              rw [← hlen]
              split at hmove
              · cases hmove
              · next hout => exact if_neg hout
            rw [hmove']
            exact Or.inr (Or.inl ⟨rfl, rfl⟩)
          | some c₁ =>
            obtain ⟨c₁', hmove', htwins⟩ := h.of_memmove hwp (by omega) hmove
            obtain ⟨hread, hwrite, -⟩ := memmove_eq_some hmove
            rw [hmove']
            have hrp' : add (add (lineEnd + 2) (parseHex (slice c rp (lineEnd - rp)))) 2 =
                lineEnd + 2 + parseHex (slice c rp (lineEnd - rp)) + 2 := by
              rw [Words.add_assoc]
              exact Nat.mod_eq_of_lt (by rw [wordSize]; omega)
            have hwp' : add wp (parseHex (slice c rp (lineEnd - rp))) = wp + parseHex (slice c rp (lineEnd - rp)) :=
              add_of_lt (by rw [wordSize]; omega)
            exact Or.inr (Or.inr ⟨c₁, c₁', _, _, rfl, rfl, htwins, memmove_length hmove, by omega, by omega⟩)

theorem Twins.decodeRun_sameAnswer {start status fuel rp wp : Nat} {c c' : List UInt8} (h : Twins start c c')
    (hsmall : c.length < 2 ^ 63) (hrp : start ≤ rp) (hwp : start ≤ wp) :
    SameAnswer (decodeRun start status fuel c rp wp) (decodeRun start status fuel c' rp wp) := by
  induction fuel generalizing c c' rp wp with
  | zero => trivial
  | succ fuel ih =>
    rw [decodeRun, decodeRun]
    obtain ⟨r, hstep, hstep', hbody⟩ | ⟨hstep, hstep'⟩ | ⟨c₁, c₁', rp', wp', hstep, hstep', htwins, hlen, hrp', hwp'⟩ :=
      @Twins.decodeStep_cases start status rp wp c c' h hsmall hrp hwp
    · rw [hstep, hstep']
      exact h.sameAnswer hbody
    · rw [hstep, hstep']
      trivial
    · rw [hstep, hstep']
      exact ih htwins (hlen ▸ hsmall) hrp' hwp'

end Responses

/-- Two responses that differ at most in the case of letters in front of the body. -/
structure CaseVariant (b b' : List UInt8) : Prop where
  alike : Alike b b'
  body : ∀ hdrEnd, find b crlfcrlf 0 = some hdrEnd → b.drop (hdrEnd + 4) = b'.drop (hdrEnd + 4)

/-- Variants that announce the same framing are answered alike. -/
theorem CaseVariant.sameAnswer {b b' : Buffer} (h : CaseVariant b.bytes b'.bytes)
    (hcoding : announcesChunked b.bytes = announcesChunked b'.bytes) (fuel : Nat) :
    SameAnswer (parseHttpResponse fuel b.bytes) (parseHttpResponse fuel b'.bytes) := by
  have hhead := h.alike.parseHead_eq hcoding
  unfold parseHttpResponse
  rw [← hhead]
  cases hready : parseHead b.bytes with
  | incomplete => exact ⟨rfl, rfl, rfl, rfl⟩
  | fault => trivial
  | ready bodyStart status scan =>
    obtain ⟨hdrEnd, hend, hstart, -⟩ := parseHead_ready b.small hready
    have htwins : Twins bodyStart b.bytes b'.bytes := ⟨h.alike, hstart ▸ h.body hdrEnd hend⟩
    dsimp only
    split
    · unfold parseChunked
      rw [← h.alike.dryRun_eq]
      cases dryRun b.bytes fuel bodyStart with
      | none => trivial
      | some present =>
        cases present with
        | false => exact htwins.sameAnswer nofun
        | true => exact htwins.decodeRun_sameAnswer b.small le_rfl le_rfl
    · unfold parseSized
      generalize (if scan.contentLen = wordMax then 0 else scan.contentLen) = len
      dsimp only
      rw [← h.alike.length_eq]
      split
      · exact htwins.sameAnswer nofun
      · refine htwins.sameAnswer ?_
        rintro view hview
        cases hview
        rfl

/-! ### The text of the header -/

theorem istartsWith_iff {line needle : List UInt8} :
    istartsWith line needle = true ↔ ∃ name value, line = name ++ value ∧ Alike name needle := by
  induction needle generalizing line with
  | nil => exact iff_of_true (by cases line <;> rfl) ⟨[], line, rfl, rfl⟩
  | cons n needle ih =>
    cases line with
    | nil =>
      refine iff_of_false Bool.false_ne_true ?_
      rintro ⟨name, value, hline, halike⟩
      rw [(List.append_eq_nil_iff.mp hline.symm).1] at halike
      cases halike
    | cons c line =>
      rw [istartsWith, Bool.and_eq_true, beq_iff_eq, ih]
      constructor
      · rintro ⟨hc, name, value, rfl, halike⟩
        exact ⟨c :: name, value, rfl, congrArg₂ List.cons hc halike⟩
      · rintro ⟨name, value, hline, halike⟩
        cases name with
        | nil => cases halike
        | cons d name =>
          obtain ⟨rfl, rfl⟩ := List.cons.inj hline
          obtain ⟨hc, hmore⟩ := List.cons.inj halike
          exact ⟨hc, name, value, rfl, hmore⟩

theorem isSome_find_iff {s pat : List UInt8} : (find s pat 0).isSome = true ↔ pat <:+: s := by
  constructor
  · intro hsome
    obtain ⟨k, hk⟩ := Option.isSome_iff_exists.mp hsome
    obtain ⟨-, -, hocc, -⟩ := find_eq_some.mp hk
    exact hocc.isInfix.trans (List.drop_suffix k s).isInfix
  · rintro ⟨before, behind, rfl⟩
    cases hfind : find (before ++ pat ++ behind) pat 0 with
    | some k => rfl
    | none =>
      refine absurd ?_ (find_eq_none.mp hfind before.length (Nat.zero_le _) ?_)
      · rw [OccursAt, List.append_assoc, List.drop_left]
        exact List.prefix_append _ _
      · simp only [List.length_append]
        omega

/-- A Transfer-Encoding line, its name in any case, with the word `chunked` in small letters in its value. -/
def NamesChunked (line : List UInt8) : Prop :=
  ∃ name value, line = name ++ value ∧ Alike name (ascii "Transfer-Encoding:") ∧ ascii "chunked" <:+: value

theorem chunkedLine_iff {line : List UInt8} : chunkedLine line = true ↔ NamesChunked line := by
  have hname : Alike kTransferEncoding (ascii "Transfer-Encoding:") := by decide
  rw [chunkedLine, Bool.and_eq_true, istartsWith_iff, isSome_find_iff]
  constructor
  · rintro ⟨⟨name, value, rfl, halike⟩, hword⟩
    rw [← halike.length_eq, List.drop_left] at hword
    exact ⟨name, value, rfl, halike.trans hname, hword⟩
  · rintro ⟨name, value, rfl, halike, hword⟩
    have hkey : Alike name kTransferEncoding := halike.trans hname.symm
    refine ⟨⟨name, value, rfl, hkey⟩, ?_⟩
    rwa [← hkey.length_eq, List.drop_left]

/-- The header has such a line. -/
def AnnouncesChunked (H : List UInt8) : Prop := ∃ line ∈ lines H, NamesChunked line

theorem any_chunkedLine_iff {H : List UInt8} : (lines H).any chunkedLine = true ↔ AnnouncesChunked H := by
  simp only [List.any_eq_true, chunkedLine_iff, AnnouncesChunked]

instance (H : List UInt8) : Decidable (AnnouncesChunked H) := decidable_of_iff _ any_chunkedLine_iff

/-- The lines of a header, each with its CRLF: the empty line behind them is the first one. -/
def IsHeader (H : List UInt8) : Prop := find (H ++ crlf) crlfcrlf 0 = some (H.length - 2)

instance (H : List UInt8) : Decidable (IsHeader H) := inferInstanceAs (Decidable (_ = _))

section Header

variable {H H' : List UInt8}

theorem IsHeader.find_eq (h : IsHeader H) (body : List UInt8) :
    find (H ++ crlf ++ body) crlfcrlf 0 = some (H.length - 2) ∧ H.length - 2 + 2 = H.length := by
  have hbound := (find_bounds h).2
  have hfour : crlfcrlf.length = 4 := rfl
  have htwo : crlf.length = 2 := rfl
  rw [List.length_append] at hbound
  exact ⟨find_append h body, by omega⟩

theorem IsHeader.announces_eq (h : IsHeader H) {body : List UInt8} (hsmall : (H ++ crlf ++ body).length < 2 ^ 63) :
    announcesChunked (H ++ crlf ++ body) = (lines H).any chunkedLine := by
  obtain ⟨hfind, hlen⟩ := h.find_eq body
  have hadd : add (H.length - 2) 2 = H.length := by
    rw [List.append_assoc, List.length_append] at hsmall
    rw [add_of_lt (by rw [wordSize]; omega), hlen]
  unfold announcesChunked
  rw [hfind]
  dsimp only
  rw [hadd, slice, List.drop_zero, List.append_assoc, List.take_left]

theorem Alike.isHeader (h : Alike H H') (hhead : IsHeader H) : IsHeader H' := by
  have hfind := (h.append (rfl : Alike crlf crlf)).find_eq (by decide : crlfcrlf.all (· < 65) = true) 0
  exact hfind.symm.trans (h.length_eq ▸ hhead)

theorem Alike.caseVariant (h : Alike H H') (hhead : IsHeader H) (body : List UInt8) :
    CaseVariant (H ++ crlf ++ body) (H' ++ crlf ++ body) := by
  refine ⟨(h.append rfl).append rfl, fun hdrEnd hend => ?_⟩
  obtain ⟨hfind, hlen⟩ := hhead.find_eq body
  obtain rfl : H.length - 2 = hdrEnd := Option.some.inj (hfind.symm.trans hend)
  have hstart : H.length - 2 + 4 = (H ++ crlf).length := by
    rw [List.length_append, ← hlen]
    rfl
  have hstart' : H.length - 2 + 4 = (H' ++ crlf).length := by
    rw [hstart, List.length_append, List.length_append, h.length_eq]
  rw [hstart, List.drop_left, ← hstart, hstart', List.drop_left]

end Header

/-! ### A body that tells the framings apart -/

/-- A chunked body without chunks. -/
def noChunks : ChunkedBody := ⟨[], zeroSize, zeroSize_value, []⟩

/-- The last chunk and four more bytes, for a status if the header has none. -/
def probe : List UInt8 := noChunks.rest [] ++ [32, 32, 32, 32]

section Probe

variable {head : List UInt8} {status : Nat} {scan : HeaderScan}

theorem parseHead_scan {buf : List UInt8} {bodyStart status : Nat} {scan : HeaderScan}
    (h : parseHead buf = .ready bodyStart status scan) :
    scan = (headLines buf).foldl scanLine {} ∧ scan.chunked = announcesChunked buf := by
  unfold parseHead at h
  unfold headLines announcesChunked
  cases hend : find buf crlfcrlf 0 with
  | none =>
    rw [hend] at h
    cases h
  | some hdrEnd =>
    rw [hend] at h
    dsimp only at h ⊢
    split at h
    · cases h
    · split at h
      · cases h
      · split at h
        · cases h
          rw [scanHeaders_eq (Nat.sub_le _ _), List.drop_zero]
          exact ⟨rfl, (foldl_chunked _ _).trans (Bool.false_or _)⟩
        · cases h

/-- The header is read, whatever its first line. -/
theorem parseHead_probe {k : Nat} (hend : find head crlfcrlf 0 = some k) (hk : k + 4 = head.length)
    (hsmall : head.length + 9 < 2 ^ 63) : ∃ status scan, parseHead (head ++ probe) = .ready head.length status scan := by
  have hlen : (head ++ probe).length = head.length + 9 := List.length_append
  have hocc : OccursAt (head ++ probe) [32] (head.length + 5) := by
    rw [OccursAt, ← List.drop_drop, List.drop_left]
    decide
  obtain ⟨sp, hsp, hle⟩ : ∃ sp, find (head ++ probe) [32] 0 = some sp ∧ sp ≤ head.length + 5 := by
    cases hfind : find (head ++ probe) [32] 0 with
    | none => exact absurd hocc (find_eq_none.mp hfind _ (Nat.zero_le _) (by omega))
    | some sp =>
      obtain ⟨-, -, -, hfirst⟩ := find_eq_some.mp hfind
      refine ⟨sp, rfl, Nat.le_of_not_lt fun hlt => hfirst _ (Nat.zero_le _) hlt hocc⟩
  have hfits : ¬ (head ++ probe).length < add sp 4 := by
    rw [hlen, add_of_lt (by rw [wordSize]; omega)]
    omega
  have hstart : add k 4 = head.length := by
    rw [add_of_lt (by rw [wordSize]; omega), hk]
  unfold parseHead
  rw [find_append hend, hsp]
  dsimp only
  rw [if_neg hfits, List.getElem?_eq_getElem (by omega), List.getElem?_eq_getElem (by omega),
    List.getElem?_eq_getElem (by omega), hstart]
  exact ⟨_, _, rfl⟩

/-- Read as chunks, the probe is an empty body of five bytes. -/
theorem parse_probe_chunked (hsmall : head.length + 9 < 2 ^ 63)
    (hhead : parseHead (head ++ probe) = .ready head.length status scan) (hchunked : scan.chunked = true) :
    ∃ fuel c, parseHttpResponse fuel (head ++ probe) =
      .ret { complete := true, status := status, body := some (head.length, 0), consumed := head.length + 5 } c := by
  have hlen : (head ++ (noChunks.rest [] ++ [32, 32, 32, 32])).length = head.length + 9 := List.length_append
  have hfive : (noChunks.rest []).length = 5 := by decide
  rw [probe] at hhead ⊢
  obtain ⟨n, hdry⟩ := dryRun_rest noChunks [] head [32, 32, 32, 32] (by omega) (hlen ▸ hsmall) le_rfl trivial
  rw [List.take_length, decide_eq_true (by omega)] at hdry
  obtain ⟨m, c, hrun, -⟩ := decodeRun_rest noChunks [] head [32, 32, 32, 32] status (hlen ▸ hsmall)
    ⟨rfl, rfl, le_rfl, le_rfl, by omega⟩
  refine ⟨max n m, c, ?_⟩
  unfold parseHttpResponse
  rw [hhead]
  dsimp only
  rw [if_pos hchunked, parseChunked, dryRun_mono hdry (le_max_left n m)]
  dsimp only
  rw [decodeRun_mono _ rfl (by rw [hrun]; simp) (le_max_right n m), hrun, Nat.sub_self, hfive]
  rfl

/-- Read with a length, it is not. -/
theorem parse_probe_sized (hsmall : head.length + 9 < 2 ^ 63)
    (hhead : parseHead (head ++ probe) = .ready head.length status scan) (hsized : scan.chunked = false) {fuel : Nat}
    {r : HttpResponseView} {c : List UInt8} (hcomplete : r.complete = true) (hconsumed : r.consumed = head.length + 5)
    (hbody : r.bodyBytes c = []) : ¬ SameAnswer (.ret r c) (parseHttpResponse fuel (head ++ probe)) := by
  unfold parseHttpResponse
  rw [hhead]
  dsimp only
  rw [hsized, if_neg Bool.false_ne_true]
  unfold parseSized
  generalize (if scan.contentLen = wordMax then 0 else scan.contentLen) = len
  dsimp only
  split
  · rintro ⟨hsame, -⟩
    rw [hcomplete] at hsame
    cases hsame
  · rintro ⟨-, -, hsame, hbytes⟩
    rw [hbody] at hbytes
    have hlen : slice (head ++ probe) head.length len = [] := hbytes.symm
    rw [slice, List.drop_left, List.take_eq_nil_iff] at hlen
    rcases hlen with rfl | hprobe
    · rw [hconsumed, add_of_lt (by rw [wordSize]; omega)] at hsame
      exact absurd hsame (by change head.length + 5 ≠ head.length + 0; omega)
    · exact absurd hprobe (by decide)

/-- A header that announces chunks and one that does not. -/
theorem probe_parts {head' : List UInt8} {k : Nat} (hend : find head crlfcrlf 0 = some k)
    (hend' : find head' crlfcrlf 0 = some k) (hk : k + 4 = head.length) (hlen : head.length = head'.length)
    (hsmall : head.length + 9 < 2 ^ 63) (hchunked : announcesChunked (head ++ probe) = true)
    (hsized : announcesChunked (head' ++ probe) = false) :
    ∃ fuel, ¬ SameAnswer (parseHttpResponse fuel (head ++ probe)) (parseHttpResponse fuel (head' ++ probe)) := by
  obtain ⟨status, scan, hhead⟩ := parseHead_probe hend hk hsmall
  obtain ⟨status', scan', hhead'⟩ := parseHead_probe hend' (hlen ▸ hk) (hlen ▸ hsmall)
  obtain ⟨fuel, c, hparsed⟩ := parse_probe_chunked hsmall hhead ((parseHead_scan hhead).2.trans hchunked)
  refine ⟨fuel, ?_⟩
  rw [hparsed]
  exact parse_probe_sized (hlen ▸ hsmall) hhead' ((parseHead_scan hhead').2.trans hsized) rfl (congrArg (· + 5) hlen) rfl

end Probe

theorem SameAnswer.symm {out out' : Outcome} (h : SameAnswer out out') : SameAnswer out' out := by
  cases out with
  | ret r c =>
    cases out' with
    | ret r' c' => exact ⟨h.1.symm, h.2.1.symm, h.2.2.1.symm, h.2.2.2.symm⟩
    | fault => exact h
    | spinning => exact h
  | fault =>
    cases out' with
    | ret r' c' => exact h
    | fault => exact h
    | spinning => exact h
  | spinning =>
    cases out' with
    | ret r' c' => exact h
    | fault => exact h
    | spinning => exact h

/-- **Framing and letter case.** Responses that differ in the case of header letters only are answered alike as long as the
empty line is not there; from then on they are answered alike for every body exactly when both headers have the word
`chunked` in small letters in a Transfer-Encoding line, or neither has. -/
theorem framing_caseless (H H' : List UInt8) (h : Alike H H') :
    (find H crlfcrlf 0 = none → ∀ fuel, SameAnswer (parseHttpResponse fuel H) (parseHttpResponse fuel H')) ∧
    (IsHeader H → H.length + 11 < 2 ^ 63 →
      ((∀ body fuel, (H ++ crlf ++ body).length < 2 ^ 63 →
          SameAnswer (parseHttpResponse fuel (H ++ crlf ++ body)) (parseHttpResponse fuel (H' ++ crlf ++ body))) ↔
        (AnnouncesChunked H ↔ AnnouncesChunked H'))) := by
  refine ⟨fun hnone fuel => ?_, fun hhead hroom => ⟨fun hsame => ?_, fun hcoding body fuel hsmall => ?_⟩⟩
  · have hnone' : find H' crlfcrlf 0 = none := (h.find_eq (by decide) 0).symm.trans hnone
    unfold parseHttpResponse parseHead
    rw [hnone, hnone']
    exact ⟨rfl, rfl, rfl, rfl⟩
  · have hhead' := h.isHeader hhead
    have hstart : (H ++ crlf).length = H.length + 2 := List.length_append
    have hlen : (H ++ crlf).length = (H' ++ crlf).length := (h.append rfl).length_eq
    have hfits : ((H ++ crlf) ++ probe).length < 2 ^ 63 := by
      rw [List.length_append, hstart]
      exact hroom
    have hfits' : ((H' ++ crlf) ++ probe).length < 2 ^ 63 := by
      rw [List.length_append, ← hlen, ← List.length_append]
      exact hfits
    have hend := (hhead.find_eq []).2
    have hk : H.length - 2 + 4 = (H ++ crlf).length := by omega
    have hfind' : find (H' ++ crlf) crlfcrlf 0 = some (H.length - 2) := h.length_eq ▸ hhead'
    rw [← any_chunkedLine_iff, ← any_chunkedLine_iff, ← hhead.announces_eq hfits, ← hhead'.announces_eq hfits']
    -- were one flag set and the other not, the probe would be answered in two ways
    cases hflag : announcesChunked (H ++ crlf ++ probe) with
    | true =>
      cases hflag' : announcesChunked (H' ++ crlf ++ probe) with
      | true => exact Iff.rfl
      | false =>
        obtain ⟨fuel, hparts⟩ := probe_parts hhead hfind' hk hlen (by omega) hflag hflag'
        exact absurd (hsame probe fuel hfits) hparts
    | false =>
      cases hflag' : announcesChunked (H' ++ crlf ++ probe) with
      | false => exact Iff.rfl
      | true =>
        obtain ⟨fuel, hparts⟩ := probe_parts hfind' hhead (hk.trans hlen) hlen.symm (by omega) hflag' hflag
        exact absurd (hsame probe fuel hfits).symm hparts
  · have hsmall' : (H' ++ crlf ++ body).length < 2 ^ 63 := by
      rw [← ((h.append (rfl : Alike crlf crlf)).append (rfl : Alike body body)).length_eq]
      exact hsmall
    have hflags : announcesChunked (H ++ crlf ++ body) = announcesChunked (H' ++ crlf ++ body) := by
      rw [hhead.announces_eq hsmall, (h.isHeader hhead).announces_eq hsmall', Bool.eq_iff_iff, any_chunkedLine_iff,
        any_chunkedLine_iff]
      exact hcoding
    exact @CaseVariant.sameAnswer ⟨_, hsmall⟩ ⟨_, hsmall'⟩ (h.caseVariant hhead body) hflags fuel

/-- The name in capitals: every body is read alike. -/
theorem capitals_framing_caseless :
    let H := ascii "HTTP/1.1 200 OK\r\nTRANSFER-ENCODING: chunked\r\n"
    let H' := ascii "HTTP/1.1 200 OK\r\nTransfer-Encoding: chunked\r\n"
    IsHeader H ∧ ∀ body fuel, (H ++ crlf ++ body).length < 2 ^ 63 →
      SameAnswer (parseHttpResponse fuel (H ++ crlf ++ body)) (parseHttpResponse fuel (H' ++ crlf ++ body)) := by
  intro H H'
  have hhead : IsHeader H := by decide
  have hcoding : AnnouncesChunked H ↔ AnnouncesChunked H' := by decide
  exact ⟨hhead, ((framing_caseless H H' (by decide)).2 hhead (by decide)).mpr hcoding⟩

/-- The coding in a capital: the body is taken for an empty one, and the next response is looked for in its bytes. -/
theorem capital_not_caseless :
    let b := ascii "HTTP/1.1 200 OK\r\nTransfer-Encoding: chunked\r\n\r\n3\r\nabc\r\n0\r\n\r\n"
    let b' := ascii "HTTP/1.1 200 OK\r\nTransfer-Encoding: Chunked\r\n\r\n3\r\nabc\r\n0\r\n\r\n"
    CaseVariant b b' ∧ ¬ SameAnswer (parseHttpResponse 10 b) (parseHttpResponse 10 b') := by
  intro b b'
  refine ⟨⟨by decide, fun hdrEnd hend => ?_⟩, by decide⟩
  · have hk : find b crlfcrlf 0 = some 43 := by decide
    rw [hk] at hend
    cases hend
    decide

end Lepton.Http

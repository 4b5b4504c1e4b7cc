import Lepton.HttpResponse
import Mathlib.Logic.Relation

/-! Which buffers `parse_http_response` handles inside its bounds, and on which its loops advance.
Both questions come down to the lengths the server announces: `body_start + content_len` and
`data_start + chunk_sz + 2` are 64-bit sums, and once one of them wraps, the size check that should
reject it passes. The decoding loop moves bytes only below its read cursor, so it meets the same
chunk-size lines as the dry run until a sum wraps. -/

namespace Lepton.Http

open Words Search

variable {buf : List UInt8} {n rp : Nat}

/-- A chunk-size line starts at `rp`, ends at `lineEnd` and announces `c` data bytes. -/
structure SizeLine (buf : List UInt8) (rp lineEnd c : Nat) : Prop where
  line : find buf crlf rp = some lineEnd
  size : parseHex (slice buf rp (lineEnd - rp)) = c
  wellFormed : c ≠ wordMax
  nonempty : c ≠ 0

/-- From the size line at `rp` the cursor goes to `rp'`, which the size check lets through. -/
def Hop (buf : List UInt8) (rp rp' : Nat) : Prop :=
  ∃ lineEnd c, SizeLine buf rp lineEnd c ∧ rp' = (lineEnd + 2 + c + 2) % wordSize ∧ rp' ≤ buf.length

/-- The size lines the chunk loops visit. -/
abbrev Hops (buf : List UInt8) : Nat → Nat → Prop := Relation.ReflTransGen (Hop buf)

/-- The line at `rp` ends the body: it is malformed, or a zero chunk whose terminator is present. -/
def Settles (buf : List UInt8) (rp : Nat) : Prop :=
  ∃ lineEnd, find buf crlf rp = some lineEnd ∧
    (parseHex (slice buf rp (lineEnd - rp)) = wordMax ∨
      parseHex (slice buf rp (lineEnd - rp)) = 0 ∧ (find buf crlfcrlf lineEnd).isSome)

/-- The line at `rp` announces a size whose end offset does not fit a 64-bit word. -/
def Oversize (buf : List UInt8) (rp : Nat) : Prop :=
  ∃ lineEnd c, SizeLine buf rp lineEnd c ∧ wordSize ≤ lineEnd + 2 + c + 2

theorem sizeLine_lt {lineEnd c : Nat} (h : SizeLine buf rp lineEnd c) :
    c < wordMax := by
  have hlt := parseHex_lt (slice buf rp (lineEnd - rp))
  rw [h.size] at hlt
  have hne := h.wellFormed
  simp only [wordSize, wordMax] at *
  omega

theorem sizeLine_unique {e₁ c₁ e₂ c₂ : Nat} (h₁ : SizeLine buf rp e₁ c₁)
    (h₂ : SizeLine buf rp e₂ c₂) : e₁ = e₂ ∧ c₁ = c₂ := by
  have he : e₁ = e₂ := Option.some.inj (h₁.line.symm.trans h₂.line)
  subst he
  exact ⟨rfl, h₁.size.symm.trans h₂.size⟩

/-- A line that ends the body announces no data. -/
theorem settles_no_sizeLine {lineEnd c : Nat} (hset : Settles buf rp)
    (hl : SizeLine buf rp lineEnd c) : False := by
  obtain ⟨e, hline, hcase⟩ := hset
  have he : e = lineEnd := Option.some.inj (hline.symm.trans hl.line)
  subst he
  rcases hcase with hmax | ⟨hzero, -⟩
  · exact hl.wellFormed (hl.size.symm.trans hmax)
  · exact hl.nonempty (hl.size.symm.trans hzero)

section Loops

variable {buf : List UInt8} (hbuf : buf.length < 2 ^ 63)

include hbuf

/-- The cursor arithmetic of one iteration, on a line inside the buffer. -/
theorem cursor_eq {lineEnd : Nat} (hline : find buf crlf rp = some lineEnd) (c : Nat) :
    add (add (add lineEnd 2) c) 2 = (lineEnd + 2 + c + 2) % wordSize := by
  have hbound := (find_bounds hline).2
  have hend : add lineEnd 2 = lineEnd + 2 := add_of_lt (by simp only [wordSize, crlf] at *; simp at hbound; omega)
  rw [hend, Words.add_assoc]

theorem dryStep_eq_next {rp' : Nat} : dryStep buf rp = .next rp' ↔ Hop buf rp rp' := by
  unfold dryStep Hop
  constructor
  · intro h
    split at h
    · cases h
    · rename_i lineEnd hline
      simp only [cursor_eq hbuf hline] at h
      split_ifs at h with h1 h2 h3
      cases h
      exact ⟨lineEnd, _, ⟨hline, rfl, h1, h2⟩, rfl, by omega⟩
  · rintro ⟨lineEnd, c, hl, rfl, hle⟩
    simp only [hl.line, hl.size, cursor_eq hbuf hl.line]
    rw [if_neg hl.wellFormed, if_neg hl.nonempty, if_neg (by omega)]

omit hbuf in
theorem dryStep_eq_stop_true : dryStep buf rp = .stop true ↔ Settles buf rp := by
  unfold dryStep Settles
  constructor
  · intro h
    split at h
    · cases h
    · rename_i lineEnd hline
      refine ⟨lineEnd, hline, ?_⟩
      simp only at h
      split_ifs at h with h1 h2 h3
      · exact Or.inl h1
      · exact Or.inr ⟨h2, by simpa using h⟩
      · cases h
  · rintro ⟨lineEnd, hline, hmax | ⟨hzero, hterm⟩⟩
    · simp only [hline, hmax, if_true]
    · have hne : (0 : Nat) ≠ wordMax := by decide
      simp only [hline, hzero, if_neg hne, if_true, hterm]

omit hbuf in
theorem dryRun_mono {m : Nat} {b : Bool} (h : dryRun buf n rp = some b) (hnm : n ≤ m) :
    dryRun buf m rp = some b := by
  induction n generalizing m rp with
  | zero => cases h
  | succ n ih =>
    obtain ⟨m, rfl⟩ : ∃ m', m = m' + 1 := ⟨m - 1, by omega⟩
    rw [dryRun] at h ⊢
    split at h
    · exact h
    · exact ih h (by omega)

/-- The dry run reports a complete body exactly when the visited lines reach one that settles it. -/
theorem dryRun_true_iff :
    (∃ fuel, dryRun buf fuel rp = some true) ↔ ∃ e, Hops buf rp e ∧ Settles buf e := by
  constructor
  · rintro ⟨fuel, h⟩
    induction fuel generalizing rp with
    | zero => cases h
    | succ fuel ih =>
      rw [dryRun] at h
      split at h
      · rename_i b hstep
        cases h
        exact ⟨rp, .refl, dryStep_eq_stop_true.mp hstep⟩
      · rename_i rp' hstep
        obtain ⟨e, hhops, hset⟩ := ih h
        exact ⟨e, .head ((dryStep_eq_next hbuf).mp hstep) hhops, hset⟩
  · rintro ⟨e, hhops, hset⟩
    induction hhops using Relation.ReflTransGen.head_induction_on with
    | refl => exact ⟨1, by rw [dryRun, dryStep_eq_stop_true.mpr hset]⟩
    | head hhop _ ih =>
      obtain ⟨fuel, h⟩ := ih
      exact ⟨fuel + 1, by rw [dryRun, (dryStep_eq_next hbuf).mpr hhop]; exact h⟩

omit hbuf in
theorem hop_unique {a b : Nat} (ha : Hop buf rp a) (hb : Hop buf rp b) : a = b := by
  obtain ⟨_, _, hla, rfl, -⟩ := ha
  obtain ⟨_, _, hlb, rfl, -⟩ := hb
  obtain ⟨rfl, rfl⟩ := sizeLine_unique hla hlb
  rfl

omit hbuf in
/-- The visited lines form one chain, so a settling end lies behind every line on the way. -/
theorem hops_settle {a e : Nat} (ha : Hops buf rp a) (he : Hops buf rp e) (hset : Settles buf e) :
    Hops buf a e := by
  induction ha using Relation.ReflTransGen.head_induction_on with
  | refl => exact he
  | head hhop _ ih =>
    rcases he.cases_head with rfl | ⟨b, hhop', hrest⟩
    · obtain ⟨lineEnd, c, hl, -, -⟩ := hhop
      exact (settles_no_sizeLine hset hl).elim
    · rw [hop_unique hhop' hhop] at hrest
      exact ih hrest

end Loops

/-! ### The decoding loop follows the dry run -/

theorem memmove_eq_some {buf' : List UInt8} {dst src : Nat} (h : memmove buf dst src n = some buf') :
    src + n ≤ buf.length ∧ dst + n ≤ buf.length ∧
      buf' = buf.take dst ++ slice buf src n ++ buf.drop (dst + n) := by
  unfold memmove at h
  split_ifs at h with hfit
  cases h
  exact ⟨hfit.1, hfit.2, rfl⟩

theorem memmove_length {buf' : List UInt8} {dst src : Nat} (h : memmove buf dst src n = some buf') :
    buf'.length = buf.length := by
  obtain ⟨hs, hd, rfl⟩ := memmove_eq_some h
  simp only [List.length_append, List.length_take, List.length_drop, slice_length hs]
  omega

theorem memmove_drop {buf' : List UInt8} {dst src k : Nat} (h : memmove buf dst src n = some buf')
    (hk : dst + n ≤ k) : buf'.drop k = buf.drop k := by
  obtain ⟨hs, hd, rfl⟩ := memmove_eq_some h
  have hfront : (buf.take dst ++ slice buf src n).length = dst + n := by
    rw [List.length_append, List.length_take, slice_length hs]
    omega
  rw [List.drop_append, List.drop_eq_nil_of_le (by omega), List.nil_append, hfront, List.drop_drop]
  congr 1
  omega

/-- The response is a sub-range of the buffer, its body between `bodyStart` and `consumed`. -/
structure SubRange (buf : List UInt8) (bodyStart : Nat) (r : HttpResponseView) : Prop where
  consumed_le : r.consumed ≤ buf.length
  body_le : ∀ off len, r.body = some (off, len) → bodyStart ≤ off ∧ off + len ≤ r.consumed

/-- The decoding buffer agrees with the received one from the read cursor on, and the write cursor
has not passed it. -/
structure Agrees (buf b : List UInt8) (bodyStart rp wp : Nat) : Prop where
  length : b.length = buf.length
  rest : b.drop rp = buf.drop rp
  started : bodyStart ≤ wp
  behind : wp ≤ rp
  inside : rp ≤ buf.length

section Decode

variable {buf b : List UInt8} {bodyStart rp wp : Nat} (status : Nat)

theorem Agrees.find_eq (h : Agrees buf b bodyStart rp wp) {pat : List UInt8} {pos : Nat} (hpos : rp ≤ pos) :
    find b pat pos = find buf pat pos := by
  apply find_congr_drop h.length
  obtain ⟨d, rfl⟩ := Nat.exists_eq_add_of_le hpos
  rw [← List.drop_drop, ← List.drop_drop, h.rest]

theorem Agrees.slice_eq (h : Agrees buf b bodyStart rp wp) (n : Nat) : slice b rp n = slice buf rp n := by
  rw [slice, slice, h.rest]

/-- On a line that settles the body, the decoding loop completes inside the buffer. -/
theorem decodeStep_settles (hbuf : buf.length < 2 ^ 63) (h : Agrees buf b bodyStart rp wp)
    (hset : Settles buf rp) :
    ∃ r, decodeStep bodyStart status b rp wp = .stop (.ret r b) ∧ r.complete = true ∧
      SubRange buf bodyStart r := by
  obtain ⟨lineEnd, hline, hcase⟩ := hset
  have hpos := (find_bounds hline).1
  unfold decodeStep
  rw [h.find_eq le_rfl, hline]
  simp only [h.slice_eq, h.find_eq hpos]
  rcases hcase with hmax | ⟨hzero, hterm⟩
  · rw [if_pos hmax]
    refine ⟨_, rfl, rfl, ⟨?_, ?_⟩⟩
    · exact h.length.le
    · intro off len hbody
      cases hbody
  · obtain ⟨term, hterm⟩ := Option.isSome_iff_exists.mp hterm
    have hbound := find_bounds hterm
    have hfour : crlfcrlf.length = 4 := rfl
    rw [hfour] at hbound
    have hadd : add term 4 = term + 4 := add_of_lt (by simp only [wordSize]; omega)
    have hbehind := h.behind
    have hstarted := h.started
    have hsub : sub wp bodyStart = wp - bodyStart :=
      sub_of_le (by simp only [wordSize]; omega) hstarted
    rw [hzero, if_neg (by decide), if_pos rfl, hterm]
    refine ⟨_, rfl, rfl, ⟨?_, ?_⟩⟩
    · simpa only [hadd] using hbound.2
    · intro off len hbody
      cases hbody
      change bodyStart ≤ bodyStart ∧ bodyStart + sub wp bodyStart ≤ add term 4
      rw [hadd, hsub]
      omega

/-- On a size line that fits, the decoding loop moves the chunk down and stays in agreement. -/
theorem decodeStep_sizeLine (hbuf : buf.length < 2 ^ 63) (h : Agrees buf b bodyStart rp wp)
    {lineEnd c : Nat} (hl : SizeLine buf rp lineEnd c) (hle : lineEnd + 2 + c + 2 ≤ buf.length) :
    ∃ b', memmove b wp (lineEnd + 2) c = some b' ∧
      decodeStep bodyStart status b rp wp = .next b' (lineEnd + 2 + c + 2) (wp + c) ∧
      Agrees buf b' bodyStart (lineEnd + 2 + c + 2) (wp + c) := by
  have hsmall : lineEnd + 2 + c + 2 < wordSize := by
    simp only [wordSize]
    omega
  have hbound := find_bounds hl.line
  have hbehind := h.behind
  have hstarted := h.started
  have hlen := h.length
  have hadd : add lineEnd 2 = lineEnd + 2 := add_of_lt (by omega)
  have hfits : lineEnd + 2 + c ≤ b.length ∧ wp + c ≤ b.length := by omega
  obtain ⟨b', hmove⟩ : ∃ b', memmove b wp (lineEnd + 2) c = some b' := ⟨_, if_pos hfits⟩
  refine ⟨b', hmove, ?_, ⟨(memmove_length hmove).trans hlen, ?_, by omega, by omega, hle⟩⟩
  · unfold decodeStep
    rw [h.find_eq le_rfl, hl.line]
    simp only [h.slice_eq, hl.size, cursor_eq hbuf hl.line, Nat.mod_eq_of_lt hsmall]
    rw [if_neg hl.wellFormed, if_neg hl.nonempty, if_neg (by omega), hadd, hmove,
      add_of_lt (show wp + c < wordSize by omega)]
  · obtain ⟨d, hd⟩ := Nat.exists_eq_add_of_le (show rp ≤ lineEnd + 2 + c + 2 by omega)
    rw [memmove_drop hmove (by omega), hd, ← List.drop_drop, ← List.drop_drop, h.rest]

/-- A hop that does not wrap is one iteration of the decoding loop, and goes forward. -/
theorem decodeStep_hop (hbuf : buf.length < 2 ^ 63) (h : Agrees buf b bodyStart rp wp) {rp' : Nat}
    (hhop : Hop buf rp rp') (hfit : ¬ Oversize buf rp) :
    ∃ b' wp', decodeStep bodyStart status b rp wp = .next b' rp' wp' ∧ Agrees buf b' bodyStart rp' wp' := by
  obtain ⟨lineEnd, c, hl, rfl, hle⟩ := hhop
  have hsmall : lineEnd + 2 + c + 2 < wordSize := by
    by_contra hbig
    exact hfit ⟨lineEnd, c, hl, by omega⟩
  rw [Nat.mod_eq_of_lt hsmall] at hle ⊢
  obtain ⟨b', -, hstep, hagree⟩ := decodeStep_sizeLine status hbuf h hl hle
  exact ⟨b', wp + c, hstep, hagree⟩

/-- On an oversized line that the wrapped size check lets through, the move leaves the buffer. -/
theorem decodeStep_oversize (hbuf : buf.length < 2 ^ 63) (h : Agrees buf b bodyStart rp wp) {rp' : Nat}
    (hhop : Hop buf rp rp') (hbig : Oversize buf rp) :
    decodeStep bodyStart status b rp wp = .stop .fault := by
  obtain ⟨lineEnd, c, hl, rfl, hle⟩ := hhop
  obtain ⟨_, _, hl', hwrap⟩ := hbig
  obtain ⟨rfl, rfl⟩ := sizeLine_unique hl' hl
  have hbound := find_bounds hl'.line
  have hlen := h.length
  have hadd : ∀ e, e ≤ buf.length → add e 2 = e + 2 := fun e he =>
    add_of_lt (by simp only [wordSize]; omega)
  unfold decodeStep
  rw [h.find_eq le_rfl, hl'.line]
  simp only [h.slice_eq, hl'.size, cursor_eq hbuf hl'.line]
  rw [if_neg hl'.wellFormed, if_neg hl'.nonempty, if_neg (by omega), hadd _ (by omega), memmove,
    if_neg]
  simp only [wordSize] at hwrap
  omega

theorem decodeRun_mono {m : Nat} {out : Outcome} (h : decodeRun bodyStart status n b rp wp = out)
    (hout : out ≠ .spinning) (hnm : n ≤ m) : decodeRun bodyStart status m b rp wp = out := by
  induction n generalizing m b rp wp with
  | zero => exact absurd h.symm hout
  | succ n ih =>
    obtain ⟨m, rfl⟩ : ∃ m', m = m' + 1 := ⟨m - 1, by omega⟩
    rw [decodeRun] at h ⊢
    split at h
    · exact h
    · exact ih h (by omega)

/-- A run over fitting lines up to the settling one returns, with its body inside the buffer. -/
theorem decodeRun_fits (hbuf : buf.length < 2 ^ 63) {e : Nat} (hhops : Hops buf rp e)
    (hset : Settles buf e) (hfit : ∀ x, Hops buf rp x → ¬ Oversize buf x)
    (h : Agrees buf b bodyStart rp wp) :
    ∃ fuel r b', decodeRun bodyStart status fuel b rp wp = .ret r b' ∧ r.complete = true ∧
      SubRange buf bodyStart r := by
  induction hhops using Relation.ReflTransGen.head_induction_on generalizing b wp with
  | refl =>
    obtain ⟨r, hstep, hr⟩ := decodeStep_settles status hbuf h hset
    exact ⟨1, r, b, by rw [decodeRun, hstep], hr⟩
  | head hhop _ ih =>
    obtain ⟨b', wp', hstep, hagree⟩ :=
      decodeStep_hop status hbuf h hhop (hfit _ .refl)
    obtain ⟨fuel, r, b'', hrun, hr⟩ := ih (fun x hx => hfit x (.head hhop hx)) hagree
    exact ⟨fuel + 1, r, b'', by rw [decodeRun, hstep]; exact hrun, hr⟩

/-- A run that meets an oversized line on its way moves bytes outside the buffer. -/
theorem decodeRun_faults (hbuf : buf.length < 2 ^ 63) {e x : Nat} (hx : Hops buf rp x)
    (hbig : Oversize buf x) (hhops : Hops buf rp e) (hset : Settles buf e)
    (h : Agrees buf b bodyStart rp wp) :
    ∃ fuel, decodeRun bodyStart status fuel b rp wp = .fault := by
  induction hx using Relation.ReflTransGen.head_induction_on generalizing b wp with
  | refl =>
    rcases hhops.cases_head with rfl | ⟨y, hhop, -⟩
    · obtain ⟨lineEnd, c, hl, -⟩ := hbig
      exact (settles_no_sizeLine hset hl).elim
    · exact ⟨1, by rw [decodeRun, decodeStep_oversize status hbuf h hhop hbig]⟩
  | @head rp y hhop hrest ih =>
    by_cases hnow : Oversize buf rp
    · exact ⟨1, by rw [decodeRun, decodeStep_oversize status hbuf h hhop hnow]⟩
    · obtain ⟨b', wp', hstep, hagree⟩ := decodeStep_hop status hbuf h hhop hnow
      obtain ⟨fuel, hrun⟩ := ih (hops_settle (.single hhop) hhops hset) hagree
      exact ⟨fuel + 1, by rw [decodeRun, hstep]; exact hrun⟩

end Decode

theorem parseHttpResponse_mono {m : Nat} {out : Outcome}
    (h : parseHttpResponse n buf = out) (hout : out ≠ .spinning) (hnm : n ≤ m) :
    parseHttpResponse m buf = out := by
  rw [parseHttpResponse] at h ⊢
  split at h
  · exact h
  · exact h
  · split_ifs at h ⊢
    · rw [parseChunked] at h ⊢
      split at h
      · exact absurd h.symm hout
      · rename_i hdry
        rw [dryRun_mono hdry hnm]
        exact h
      · rename_i hdry
        rw [dryRun_mono hdry hnm]
        exact decodeRun_mono _ h hout hnm
    · exact h

/-! ### The condition on the announced lengths -/

/-- Every length the response announces, as the parser reads it, ends at an offset that fits a 64-bit word: a number is
read modulo `2 ^ 64`, and the largest word stands for a length that is malformed or not there. In a chunked
response this concerns the size lines on the way to the end of the body; when no such end has
arrived, the dry run keeps the decoder from touching the buffer. -/
def LengthsFit (buf : List UInt8) : Prop :=
  ∀ bodyStart status scan, parseHead buf = .ready bodyStart status scan →
    if scan.chunked then
      ∀ rp e, Hops buf bodyStart rp → Hops buf bodyStart e → Settles buf e → ¬ Oversize buf rp
    else scan.contentLen = wordMax ∨ bodyStart + scan.contentLen < wordSize

/-- Every access lies inside the buffer, and a complete response is a sub-range of it: the body
lies between the end of the header block and `consumed`. -/
structure StaysInside (buf : List UInt8) : Prop where
  access : ∀ fuel, parseHttpResponse fuel buf ≠ .fault
  result : ∀ fuel r buf' hdrEnd, parseHttpResponse fuel buf = .ret r buf' → r.complete = true →
    find buf crlfcrlf 0 = some hdrEnd → SubRange buf (hdrEnd + 4) r

/-- What is known of the header block once it has been read. -/
theorem parseHead_ready (hbuf : buf.length < 2 ^ 63) {bodyStart status : Nat}
    {scan : HeaderScan} (h : parseHead buf = .ready bodyStart status scan) :
    ∃ hdrEnd, find buf crlfcrlf 0 = some hdrEnd ∧ bodyStart = hdrEnd + 4 ∧ bodyStart ≤ buf.length := by
  unfold parseHead at h
  split at h
  · cases h
  · rename_i hdrEnd hhdr
    have hbound := (find_bounds hhdr).2
    have hfour : crlfcrlf.length = 4 := rfl
    rw [hfour] at hbound
    have hadd : add hdrEnd 4 = hdrEnd + 4 := add_of_lt (by simp only [wordSize]; omega)
    split at h
    · cases h
    · split_ifs at h
      split at h
      · cases h
        exact ⟨hdrEnd, hhdr, hadd, by rw [hadd]; exact hbound⟩
      · cases h

/-- The three status bytes are inside the buffer, so the header part never faults. -/
theorem parseHead_ne_fault (hbuf : buf.length < 2 ^ 63) : parseHead buf ≠ .fault := by
  intro h
  unfold parseHead at h
  split at h
  · cases h
  · split at h
    · cases h
    · rename_i sp hsp
      have hbound := (find_bounds hsp).2
      have hone : ([32] : List UInt8).length = 1 := rfl
      rw [hone] at hbound
      have hadd : add sp 4 = sp + 4 := add_of_lt (by simp only [wordSize]; omega)
      rw [hadd] at h
      split_ifs at h with hshort
      have hget : ∀ i, i ≤ 3 → ∃ c, buf[sp + i]? = some c := fun i hi =>
        ⟨_, List.getElem?_eq_getElem (show sp + i < buf.length by omega)⟩
      obtain ⟨c1, h1⟩ := hget 1 (by omega)
      obtain ⟨c2, h2⟩ := hget 2 (by omega)
      obtain ⟨c3, h3⟩ := hget 3 (by omega)
      rw [h1, h2, h3] at h
      cases h

/-- A sized body is returned as a sub-range exactly when its end offset does not wrap: a wrapped end
offset passes the size check and is returned as `consumed`. -/
theorem parseSized_inside_iff {bodyStart : Nat} (hbuf : buf.length < 2 ^ 63)
    (hstart : bodyStart ≤ buf.length) (status : Nat) {contentLen : Nat} (hlen : contentLen < wordSize) :
    (∀ r buf', parseSized buf bodyStart status contentLen = .ret r buf' → r.complete = true →
      SubRange buf bodyStart r) ↔
    (contentLen = wordMax ∨ bodyStart + contentLen < wordSize) := by
  constructor
  · intro h
    by_contra hnot
    rw [not_or] at hnot
    have hwrap : add bodyStart contentLen = bodyStart + contentLen - wordSize :=
      add_of_wrap (by omega) (by simp only [wordSize] at *; omega)
    have hsub := h _ _ (by rw [parseSized, if_neg hnot.1, if_neg (by rw [hwrap]; omega)]) rfl
    have hend : bodyStart + contentLen ≤ add bodyStart contentLen :=
      (hsub.body_le bodyStart contentLen rfl).2
    have hpos : 0 < wordSize := by decide
    rw [hwrap] at hend
    omega
  · intro hfit r buf' hret hcomplete
    obtain ⟨n, hn⟩ : ∃ n, (if contentLen = wordMax then 0 else contentLen) = n := ⟨_, rfl⟩
    have hadd : add bodyStart n = bodyStart + n := by
      apply add_of_lt
      split_ifs at hn with hnone
      · simp only [wordSize]
        omega
      · exact hn ▸ hfit.resolve_left hnone
    simp only [parseSized, hn, hadd] at hret
    split_ifs at hret with hshort
    · cases hret
      cases hcomplete
    · cases hret
      refine ⟨Nat.le_of_not_lt hshort, ?_⟩
      intro off len hbody
      cases hbody
      exact ⟨le_rfl, le_rfl⟩

/-- A chunked body stays inside the buffer exactly when no line on the way to its end is oversized. -/
theorem parseChunked_inside_iff {bodyStart : Nat} (hbuf : buf.length < 2 ^ 63)
    (hstart : bodyStart ≤ buf.length) (status : Nat) :
    ((∀ fuel, parseChunked fuel buf bodyStart status ≠ .fault) ∧
      ∀ fuel r buf', parseChunked fuel buf bodyStart status = .ret r buf' → r.complete = true →
        SubRange buf bodyStart r) ↔
    ∀ rp e, Hops buf bodyStart rp → Hops buf bodyStart e → Settles buf e → ¬ Oversize buf rp := by
  have hagree : Agrees buf buf bodyStart bodyStart bodyStart := ⟨rfl, rfl, le_rfl, le_rfl, hstart⟩
  constructor
  · rintro ⟨haccess, -⟩ rp e hrp he hset hbig
    obtain ⟨n, hdry⟩ := (dryRun_true_iff hbuf).mpr ⟨e, he, hset⟩
    obtain ⟨m, hrun⟩ := decodeRun_faults status hbuf hrp hbig he hset hagree
    apply haccess (max n m)
    rw [parseChunked, dryRun_mono hdry (le_max_left n m)]
    exact decodeRun_mono status hrun (by simp) (le_max_right n m)
  · intro hfit
    have key : ∀ fuel, parseChunked fuel buf bodyStart status = .spinning ∨
        parseChunked fuel buf bodyStart status = .ret { status := status } buf ∨
        ∃ r b, parseChunked fuel buf bodyStart status = .ret r b ∧ SubRange buf bodyStart r := by
      intro fuel
      rw [parseChunked]
      cases hdry : dryRun buf fuel bodyStart with
      | none => exact Or.inl rfl
      | some present =>
        cases present with
        | false => exact Or.inr (Or.inl rfl)
        | true =>
          obtain ⟨e, he, hset⟩ := (dryRun_true_iff hbuf).mp ⟨fuel, hdry⟩
          obtain ⟨m, r, b, hrun, -, hr⟩ := decodeRun_fits status hbuf he hset
            (fun x hx => hfit x e hx he hset) hagree
          by_cases hspin : decodeRun bodyStart status fuel buf bodyStart bodyStart = .spinning
          · exact Or.inl hspin
          · refine Or.inr (Or.inr ⟨r, b, ?_, hr⟩)
            exact (decodeRun_mono status rfl hspin (le_max_left fuel m)).symm.trans
              (decodeRun_mono status hrun (by simp) (le_max_right fuel m))
    refine ⟨fun fuel hfault => ?_, fun fuel r b hret hcomplete => ?_⟩
    · rcases key fuel with h | h | ⟨r, b, h, -⟩ <;> rw [hfault] at h <;> cases h
    · rcases key fuel with h | h | ⟨r', b', h, hr⟩ <;> rw [hret] at h <;> cases h
      · cases hcomplete
      · exact hr

theorem scanLine_lt {scan : HeaderScan} (h : scan.contentLen < wordSize) (line : List UInt8) :
    (scanLine scan line).contentLen < wordSize := by
  unfold scanLine
  split_ifs
  · exact parseDecLoop_lt (by decide) _
  · exact h
  · exact h
  · exact h

theorem scanHeaders_lt (fuel : Nat) (headers : List UInt8) (pos : Nat) {scan : HeaderScan}
    (h : scan.contentLen < wordSize) : (scanHeaders fuel headers pos scan).contentLen < wordSize := by
  induction fuel generalizing pos scan with
  | zero => exact h
  | succ fuel ih =>
    rw [scanHeaders]
    split_ifs
    · split
      · exact h
      · exact ih _ (scanLine_lt h _)
    · exact h

theorem parseHead_contentLen_lt {bodyStart status : Nat} {scan : HeaderScan}
    (h : parseHead buf = .ready bodyStart status scan) : scan.contentLen < wordSize := by
  unfold parseHead at h
  split at h
  · cases h
  · split at h
    · cases h
    · split_ifs at h
      split at h
      · cases h
        exact scanHeaders_lt _ _ _ (by decide)
      · cases h

/-- **Bounds.** The parser stays inside the buffer, and reports only sub-ranges of it, exactly when
no announced length wraps. -/
theorem parseHttpResponse_staysInside_iff (buf : Buffer) :
    StaysInside buf.bytes ↔ LengthsFit buf.bytes := by
  obtain ⟨buf, hbuf⟩ := buf
  change StaysInside buf ↔ LengthsFit buf
  cases hhead : parseHead buf with
  | fault => exact absurd hhead (parseHead_ne_fault hbuf)
  | incomplete =>
    have hparse : ∀ fuel, parseHttpResponse fuel buf = .ret {} buf := fun fuel => by
      rw [parseHttpResponse, hhead]
    refine iff_of_true ⟨fun fuel h => ?_, fun fuel r b e h hcomplete => ?_⟩ fun bs st sc h => ?_
    · rw [hparse] at h
      cases h
    · rw [hparse] at h
      cases h
      cases hcomplete
    · rw [hhead] at h
      cases h
  | ready bodyStart status scan =>
    obtain ⟨hdrEnd, hhdr, rfl, hle⟩ := parseHead_ready hbuf hhead
    have hfit : LengthsFit buf ↔ if scan.chunked then
        ∀ rp e, Hops buf (hdrEnd + 4) rp → Hops buf (hdrEnd + 4) e → Settles buf e → ¬ Oversize buf rp
        else scan.contentLen = wordMax ∨ hdrEnd + 4 + scan.contentLen < wordSize := by
      refine ⟨fun h => h _ _ _ hhead, fun h bs st sc hready => ?_⟩
      rw [hhead] at hready
      cases hready
      exact h
    have hinside : StaysInside buf ↔ (∀ fuel, parseHttpResponse fuel buf ≠ .fault) ∧
        ∀ fuel r buf', parseHttpResponse fuel buf = .ret r buf' → r.complete = true →
          SubRange buf (hdrEnd + 4) r := by
      refine ⟨fun h => ⟨h.access, fun fuel r b hret hc => h.result fuel r b hdrEnd hret hc hhdr⟩,
        fun h => ⟨h.1, fun fuel r b e hret hc he => ?_⟩⟩
      rw [hhdr] at he
      cases he
      exact h.2 fuel r b hret hc
    rw [hfit, hinside]
    cases hchunked : scan.chunked with
    | true =>
      have hparse : ∀ fuel, parseHttpResponse fuel buf = parseChunked fuel buf (hdrEnd + 4) status :=
        fun fuel => by simp only [parseHttpResponse, hhead, hchunked, if_true]
      simp only [hparse, if_true]
      exact parseChunked_inside_iff hbuf hle status
    | false =>
      have hparse : ∀ fuel, parseHttpResponse fuel buf =
          parseSized buf (hdrEnd + 4) status scan.contentLen := fun fuel => by
        simp only [parseHttpResponse, hhead, hchunked, Bool.false_eq_true, if_false]
      have hret : ∀ fuel, parseHttpResponse fuel buf ≠ .fault := by
        intro fuel h
        rw [hparse, parseSized] at h
        split_ifs at h
      simp only [Bool.false_eq_true, if_false]
      rw [← parseSized_inside_iff hbuf hle status (parseHead_contentLen_lt hhead)]
      simp only [hparse] at hret ⊢
      exact ⟨fun h => h.2 0, fun h => ⟨hret, fun _ => h⟩⟩

/-- The parser keeps the size of its buffer of `n` bytes, and consumes no more than that. -/
def Outcome.InBuffer (n : Nat) : Outcome → Prop
  | .ret r buf => buf.length = n ∧ (r.complete = true → r.consumed ≤ n)
  | .fault | .spinning => True

theorem parseSized_inBuffer (buf : List UInt8) (bodyStart status contentLen : Nat) :
    (parseSized buf bodyStart status contentLen).InBuffer buf.length := by
  unfold parseSized
  dsimp only
  generalize (if contentLen = wordMax then 0 else contentLen) = len
  by_cases hroom : buf.length < add bodyStart len
  · rw [if_pos hroom]
    exact ⟨rfl, nofun⟩
  · rw [if_neg hroom]
    exact ⟨rfl, fun _ => Nat.not_lt.mp hroom⟩

def DecodeStep.InBuffer (n : Nat) : DecodeStep → Prop
  | .stop out => out.InBuffer n
  | .next buf _ _ => buf.length = n

theorem decodeStep_inBuffer (bodyStart status : Nat) (hbuf : buf.length < 2 ^ 63) (rp wp : Nat) :
    (decodeStep bodyStart status buf rp wp).InBuffer buf.length := by
  unfold decodeStep
  split
  · exact ⟨rfl, nofun⟩
  · dsimp only
    split
    · exact ⟨rfl, fun _ => Nat.le_refl _⟩
    · split
      · split
        · exact ⟨rfl, nofun⟩
        · next hterm =>
          have hbound := (find_bounds hterm).2
          have hfour : crlfcrlf.length = 4 := rfl
          rw [hfour] at hbound
          refine ⟨rfl, fun _ => ?_⟩
          dsimp only
          rw [add_of_lt (by simp only [wordSize]; omega)]
          exact hbound
      · split
        · exact ⟨rfl, nofun⟩
        · split
          · exact trivial
          · next hmove => exact memmove_length hmove

theorem decodeRun_inBuffer (bodyStart status fuel : Nat) (hbuf : buf.length < 2 ^ 63) (rp wp : Nat) :
    (decodeRun bodyStart status fuel buf rp wp).InBuffer buf.length := by
  induction fuel generalizing buf rp wp with
  | zero => exact trivial
  | succ fuel ih =>
    have hstep := decodeStep_inBuffer bodyStart status hbuf rp wp
    rw [decodeRun]
    split
    · next h =>
      rw [h] at hstep
      exact hstep
    · next buf' rp' wp' h =>
      rw [h] at hstep
      have hlength : buf'.length = buf.length := hstep
      rw [← hlength]
      exact ih (hlength ▸ hbuf) rp' wp'

/-- **What the parser consumes is in its buffer**, whatever the server has sent. -/
theorem parseHttpResponse_inBuffer (fuel : Nat) (hbuf : buf.length < 2 ^ 63) :
    (parseHttpResponse fuel buf).InBuffer buf.length := by
  unfold parseHttpResponse
  split
  · exact ⟨rfl, nofun⟩
  · exact trivial
  · split
    · unfold parseChunked
      split
      · exact trivial
      · exact ⟨rfl, nofun⟩
      · exact decodeRun_inBuffer _ _ fuel hbuf _ _
    · exact parseSized_inBuffer _ _ _ _

/-- A response of 57 bytes that announces `2 ^ 64 - 6` body bytes. -/
def overlongResponse : List UInt8 :=
  ascii "HTTP/1.1 200 OK\r\nContent-Length: 18446744073709551610\r\n\r\n"

/-- The overlong response is reported complete, with a body view that leaves the buffer. -/
theorem overlongResponse_leaves : ¬ StaysInside overlongResponse := by
  intro h
  have hparse : parseHttpResponse 0 overlongResponse = .ret
      { complete := true, status := 200, body := some (57, 18446744073709551610), consumed := 51 }
      overlongResponse := by decide
  have hhdr : find overlongResponse crlfcrlf 0 = some 53 := by decide
  have hend : 57 + 18446744073709551610 ≤ 51 :=
    ((h.result _ _ _ _ hparse rfl hhdr).body_le _ _ rfl).2
  omega

end Lepton.Http

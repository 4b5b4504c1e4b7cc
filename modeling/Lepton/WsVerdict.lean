import Lepton.HttpLines
import Lepton.WsUpgrade

/-! The verdict on an upgrade response. The status test of `validate_ws_upgrade` looks for the first space in all that was
received and compares three bytes behind it. On a first line that has its space, and a code that ends where the three
bytes end, that is the same as reading the line; otherwise a later line, or bytes behind the block, decide. -/

namespace Lepton.Ws

open Search Http

/-- A header block, up to its first empty line. -/
def Block (h : List UInt8) : Prop := ∃ k, find h crlfcrlf 0 = some k ∧ k + 4 = h.length

/-- A first line with an HTTP/1 version and the status code 101. -/
def SwitchLine (line : List UInt8) : Prop :=
  ∃ version tail, line = ascii "HTTP/1." ++ (version ++ 32 :: tail) ∧ 32 ∉ version ∧
    (tail = ascii "101" ∨ ascii "101 " <+: tail)

/-- The value of the first header line named Sec-WebSocket-Accept. -/
def acceptValue (headers : List (List UInt8)) : Option (List UInt8) :=
  (headers.find? (istartsWith · kSecWebSocketAccept)).map fun line =>
    trimBack (trimFront (line.drop kSecWebSocketAccept.length))

/-- The validator decides on the header block `h` alone, and exactly, whatever `s` follows it. -/
structure Decided (h s expected : List UInt8) : Prop where
  suffix : validateWsUpgrade (h ++ s) expected = validateWsUpgrade h expected
  whole : (validateWsUpgrade h expected).complete = true ∧ (validateWsUpgrade h expected).headersLen = h.length
  short : ∀ part, part <+: h → part ≠ h → (validateWsUpgrade part expected).complete = false
  accepted : (validateWsUpgrade h expected).accepted = true ↔
    SwitchLine ((lines h).headD []) ∧ acceptValue (lines h).tail = some expected

/-- The three bytes behind the first space are `101`. -/
def ShowsSwitch (s : List UInt8) : Prop := ∃ front rest, s = front ++ 32 :: (ascii "101" ++ rest) ∧ 32 ∉ front

/-- A response that is not mistaken for an acceptance: if its first line begins with `HTTP/1.`, in whatever case, the accept
header has the expected value and `101` follows the first space of all that was received, then the first line is one of
HTTP/1, in capitals, with its space and the code 101. -/
def Unmistaken (h s expected : List UInt8) : Prop :=
  istartsWith ((lines h).headD []) (ascii "HTTP/1.") = true → acceptValue (lines h).tail = some expected →
    ShowsSwitch (h ++ s) → SwitchLine ((lines h).headD [])

theorem acceptValue_cons (line : List UInt8) (more : List (List UInt8)) :
    acceptValue (line :: more) =
      if istartsWith line kSecWebSocketAccept then some (trimBack (trimFront (line.drop kSecWebSocketAccept.length)))
      else acceptValue more := by
  rw [acceptValue, List.find?_cons]
  cases istartsWith line kSecWebSocketAccept with
  | true => rfl
  | false => rfl

/-- The header loop is a search in the lines. -/
theorem findAccept_eq {fuel : Nat} {headers : List UInt8} {pos : Nat} (hfuel : headers.length - pos ≤ fuel) :
    findAccept fuel headers pos = acceptValue (lines (headers.drop pos)) := by
  induction fuel generalizing pos with
  | zero =>
    rw [List.drop_eq_nil_of_le (by omega)]
    rfl
  | succ fuel ih =>
    rw [findAccept]
    split
    · next hpos =>
      rw [lines_drop hpos.le]
      cases heol : find headers crlf pos with
      | none => rfl
      | some eol =>
        obtain ⟨hle, hend⟩ := find_bounds heol
        have htwo : crlf.length = 2 := rfl
        dsimp only
        rw [acceptValue_cons]
        split
        · rfl
        · exact ih (by omega)
    · next hpos =>
      rw [List.drop_eq_nil_of_le (by omega)]
      rfl

theorem find_space {front : List UInt8} (hfront : 32 ∉ front) (rest : List UInt8) :
    find (front ++ 32 :: rest) [32] 0 = some front.length := by
  have hfind := find_append_of_not_mem [] rest [] hfront
  rwa [List.nil_append, List.length_nil, Nat.zero_add] at hfind

/-- The first space parts a text. -/
theorem eq_of_find_space {s : List UInt8} {sp : Nat} (h : find s [32] 0 = some sp) :
    ∃ front rest, s = front ++ 32 :: rest ∧ 32 ∉ front ∧ front.length = sp := by
  obtain ⟨-, hle, ⟨rest, hrest⟩, -⟩ := find_eq_some.mp h
  have htext : s = s.take sp ++ 32 :: rest := by
    conv_lhs => rw [← List.take_append_drop sp s, ← hrest]
    rfl
  refine ⟨s.take sp, rest, htext, fun hmem => ?_, List.length_take_of_le hle⟩
  -- a space in front would have been found first
  obtain ⟨early, more, hearly, hfree⟩ := List.eq_append_cons_of_mem hmem
  rw [htext, hearly, List.append_assoc, List.cons_append, find_space hfree] at h
  have hlen := congrArg List.length hearly
  rw [List.length_take_of_le hle, List.length_append, List.length_cons, ← Option.some.inj h] at hlen
  omega

/-- The status test in terms of the text. -/
theorem statusIs101_eq_true_iff {s : List UInt8} :
    statusIs101 s = true ↔ istartsWith s (ascii "HTTP/1.") = true ∧ ShowsSwitch s := by
  have hthree : (ascii "101").length = 3 := by decide
  have hcode (front rest : List UInt8) : slice (front ++ 32 :: rest) (front.length + 1) 3 = rest.take 3 := by
    rw [slice, ← List.drop_drop, List.drop_left]
    rfl
  rw [statusIs101, Bool.and_eq_true]
  refine and_congr_right fun _ => ⟨fun htest => ?_, ?_⟩
  · cases hsp : find s [32] 0 with
    | none =>
      rw [hsp] at htest
      cases htest
    | some sp =>
      obtain ⟨front, rest, rfl, hfree, rfl⟩ := eq_of_find_space hsp
      rw [hsp] at htest
      dsimp only at htest
      rw [hcode, Bool.and_eq_true, beq_iff_eq] at htest
      refine ⟨front, rest.drop 3, ?_, hfree⟩
      rw [← htest.2, List.take_append_drop]
  · rintro ⟨front, rest, rfl, hfree⟩
    rw [find_space hfree]
    dsimp only
    rw [hcode, ← hthree, List.take_left, beq_self_eq_true, Bool.and_true, decide_eq_true_eq]
    simp only [List.length_append, List.length_cons]
    omega

theorem ShowsSwitch.append {s : List UInt8} (hs : ShowsSwitch s) (more : List UInt8) : ShowsSwitch (s ++ more) := by
  obtain ⟨front, rest, rfl, hfree⟩ := hs
  exact ⟨front, rest ++ more, by simp only [List.append_assoc, List.cons_append], hfree⟩

theorem SwitchLine.shows {line : List UInt8} (hline : SwitchLine line) : ShowsSwitch line := by
  obtain ⟨version, tail, rfl, hversion, hcode⟩ := hline
  have hpre : ascii "101" <+: tail := by
    obtain rfl | hcode := hcode
    · exact List.prefix_rfl
    · exact List.IsPrefix.trans (by decide) hcode
  obtain ⟨rest, rfl⟩ := hpre
  refine ⟨ascii "HTTP/1." ++ version, rest, by simp only [List.append_assoc], ?_⟩
  rw [List.mem_append]
  rintro (hmem | hmem)
  · exact absurd hmem (by decide)
  · exact hversion hmem

theorem SwitchLine.name {line : List UInt8} (hline : SwitchLine line) : istartsWith line (ascii "HTTP/1.") = true := by
  obtain ⟨version, tail, rfl, -, -⟩ := hline
  exact istartsWith_append (by decide) _

section Verdict

variable {h : List UInt8}

/-- A header block has a first line. -/
theorem Block.first_line (hblock : Block h) : ∃ line rest, h = line ++ 13 :: 10 :: rest ∧ lines h = line :: lines rest := by
  obtain ⟨k, hk, -⟩ := hblock
  obtain ⟨-, hle, hocc, -⟩ := find_eq_some.mp hk
  have hcrlf : OccursAt h crlf k := List.IsPrefix.trans ⟨crlf, rfl⟩ hocc
  cases hlines : lines h with
  | nil =>
    rw [lines_eq] at hlines
    cases hfind : find h crlf 0 with
    | none => exact absurd hcrlf (find_eq_none.mp hfind k (Nat.zero_le k) hle)
    | some j =>
      rw [hfind] at hlines
      cases hlines
  | cons line more =>
    obtain ⟨rest, htext, hmore⟩ := eq_of_lines hlines
    exact ⟨line, rest, htext, by rw [hmore]⟩

/-- What is received behind a block only matters to the status test. -/
theorem Block.validate (hblock : Block h) (s expected : List UInt8) :
    validateWsUpgrade (h ++ s) expected =
      { complete := true, headersLen := h.length
        accepted := statusIs101 (h ++ s) && acceptValue (lines h) == some expected } := by
  obtain ⟨k, hk, hend⟩ := hblock
  have hfront : (h ++ s).take (k + 4) = h := by rw [hend, List.take_left]
  rw [validateWsUpgrade, find_append hk]
  dsimp only
  rw [hfront, findAccept_eq (Nat.sub_le _ _), List.drop_zero, hend]

theorem Block.short (hblock : Block h) {part : List UInt8} (hpart : part <+: h) (hne : part ≠ h) (expected : List UInt8) :
    (validateWsUpgrade part expected).complete = false := by
  obtain ⟨k, hk, hend⟩ := hblock
  have hfour : crlfcrlf.length = 4 := rfl
  have hlen : part.length < h.length :=
    Nat.lt_of_le_of_ne hpart.length_le fun heq => hne (hpart.eq_of_length heq)
  rw [List.prefix_iff_eq_take.mp hpart, validateWsUpgrade, find_take_of_lt hk (by omega) nofun]

/-- A line of HTTP/1 is no accept header. -/
theorem not_accept_of_name {line : List UInt8} (hname : istartsWith line (ascii "HTTP/1.") = true) :
    istartsWith line kSecWebSocketAccept = false := by
  have hhttp : ascii "HTTP/1." = 72 :: ascii "TTP/1." := by decide
  have hkey : kSecWebSocketAccept = 115 :: ascii "ec-websocket-accept:" := by decide
  cases line with
  | nil => rfl
  | cons c line =>
    rw [hhttp, istartsWith, Bool.and_eq_true, beq_iff_eq] at hname
    rw [hkey, istartsWith, hname.1]
    rfl

/-- The verdict in terms of the text. -/
theorem Block.accepted_iff (hblock : Block h) (s expected : List UInt8) :
    (validateWsUpgrade (h ++ s) expected).accepted = true ↔
      istartsWith ((lines h).headD []) (ascii "HTTP/1.") = true ∧ ShowsSwitch (h ++ s) ∧
        acceptValue (lines h).tail = some expected := by
  obtain ⟨line, rest, htext, hlines⟩ := hblock.first_line
  have hfree : (ascii "HTTP/1.").all (lower · != lower 13) = true := by decide
  have hname : istartsWith (h ++ s) (ascii "HTTP/1.") = istartsWith line (ascii "HTTP/1.") := by
    rw [htext, List.append_assoc]
    exact istartsWith_append_cons (fun n hn => bne_iff_ne.mp (List.all_eq_true.mp hfree n hn)) line _
  rw [hblock.validate, hlines, List.headD_cons, List.tail_cons, Bool.and_eq_true, statusIs101_eq_true_iff, hname, beq_iff_eq,
    and_assoc]
  refine and_congr_right fun hline => ?_
  rw [acceptValue_cons, not_accept_of_name hline, if_neg Bool.false_ne_true]

/-- A first line with the code 101 shows it, whatever follows. -/
theorem Block.shows (hblock : Block h) (hline : SwitchLine ((lines h).headD [])) (s : List UInt8) : ShowsSwitch (h ++ s) := by
  obtain ⟨line, rest, htext, hlines⟩ := hblock.first_line
  rw [hlines, List.headD_cons] at hline
  rw [htext]
  exact (hline.shows.append _).append s

/-- Behind a space of a block stand three more bytes of it. -/
theorem Block.shows_of_append (hblock : Block h) (hspace : 32 ∈ h) {s : List UInt8} (hshows : ShowsSwitch (h ++ s)) :
    ShowsSwitch h := by
  obtain ⟨k, hk, hend⟩ := hblock
  obtain ⟨-, -, hocc, -⟩ := find_eq_some.mp hk
  obtain ⟨front, more, htext, hfree⟩ := List.eq_append_cons_of_mem hspace
  have htail : h.drop k = crlfcrlf := by
    refine (hocc.eq_of_length ?_).symm
    rw [List.length_drop, ← hend]
    exact (Nat.add_sub_cancel_left k 4).symm
  have hlen : 3 ≤ more.length := by
    by_contra hshort
    have hmem : (32 : UInt8) ∈ h.drop k := by
      rw [htext, List.length_append, List.length_cons] at hend
      rw [htext, List.drop_append_of_le_length (by omega)]
      exact List.mem_append_right _ List.mem_cons_self
    rw [htail] at hmem
    exact absurd hmem (by decide)
  obtain ⟨front', rest, hshown, hfree'⟩ := hshows
  have hsame := find_space hfree (more ++ s)
  rw [htext, List.append_assoc, List.cons_append] at hshown
  rw [hshown, find_space hfree'] at hsame
  obtain ⟨rfl, hrest⟩ := List.append_inj hshown (Option.some.inj hsame).symm
  have hcode : ascii "101" <+: more :=
    List.prefix_of_prefix_length_le ⟨rest, (List.cons.inj hrest).2.symm⟩ (List.prefix_append more s) hlen
  obtain ⟨rest', rfl⟩ := hcode
  exact ⟨front, rest', htext, hfree⟩

/-- **The verdict depends on the header block alone, and is right, exactly on what is not mistaken.** On the block alone:
it is so for whatever follows and is expected, exactly if a block with an accept header whose first line begins with
`HTTP/1.` has a space, and, where `101` follows its first space, a first line of HTTP/1 with the code 101. -/
theorem upgrade_decided (hblock : Block h) :
    (∀ s expected, Decided h s expected ↔ Unmistaken h s expected) ∧
    ((∀ s expected, Decided h s expected) ↔
      (istartsWith ((lines h).headD []) (ascii "HTTP/1.") = true → (acceptValue (lines h).tail).isSome = true →
        32 ∈ h ∧ (ShowsSwitch h → SwitchLine ((lines h).headD [])))) := by
  have hpoint (s expected : List UInt8) : Decided h s expected ↔ Unmistaken h s expected := by
    constructor
    · intro hdecided hname haccept hshows
      have haccepted := (hblock.accepted_iff s expected).mpr ⟨hname, hshows, haccept⟩
      rw [hdecided.suffix] at haccepted
      exact (hdecided.accepted.mp haccepted).1
    · intro hline
      have hright (s' : List UInt8) (hs' : ShowsSwitch (h ++ s') → ShowsSwitch (h ++ s)) :
          (validateWsUpgrade (h ++ s') expected).accepted = true ↔
            SwitchLine ((lines h).headD []) ∧ acceptValue (lines h).tail = some expected := by
        rw [hblock.accepted_iff]
        constructor
        · rintro ⟨hname, hshows, haccept⟩
          exact ⟨hline hname haccept (hs' hshows), haccept⟩
        · rintro ⟨hswitch, haccept⟩
          exact ⟨hswitch.name, hblock.shows hswitch s', haccept⟩
      have hempty := hright [] fun hshows => by
        rw [List.append_nil] at hshows
        exact hshows.append s
      have hvalidate := hblock.validate [] expected
      rw [List.append_nil] at hempty hvalidate
      refine ⟨?_, ?_, fun part hpart hne => hblock.short hpart hne expected, hempty⟩
      · have hsame := Bool.eq_iff_iff.mpr ((hright s id).trans hempty.symm)
        rw [hblock.validate, hvalidate] at hsame ⊢
        exact congrArg (WsUpgradeResult.mk true · h.length) hsame
      · rw [hvalidate]
        exact ⟨rfl, rfl⟩
  refine ⟨hpoint, ?_⟩
  simp only [hpoint]
  constructor
  · intro hall hname hsome
    obtain ⟨value, haccept⟩ := Option.isSome_iff_exists.mp hsome
    constructor
    · by_contra hspace
      have hswitch := hall (ascii " 101") value hname haccept ⟨h, [], rfl, hspace⟩
      obtain ⟨front, rest, hshown, -⟩ := hblock.shows hswitch []
      rw [List.append_nil] at hshown
      exact hspace (hshown ▸ List.mem_append_right _ List.mem_cons_self)
    · intro hshows
      exact hall [] value hname haccept ((List.append_nil h).symm ▸ hshows)
  · intro hline s expected hname haccept hshows
    obtain ⟨hspace, hswitch⟩ := hline hname (haccept ▸ rfl)
    exact hswitch (hblock.shows_of_append hspace hshows)

/-- An ordinary response, with a frame behind it, and a refusal in small letters. -/
theorem switching_decided :
    let h := ascii "HTTP/1.1 101 Switching Protocols\r\nUpgrade: websocket\r\nSec-WebSocket-Accept: abc \r\n\r\n"
    let refusal := ascii "http/1.1 404 Not Found\r\n\r\n"
    Decided h [0x81, 0x00] (ascii "abc") ∧ (validateWsUpgrade h (ascii "abc")).accepted = true ∧
      ∀ s expected, Decided refusal s expected := by
  intro h refusal
  have hline : Unmistaken h [0x81, 0x00] (ascii "abc") := fun _ _ _ =>
    ⟨ascii "1", ascii "101 Switching Protocols", by decide, by decide, Or.inr (by decide)⟩
  have hblock : Block h := ⟨80, by decide, by decide⟩
  have hrefusal : Block refusal := ⟨22, by decide, by decide⟩
  refine ⟨((upgrade_decided hblock).1 [0x81, 0x00] (ascii "abc")).mpr hline, by decide,
    (upgrade_decided hrefusal).2.mpr fun _ haccept => absurd haccept (by decide)⟩

/-- A first line without a space: the bytes of a frame behind the block turn the verdict. And a code of four digits is taken
for 101. -/
theorem spaceless_not_decided :
    let h := ascii "HTTP/1.1\r\nSec-WebSocket-Accept:x\r\n\r\n"
    Block h ∧ ¬ Decided h (ascii " 101") (ascii "x") ∧
      (validateWsUpgrade (ascii "HTTP/1.1 1010 OK\r\nSec-WebSocket-Accept:x\r\n\r\n") (ascii "x")).accepted = true := by
  intro h
  refine ⟨⟨32, by decide, by decide⟩, fun hdecided => ?_, by decide⟩
  exact absurd hdecided.suffix (by decide)

end Verdict

end Lepton.Ws

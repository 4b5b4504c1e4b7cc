import Lepton.WsVerdict

/-! Responses to the upgrade request: what a switch of protocols looks like on the wire, and how far
`validate_ws_upgrade` recognises it. -/

namespace Lepton.Ws

open Search Http

/-- A status line: HTTP/1.x, a code of three digits, and a reason or nothing. -/
structure StatusLine (line code : List UInt8) : Prop where
  digits : code.length = 3 ∧ ∀ c ∈ code, (decDigit c).isSome
  shape : ∃ x reason, (decDigit x).isSome ∧ (reason = [] ∨ reason.head? = some 32) ∧
    line = ascii "HTTP/1." ++ x :: 32 :: (code ++ reason)

/-- The first line of `input` is a status line with `code`. -/
def HasStatus (input code : List UInt8) : Prop :=
  ∃ line rest, input = line ++ (crlf ++ rest) ∧ find line crlf 0 = none ∧ StatusLine line code

/-- A line of the header block is an accept header with `value`. -/
def HasAccept (headers value : List UInt8) : Prop :=
  ∃ before line after, headers = before ++ (line ++ (crlf ++ after)) ∧ (before = [] ∨ crlf <:+ before) ∧
    find line crlf 0 = none ∧ istartsWith line kSecWebSocketAccept = true ∧
    trimBack (trimFront (line.drop kSecWebSocketAccept.length)) = value

/-- `input` starts with a complete header block that switches protocols: its status is 101, and it
carries the expected accept value if there is one. -/
def Switches (expected input : List UInt8) : Prop :=
  ∃ hdrEnd, find input crlfcrlf 0 = some hdrEnd ∧ HasStatus input (ascii "101") ∧
    (expected ≠ [] → HasAccept (input.take (hdrEnd + 4)) expected)

/-- A response that is not mistaken for a switch: its status is 101 if no accept value is expected, and also if it
begins with `HTTP/1.`, in whatever case, and `101` follows its first space. -/
def Proper (expected input : List UInt8) : Prop :=
  (expected = [] ∨ istartsWith input (ascii "HTTP/1.") = true ∧ ShowsSwitch input) → HasStatus input (ascii "101")

/-- The header loop returns the value of an accept header. -/
theorem hasAccept_of_findAccept {fuel : Nat} {headers value : List UInt8} {pos : Nat}
    (h : findAccept fuel headers pos = some value) (hpos : headers.take pos = [] ∨ crlf <:+ headers.take pos) :
    HasAccept headers value := by
  induction fuel generalizing pos with
  | zero => cases h
  | succ fuel ih =>
    rw [findAccept] at h
    split at h
    · split at h
      · cases h
      · next eol heol =>
        obtain ⟨hle, hend⟩ := find_bounds heol
        obtain ⟨-, -, ⟨after, hafter⟩, -⟩ := find_eq_some.mp heol
        have hsplit : headers = headers.take pos ++ (slice headers pos (eol - pos) ++ (crlf ++ after)) := by
          rw [hafter, slice]
          conv_lhs => rw [← List.take_append_drop pos headers, ← List.take_append_drop (eol - pos) (headers.drop pos)]
          rw [List.drop_drop, Nat.add_sub_cancel' hle]
        dsimp only at h
        split at h
        · next hname =>
          exact ⟨_, _, after, hsplit, hpos, find_slice (by decide) heol, hname, Option.some.inj h⟩
        · refine ih h (Or.inr ?_)
          rw [List.take_add, ← hafter]
          exact List.suffix_append _ _
    · cases h

/-- **The verdict on a response.** A complete and proper response that the session accepts switches
protocols. -/
theorem switches_of_ok {input expected : List UInt8} (hproper : Proper expected input)
    (hcomplete : (validateWsUpgrade input expected).complete = true)
    (hok : ((validateWsUpgrade input expected).accepted || (expected = [] &&
      0 < (validateWsUpgrade input expected).headersLen)) = true) : Switches expected input := by
  unfold validateWsUpgrade at hcomplete hok
  split at hcomplete
  · cases hcomplete
  · next hdrEnd hend =>
    rw [hend] at hok
    refine ⟨hdrEnd, hend, ?_⟩
    by_cases hexp : expected = []
    · exact ⟨hproper (Or.inl hexp), fun h => absurd hexp h⟩
    · rw [decide_eq_false hexp, Bool.false_and, Bool.or_false] at hok
      obtain ⟨hline, haccept⟩ := Bool.and_eq_true_iff.mp hok
      exact ⟨hproper (Or.inr (statusIs101_eq_true_iff.mp hline)), fun _ =>
        hasAccept_of_findAccept (beq_iff_eq.mp haccept) (Or.inl rfl)⟩

end Lepton.Ws

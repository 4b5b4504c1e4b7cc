import Lepton.HttpResponse

/-! The lines of a header block. The loops of the sources step from one CRLF to the next; what they see is the list of the
lines, and what they compute is a function of that list. -/

namespace Lepton.Http

open Search

/-- The lines of a text, each without its CRLF. What stands behind the last CRLF is no line. -/
def lines : List UInt8 → List (List UInt8)
  | [] => []
  | [_] => []
  | c :: d :: rest => if c = 13 ∧ d = 10 then [] :: lines rest else (lines (d :: rest)).modifyHead (c :: ·)

theorem crlf_starts {c : UInt8} {rest : List UInt8} : crlf <+: c :: rest ↔ c = 13 ∧ [10] <+: rest := by
  rw [crlf, List.cons_prefix_cons, eq_comm]

theorem lines_cons (c : UInt8) (rest : List UInt8) :
    lines (c :: rest) = if crlf <+: c :: rest then [] :: lines (rest.drop 1) else (lines rest).modifyHead (c :: ·) := by
  cases rest with
  | nil =>
    have hno : ¬ crlf <+: [c] := fun h => absurd h.length_le (by decide : ¬ 2 ≤ 1)
    rw [if_neg hno]
    rfl
  | cons d rest =>
    have hiff : crlf <+: c :: d :: rest ↔ c = 13 ∧ d = 10 := by
      rw [crlf_starts, List.cons_prefix_cons, eq_comm (a := (10 : UInt8))]
      exact and_congr_right fun _ => and_iff_left (List.nil_prefix)
    rw [lines]
    simp only [hiff]
    rfl

/-- The first line ends at the first CRLF. -/
theorem lines_eq (text : List UInt8) :
    lines text = match find text crlf 0 with
      | none => []
      | some k => text.take k :: lines (text.drop (k + 2)) := by
  induction text with
  | nil => rfl
  | cons c rest ih =>
    rw [lines_cons, find_cons]
    split
    · rfl
    · rw [ih]
      cases find rest crlf 0 with
      | none => rfl
      | some k =>
        have hone : 1 + k = k + 1 := Nat.add_comm 1 k
        simp only [Option.map_some, List.modifyHead_cons, hone, List.take_succ_cons, List.drop_succ_cons]

/-- A loop that steps from CRLF to CRLF from `pos` on. -/
theorem lines_drop {text : List UInt8} {pos : Nat} (h : pos ≤ text.length) :
    lines (text.drop pos) = match find text crlf pos with
      | none => []
      | some eol => slice text pos (eol - pos) :: lines (text.drop (eol + 2)) := by
  rw [lines_eq, find_drop h]
  cases find (text.drop pos) crlf 0 with
  | none => rfl
  | some k =>
    have hsub : pos + k - pos = k := Nat.add_sub_cancel_left pos k
    simp only [Option.map_some, hsub, List.drop_drop, Nat.add_assoc]
    rfl

/-- A text with a first line. -/
theorem eq_of_lines {text line : List UInt8} {more : List (List UInt8)} (h : lines text = line :: more) :
    ∃ rest, text = line ++ 13 :: 10 :: rest ∧ more = lines rest := by
  rw [lines_eq] at h
  cases hk : find text crlf 0 with
  | none =>
    rw [hk] at h
    cases h
  | some k =>
    rw [hk] at h
    dsimp only at h
    obtain ⟨hline, hmore⟩ := List.cons.inj h
    obtain ⟨-, -, ⟨rest, hrest⟩, -⟩ := find_eq_some.mp hk
    have hdrop : text.drop (k + 2) = rest := by
      rw [← List.drop_drop, ← hrest]
      rfl
    refine ⟨rest, ?_, hdrop ▸ hmore.symm⟩
    rw [← hline]
    exact (List.take_append_drop k text).symm.trans (congrArg _ hrest.symm)

/-- The header loop goes over the lines. -/
theorem scanHeaders_eq {fuel : Nat} {headers : List UInt8} {pos : Nat} (hfuel : headers.length - pos ≤ fuel)
    (scan : HeaderScan) : scanHeaders fuel headers pos scan = (lines (headers.drop pos)).foldl scanLine scan := by
  induction fuel generalizing pos scan with
  | zero =>
    rw [List.drop_eq_nil_of_le (by omega)]
    rfl
  | succ fuel ih =>
    rw [scanHeaders]
    split
    · next hpos =>
      rw [lines_drop hpos.le]
      cases heol : find headers crlf pos with
      | none => rfl
      | some eol =>
        obtain ⟨hle, hend⟩ := find_bounds heol
        have htwo : crlf.length = 2 := rfl
        exact ih (by omega) _
    · next hpos =>
      rw [List.drop_eq_nil_of_le (by omega)]
      rfl

end Lepton.Http

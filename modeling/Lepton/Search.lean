import Mathlib.Data.List.Basic
import Mathlib.Data.List.Infix
import Mathlib.Data.Nat.Find

/-! Substring search over lists, with the contract of `std::string_view::find`: the lowest index at
or after a starting position where the pattern is a prefix of what remains. The facts used about
it are its characterisation, its locality (only the text from the start on is read) and how it
behaves on a truncated text. -/

namespace Lepton.Search

variable {α : Type} [DecidableEq α]
variable {k pos : Nat}

/-- The first occurrence of the pattern in a suffix whose first element has index `i`. -/
def indexOf (pat : List α) : List α → Nat → Option Nat
  | [], i => if pat = [] then some i else none
  | c :: cs, i => if pat <+: c :: cs then some i else indexOf pat cs (i + 1)

/-- `s.find(pat, pos)`; `none` stands for `npos`. -/
def find (s pat : List α) (pos : Nat) : Option Nat :=
  if pos ≤ s.length then indexOf pat (s.drop pos) pos else none

/-- `s.substr(pos, n)`. -/
def slice (s : List α) (pos n : Nat) : List α := (s.drop pos).take n

/-- The pattern occurs at index `i`. -/
def OccursAt (s pat : List α) (i : Nat) : Prop := pat <+: s.drop i

theorem indexOf_eq_some {pat : List α} {t : List α} {i : Nat} :
    indexOf pat t i = some k ↔
      i ≤ k ∧ k ≤ i + t.length ∧ pat <+: t.drop (k - i) ∧
        ∀ j, i ≤ j → j < k → ¬ pat <+: t.drop (j - i) := by
  induction t generalizing i with
  | nil =>
    simp only [indexOf, List.drop_nil, List.length_nil, Nat.add_zero, List.prefix_nil]
    by_cases hp : pat = []
    · rw [if_pos hp]
      constructor
      · intro h
        cases h
        exact ⟨le_rfl, le_rfl, hp, fun j h1 h2 => absurd h2 (by omega)⟩
      · rintro ⟨h1, h2, -, -⟩
        rw [Nat.le_antisymm h1 h2]
    · rw [if_neg hp]
      constructor
      · intro h
        cases h
      · rintro ⟨-, -, h, -⟩
        exact absurd h hp
  | cons c cs ih =>
    rw [indexOf]
    by_cases hp : pat <+: c :: cs
    · rw [if_pos hp]
      constructor
      · intro h
        cases h
        refine ⟨le_rfl, by omega, ?_, fun j h1 h2 => absurd h2 (by omega)⟩
        rwa [Nat.sub_self, List.drop_zero]
      · rintro ⟨h1, -, -, hmin⟩
        by_contra hne
        have hlt : i < k := Nat.lt_of_le_of_ne h1 fun heq => hne (congrArg some heq)
        refine hmin i le_rfl hlt ?_
        rwa [Nat.sub_self, List.drop_zero]
    · rw [if_neg hp, ih]
      constructor
      · rintro ⟨h1, h2, hocc, hmin⟩
        refine ⟨by omega, by rw [List.length_cons]; omega, ?_, ?_⟩
        · rwa [show k - i = (k - (i + 1)) + 1 by omega, List.drop_succ_cons]
        · intro j hj hjk
          by_cases hji : j = i
          · rw [hji, Nat.sub_self, List.drop_zero]
            exact hp
          · rw [show j - i = (j - (i + 1)) + 1 by omega, List.drop_succ_cons]
            exact hmin j (by omega) hjk
      · rintro ⟨h1, h2, hocc, hmin⟩
        have hne : k ≠ i := by
          rintro rfl
          rw [Nat.sub_self, List.drop_zero] at hocc
          exact hp hocc
        rw [List.length_cons] at h2
        refine ⟨by omega, by omega, ?_, ?_⟩
        · rwa [show k - i = (k - (i + 1)) + 1 by omega, List.drop_succ_cons] at hocc
        · intro j hj hjk
          have := hmin j (by omega) hjk
          rwa [show j - i = (j - (i + 1)) + 1 by omega, List.drop_succ_cons] at this

/-- A search succeeds at the least index from `pos` on where the pattern occurs. -/
theorem find_eq_some {s pat : List α} :
    find s pat pos = some k ↔
      pos ≤ k ∧ k ≤ s.length ∧ OccursAt s pat k ∧ ∀ j, pos ≤ j → j < k → ¬ OccursAt s pat j := by
  unfold find OccursAt
  by_cases hpos : pos ≤ s.length
  · rw [if_pos hpos, indexOf_eq_some]
    simp only [List.drop_drop, List.length_drop]
    constructor
    · rintro ⟨h1, h2, hocc, hmin⟩
      refine ⟨h1, by omega, ?_, ?_⟩
      · rwa [show pos + (k - pos) = k by omega] at hocc
      · intro j hj hjk
        have := hmin j hj hjk
        rwa [show pos + (j - pos) = j by omega] at this
    · rintro ⟨h1, h2, hocc, hmin⟩
      refine ⟨h1, by omega, ?_, ?_⟩
      · rwa [show pos + (k - pos) = k by omega]
      · intro j hj hjk
        rw [show pos + (j - pos) = j by omega]
        exact hmin j hj hjk
  · rw [if_neg hpos]
    constructor
    · intro h
      cases h
    · rintro ⟨h1, h2, -, -⟩
      omega

omit [DecidableEq α] in
theorem occursAt_length {s pat : List α} {i : Nat} (hi : i ≤ s.length) (h : OccursAt s pat i) :
    i + pat.length ≤ s.length := by
  have := h.length_le
  rw [List.length_drop] at this
  omega

/-- A search fails exactly when the pattern occurs nowhere from `pos` on. -/
theorem find_eq_none {s pat : List α} :
    find s pat pos = none ↔ ∀ j, pos ≤ j → j ≤ s.length → ¬ OccursAt s pat j := by
  classical
  constructor
  · intro h j hj hjs hocc
    have hex : ∃ j, pos ≤ j ∧ j ≤ s.length ∧ OccursAt s pat j := ⟨j, hj, hjs, hocc⟩
    have hmin : find s pat pos = some (Nat.find hex) := by
      obtain ⟨h1, h2, h3⟩ := Nat.find_spec hex
      refine find_eq_some.2 ⟨h1, h2, h3, fun j' hj' hlt hocc' => ?_⟩
      exact Nat.find_min hex hlt ⟨hj', by omega, hocc'⟩
    rw [h] at hmin
    cases hmin
  · intro h
    cases hf : find s pat pos with
    | none => rfl
    | some k =>
      obtain ⟨h1, h2, h3, -⟩ := find_eq_some.1 hf
      exact absurd h3 (h k h1 h2)

theorem find_bounds {s pat : List α} (h : find s pat pos = some k) :
    pos ≤ k ∧ k + pat.length ≤ s.length := by
  obtain ⟨h1, h2, h3, -⟩ := find_eq_some.1 h
  exact ⟨h1, occursAt_length h2 h3⟩

theorem find_congr_drop {s t pat : List α} (hlen : s.length = t.length)
    (hdrop : s.drop pos = t.drop pos) : find s pat pos = find t pat pos := by
  unfold find
  rw [hlen, hdrop]

omit [DecidableEq α] in
theorem occursAt_take {s pat : List α} {n i : Nat} (hi : i + pat.length ≤ n) :
    OccursAt (s.take n) pat i ↔ OccursAt s pat i := by
  unfold OccursAt
  rw [List.drop_take]
  constructor
  · exact fun h => h.trans (List.take_prefix _ _)
  · intro h
    rw [List.prefix_take_iff]
    exact ⟨h, by omega⟩

/-- On a truncated text a search finds the same occurrence if it is still whole, and otherwise
nothing. -/
theorem find_take_of_le {s pat : List α} {n : Nat} (h : find s pat pos = some k)
    (hn : k + pat.length ≤ n) : find (s.take n) pat pos = some k := by
  obtain ⟨h1, h2, h3, h4⟩ := find_eq_some.1 h
  have hlen := occursAt_length h2 h3
  refine find_eq_some.2 ⟨h1, by rw [List.length_take]; omega, (occursAt_take hn).mpr h3, ?_⟩
  intro j hj hjk hocc
  exact h4 j hj hjk ((occursAt_take (by omega)).mp hocc)

theorem find_take_of_lt {s pat : List α} {n : Nat} (h : find s pat pos = some k)
    (hn : n < k + pat.length) (hpat : pat ≠ []) : find (s.take n) pat pos = none := by
  obtain ⟨h1, h2, h3, h4⟩ := find_eq_some.1 h
  refine find_eq_none.2 fun j hj hjs hocc => ?_
  have hfit := occursAt_length hjs hocc
  rw [List.length_take] at hfit
  have hpos : 0 < pat.length := List.length_pos_of_ne_nil hpat
  exact h4 j hj (by omega) ((occursAt_take (by omega)).mp hocc)

omit [DecidableEq α] in
theorem occursAt_cons {s pat : List α} {a : α} {i : Nat} :
    OccursAt s (a :: pat) i ↔ s[i]? = some a ∧ OccursAt s pat (i + 1) := by
  unfold OccursAt
  by_cases hi : i < s.length
  · rw [List.drop_eq_getElem_cons hi, List.cons_prefix_cons, List.getElem?_eq_getElem hi, Option.some.injEq]
    exact and_congr_left fun _ => eq_comm
  · rw [List.drop_eq_nil_of_le (by omega), List.getElem?_eq_none (by omega)]
    simp

/-- Positions without an occurrence can be skipped. -/
theorem find_of_skip {s pat : List α} {pos' : Nat} (hpos : pos ≤ pos')
    (hskip : ∀ j, pos ≤ j → j < pos' → ¬ OccursAt s pat j) (h : find s pat pos' = some k) :
    find s pat pos = some k := by
  obtain ⟨h1, h2, h3, h4⟩ := find_eq_some.1 h
  refine find_eq_some.2 ⟨hpos.trans h1, h2, h3, fun j hj hjk => ?_⟩
  by_cases hlt : j < pos'
  · exact hskip j hj hlt
  · exact h4 j (by omega) hjk

/-- A search from anywhere up to the first occurrence finds that occurrence. -/
theorem find_from_later {s pat : List α} {pos' : Nat} (h : find s pat pos = some k)
    (hpos : pos ≤ pos') (hk : pos' ≤ k) : find s pat pos' = some k := by
  obtain ⟨-, h2, h3, h4⟩ := find_eq_some.1 h
  exact find_eq_some.2 ⟨hk, h2, h3, fun j hj hjk => h4 j (hpos.trans hj) hjk⟩

omit [DecidableEq α] in
theorem slice_add (s : List α) (pos m n : Nat) : slice s pos (m + n) = slice s pos m ++ slice s (pos + m) n := by
  rw [slice, List.take_add, List.drop_drop]
  rfl

omit [DecidableEq α] in
theorem slice_split (s : List α) {a b c : Nat} (hab : a ≤ b) (hbc : b ≤ c) :
    slice s a (c - a) = slice s a (b - a) ++ slice s b (c - b) := by
  have hsum : c - a = b - a + (c - b) := by omega
  have hskip : a + (b - a) = b := by omega
  rw [hsum, slice_add, hskip]

omit [DecidableEq α] in
theorem slice_take {s : List α} {n len : Nat} (h : pos + len ≤ n) :
    slice (s.take n) pos len = slice s pos len := by
  rw [slice, slice, List.drop_take, List.take_take, Nat.min_eq_left (by omega)]

omit [DecidableEq α] in
theorem slice_length {s : List α} {n : Nat} (h : pos + n ≤ s.length) : (slice s pos n).length = n := by
  rw [slice, List.length_take, List.length_drop]
  omega

omit [DecidableEq α] in
theorem slice_append (pre text rest : List α) : slice (pre ++ (text ++ rest)) pre.length text.length = text := by
  rw [slice, List.drop_left, List.take_left]

/-- More text behind an occurrence does not matter. -/
theorem find_append {s pat : List α} (h : find s pat pos = some k) (rest : List α) :
    find (s ++ rest) pat pos = some k := by
  obtain ⟨hpos, hk, hocc, hfirst⟩ := find_eq_some.1 h
  have hend := occursAt_length hk hocc
  have hsame {j : Nat} (hj : j ≤ k) : OccursAt (s ++ rest) pat j ↔ OccursAt s pat j := by
    have htake : OccursAt ((s ++ rest).take s.length) pat j ↔ OccursAt (s ++ rest) pat j := occursAt_take (by omega)
    rw [List.take_left] at htake
    exact htake.symm
  refine find_eq_some.2 ⟨hpos, ?_, (hsame (Nat.le_refl k)).mpr hocc, fun j hj hjk hoccj => ?_⟩
  · rw [List.length_append]
    omega
  · exact hfirst j hj hjk ((hsame hjk.le).mp hoccj)

/-- A pattern that does not start inside the text is found right behind the text. -/
theorem find_append_of_forall (pre rest : List α) {text pat : List α}
    (h : ∀ i < text.length, ¬ pat <+: text.drop i ++ (pat ++ rest)) :
    find (pre ++ (text ++ (pat ++ rest))) pat pre.length = some (pre.length + text.length) := by
  refine find_eq_some.2 ⟨by omega, ?_, ?_, ?_⟩
  · simp only [List.length_append]
    omega
  · unfold OccursAt
    rw [← List.drop_drop, List.drop_left, List.drop_left]
    exact List.prefix_append _ _
  · intro j hj hjlt hocc
    obtain ⟨i, rfl⟩ := Nat.exists_eq_add_of_le hj
    have hi : i < text.length := by omega
    unfold OccursAt at hocc
    rw [← List.drop_drop, List.drop_left, List.drop_append_of_le_length hi.le] at hocc
    exact h i hi hocc

/-- A pattern led by an element the text lacks is found right behind the text. -/
theorem find_append_of_not_mem (pre rest pat : List α) {text : List α} {a : α} (htext : a ∉ text) :
    find (pre ++ (text ++ (a :: pat ++ rest))) (a :: pat) pre.length = some (pre.length + text.length) := by
  refine find_append_of_forall pre rest fun i hi hocc => ?_
  rw [List.drop_eq_getElem_cons hi, List.cons_append, List.cons_prefix_cons] at hocc
  exact htext (hocc.1 ▸ List.getElem_mem hi)

theorem indexOf_shift (pat t : List α) (i d : Nat) : indexOf pat t (d + i) = (indexOf pat t i).map (d + ·) := by
  induction t generalizing i with
  | nil =>
    rw [indexOf, indexOf]
    split
    · rfl
    · rfl
  | cons c cs ih =>
    rw [indexOf, indexOf]
    split
    · rfl
    · exact ih (i + 1)

theorem find_drop {s : List α} (h : pos ≤ s.length) (pat : List α) :
    find s pat pos = (find (s.drop pos) pat 0).map (pos + ·) := by
  rw [find, if_pos h, find, if_pos (Nat.zero_le _), List.drop_zero]
  exact indexOf_shift pat (s.drop pos) 0 pos

theorem find_cons (pat : List α) (c : α) (s : List α) :
    find (c :: s) pat 0 = if pat <+: c :: s then some 0 else (find s pat 0).map (1 + ·) := by
  rw [find, if_pos (Nat.zero_le _), List.drop_zero, indexOf, find, if_pos (Nat.zero_le _), List.drop_zero]
  split
  · rfl
  · exact indexOf_shift pat s 0 1

/-- What stands in front of the first occurrence holds none. -/
theorem find_slice {s pat : List α} (hpat : pat ≠ []) (h : find s pat pos = some k) :
    find (slice s pos (k - pos)) pat 0 = none := by
  obtain ⟨hpos, -, -, hfirst⟩ := find_eq_some.1 h
  refine find_eq_none.2 fun j _ hj hocc => ?_
  have hlen : 0 < pat.length := List.length_pos_of_ne_nil hpat
  have hfit := occursAt_length hj hocc
  rw [slice, List.length_take] at hfit
  refine hfirst (pos + j) (by omega) (by omega) ?_
  unfold OccursAt at hocc ⊢
  rw [slice, List.drop_take, List.drop_drop] at hocc
  exact hocc.trans (List.take_prefix _ _)

/-- Behind a text that holds no occurrence the pattern is found at once, unless an occurrence could start
in the text and end in the pattern. -/
theorem find_append_of_none {text pat : List α} {a : α} (h : find text (a :: pat) 0 = none) (hpat : a ∉ pat)
    (pre rest : List α) :
    find (pre ++ (text ++ (a :: pat ++ rest))) (a :: pat) pre.length = some (pre.length + text.length) := by
  refine find_append_of_forall pre rest fun i hi hocc => ?_
  by_cases hshort : (a :: pat).length ≤ (text.drop i).length
  · refine find_eq_none.1 h i (Nat.zero_le _) hi.le ?_
    exact List.prefix_of_prefix_length_le hocc (List.prefix_append _ _) hshort
  · -- the byte of the occurrence that meets the head of the pattern behind the text
    have hlen : (text.drop i).length = text.length - i := List.length_drop
    have hat : (a :: pat)[text.length - i]? = some a := by
      obtain ⟨more, hmore⟩ := hocc
      have hget : (a :: pat ++ more)[text.length - i]? = some a := by
        rw [hmore, List.getElem?_append_right hlen.le, hlen, Nat.sub_self]
        rfl
      rwa [List.getElem?_append_left (by omega)] at hget
    obtain ⟨d, hd⟩ : ∃ d, text.length - i = d + 1 := ⟨text.length - i - 1, by omega⟩
    rw [hd, List.getElem?_cons_succ] at hat
    exact hpat (List.mem_of_getElem? hat)

end Lepton.Search

import Mathlib.Data.List.Perm.Basic

/-! Reassembly of fragmented messages. A stream of pieces is either whole messages, or messages cut into a
first piece and following ones, or anything else; a reassembler delivers messages and holds at most one that is
not complete. A first piece takes the place of what is held, and a following one is dropped if nothing is
held, so that only a stream that is well ordered is delivered without loss. -/

namespace Lepton

inductive Piece (τ α : Type) where
  | whole (tag : τ) (data : List α)
  | first (tag : τ) (data : List α)
  | next (data : List α) (last : Bool)
  | other
  deriving DecidableEq, Repr

structure Assembly (τ α : Type) where
  done : List (τ × List α) := []
  held : Option (τ × List α) := none
  deriving DecidableEq, Repr

variable {τ α : Type}

def Piece.data : Piece τ α → List α
  | .whole _ data | .first _ data | .next data _ => data
  | .other => []

namespace Assembly

def take (a : Assembly τ α) : Piece τ α → Assembly τ α
  | .whole tag data => { a with done := a.done ++ [(tag, data)] }
  | .first tag data => { a with held := some (tag, data) }
  | .next data last =>
    match a.held with
    | none => a
    | some (tag, held) =>
      if last then { done := a.done ++ [(tag, held ++ data)], held := none }
      else { a with held := some (tag, held ++ data) }
  | .other => a

def takes (a : Assembly τ α) (pieces : List (Piece τ α)) : Assembly τ α := pieces.foldl take a

/-- All data that has been delivered or is held. -/
def content (a : Assembly τ α) : List α := a.done.flatMap Prod.snd ++ (a.held.map Prod.snd).getD []

/-- The piece is in order: a message is begun while none is held, and continued while one is. -/
def Accepts (a : Assembly τ α) : Piece τ α → Prop
  | .first _ _ => a.held = none
  | .next _ _ => a.held.isSome = true
  | .whole _ _ | .other => True

instance [DecidableEq τ] [DecidableEq α] (a : Assembly τ α) : DecidablePred a.Accepts
  | .first _ _ => inferInstanceAs (Decidable (a.held = none))
  | .next _ _ => inferInstanceAs (Decidable (a.held.isSome = true))
  | .whole _ _ | .other => isTrue trivial

/-- Every piece is in order. -/
def AcceptsAll (a : Assembly τ α) : List (Piece τ α) → Prop
  | [] => True
  | p :: pieces => a.Accepts p ∧ (a.take p).AcceptsAll pieces

instance decidableAcceptsAll [DecidableEq τ] [DecidableEq α] (a : Assembly τ α) :
    (pieces : List (Piece τ α)) → Decidable (a.AcceptsAll pieces)
  | [] => isTrue trivial
  | p :: pieces =>
    have := decidableAcceptsAll (a.take p) pieces
    inferInstanceAs (Decidable (a.Accepts p ∧ (a.take p).AcceptsAll pieces))

theorem takes_append (a : Assembly τ α) (ps qs : List (Piece τ α)) : a.takes (ps ++ qs) = (a.takes ps).takes qs :=
  List.foldl_append

theorem acceptsAll_append {a : Assembly τ α} {ps qs : List (Piece τ α)} :
    a.AcceptsAll (ps ++ qs) ↔ a.AcceptsAll ps ∧ (a.takes ps).AcceptsAll qs := by
  induction ps generalizing a with
  | nil => exact ⟨fun h => ⟨trivial, h⟩, And.right⟩
  | cons p ps ih =>
    rw [List.cons_append, AcceptsAll, ih, AcceptsAll, and_assoc]
    rfl

/-- A piece in order is added to the content. -/
theorem content_take {a : Assembly τ α} {p : Piece τ α} (h : a.Accepts p) : (a.take p).content.Perm (a.content ++ p.data) := by
  cases p with
  | whole tag data =>
    simp only [take, content, Piece.data, List.flatMap_append, List.flatMap_singleton, List.append_assoc]
    exact (List.perm_append_comm).append_left _
  | first tag data =>
    have hnone : a.held = none := h
    simp only [take, content, Piece.data, hnone, Option.map_none, Option.map_some, Option.getD_none, Option.getD_some,
      List.append_nil]
    exact List.Perm.refl _
  | next data last =>
    obtain ⟨⟨tag, held⟩, hheld⟩ := Option.isSome_iff_exists.mp h
    cases last with
    | true =>
      simp only [take, content, Piece.data, hheld, if_true, List.flatMap_append, List.flatMap_singleton, Option.map_none,
        Option.map_some, Option.getD_none, Option.getD_some, List.append_nil, List.append_assoc]
      exact List.Perm.refl _
    | false =>
      simp only [take, content, Piece.data, hheld, Bool.false_eq_true, if_false, Option.map_some, Option.getD_some,
        List.append_assoc]
      exact List.Perm.refl _
  | other =>
    simp only [take, Piece.data, List.append_nil]
    exact List.Perm.refl _

/-- What holds of the new data, and of it added to what is held, holds of all that is delivered and held. -/
theorem take_forall {P : List α → Prop} {a : Assembly τ α} {p : Piece τ α} (hdone : ∀ m ∈ a.done, P m.2)
    (hheld : ∀ m ∈ a.held, P m.2) (hnew : P p.data) (hadd : ∀ m ∈ a.held, P (m.2 ++ p.data)) :
    (∀ m ∈ (a.take p).done, P m.2) ∧ ∀ m ∈ (a.take p).held, P m.2 := by
  have hsnoc {m : τ × List α} (hm : P m.2) : ∀ m' ∈ a.done ++ [m], P m'.2 := by
    intro m' hm'
    rcases List.mem_append.mp hm' with h | h
    · exact hdone m' h
    · exact List.mem_singleton.mp h ▸ hm
  cases p with
  | whole tag data => exact ⟨hsnoc hnew, hheld⟩
  | first tag data =>
    refine ⟨hdone, fun m hm => ?_⟩
    cases hm
    exact hnew
  | next data last =>
    cases hsome : a.held with
    | none =>
      simp only [take, hsome]
      exact ⟨hdone, nofun⟩
    | some m =>
      obtain ⟨tag, held⟩ := m
      have hboth : P (held ++ data) := hadd (tag, held) hsome
      cases last with
      | true =>
        simp only [take, hsome, if_true]
        exact ⟨hsnoc hboth, nofun⟩
      | false =>
        simp only [take, hsome, Bool.false_eq_true, if_false]
        refine ⟨hdone, fun m hm => ?_⟩
        cases hm
        exact hboth
  | other => exact ⟨hdone, hheld⟩

theorem done_take (a : Assembly τ α) (p : Piece τ α) : a.done <+: (a.take p).done := by
  cases p with
  | whole tag data => exact List.prefix_append _ _
  | first tag data => exact List.prefix_rfl
  | next data last =>
    rw [take]
    split
    · exact List.prefix_rfl
    · split
      · exact List.prefix_append _ _
      · exact List.prefix_rfl
  | other => exact List.prefix_rfl

theorem done_takes (a : Assembly τ α) (ps : List (Piece τ α)) : a.done <+: (a.takes ps).done := by
  induction ps generalizing a with
  | nil => exact List.prefix_rfl
  | cons p ps ih => exact (a.done_take p).trans (ih (a.take p))

/-- In a stream in order a message that is held is delivered or held later, with more behind it. -/
theorem held_takes {a : Assembly τ α} {ps : List (Piece τ α)} (h : a.AcceptsAll ps) {m : τ × List α} (hm : a.held = some m) :
    ∃ m', (m' ∈ (a.takes ps).done ∨ (a.takes ps).held = some m') ∧ m.2 <+: m'.2 := by
  induction ps generalizing a m with
  | nil => exact ⟨m, Or.inr hm, List.prefix_rfl⟩
  | cons p ps ih =>
    cases p with
    | whole tag data => exact ih h.2 hm
    | first tag data => exact absurd (hm.symm.trans h.1) nofun
    | next data last =>
      obtain ⟨tag, begun⟩ := m
      have htake : a.take (.next data last) =
          if last then { done := a.done ++ [(tag, begun ++ data)], held := none }
          else { a with held := some (tag, begun ++ data) } := by
        rw [take, hm]
      cases last with
      | true =>
        rw [if_pos rfl] at htake
        refine ⟨(tag, begun ++ data), Or.inl ?_, List.prefix_append _ _⟩
        refine ((a.take _).done_takes ps).subset ?_
        rw [htake]
        exact List.mem_append_right _ List.mem_cons_self
      | false =>
        rw [if_neg Bool.false_ne_true] at htake
        obtain ⟨m', hm', hlonger⟩ := ih h.2 (congrArg Assembly.held htake)
        exact ⟨m', hm', (List.prefix_append _ _).trans hlonger⟩
    | other => exact ih h.2 hm

/-- A bound on the messages in the end holds on the way. -/
theorem bounded_takes {a : Assembly τ α} {ps qs : List (Piece τ α)} (h : a.AcceptsAll (ps ++ qs)) {n : Nat}
    (hdone : ∀ m ∈ (a.takes (ps ++ qs)).done, m.2.length ≤ n) (hheld : ∀ m ∈ (a.takes (ps ++ qs)).held, m.2.length ≤ n) :
    (∀ m ∈ (a.takes ps).done, m.2.length ≤ n) ∧ ∀ m ∈ (a.takes ps).held, m.2.length ≤ n := by
  rw [takes_append] at hdone hheld
  refine ⟨fun m hm => hdone m (((a.takes ps).done_takes qs).subset hm), fun m hm => ?_⟩
  obtain ⟨m', hm', hlonger⟩ := held_takes (acceptsAll_append.mp h).2 hm
  have hlength := hlonger.length_le
  rcases hm' with hm' | hm'
  · exact Nat.le_trans hlength (hdone m' hm')
  · exact Nat.le_trans hlength (hheld m' hm')

/-- **A stream in order is kept in full.** -/
theorem content_takes {a : Assembly τ α} {ps : List (Piece τ α)} (h : a.AcceptsAll ps) :
    (a.takes ps).content.Perm (a.content ++ ps.flatMap Piece.data) := by
  induction ps generalizing a with
  | nil =>
    rw [List.flatMap_nil, List.append_nil]
    exact List.Perm.refl _
  | cons p ps ih =>
    rw [List.flatMap_cons, ← List.append_assoc]
    exact (ih h.2).trans ((content_take h.1).append_right _)

end Assembly

end Lepton

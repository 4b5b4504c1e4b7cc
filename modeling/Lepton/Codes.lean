import Mathlib.Data.List.Basic

/-! Streams of items that mark their own ends. The code of an item is recognised as soon as it is there, whatever comes
behind it, and is waited for until then. A reader that has got any first part of a stream has then read the items whose
codes are complete, in their order, and holds the beginning of the next one. -/

namespace Lepton.Codes

variable {α β : Type}

/-- What a reader finds at the front of what it has got. -/
inductive Reading (α β : Type) where
  | wait
  | broken
  | item (a : α) (rest : List β)

structure Code (α β : Type) where
  encode : α → List β
  read : List β → Reading α β
  Valid : α → Prop
  idle : read [] = .wait
  whole : ∀ a rest, Valid a → read (encode a ++ rest) = .item a rest
  part : ∀ a piece, Valid a → piece <+: encode a → piece.length < (encode a).length → read piece = .wait
  nonempty : ∀ a, Valid a → encode a ≠ []

/-- What a reader has made of a part of a stream. -/
structure View (α β : Type) where
  items : List α
  left : List β
  broken : Bool

variable (c : Code α β)

/-- One item after another is taken off the front. -/
def readAll : Nat → List β → View α β
  | 0, bytes => ⟨[], bytes, false⟩
  | fuel + 1, bytes =>
    match c.read bytes with
    | .wait => ⟨[], bytes, false⟩
    | .broken => ⟨[], bytes, true⟩
    | .item a rest => { readAll fuel rest with items := a :: (readAll fuel rest).items }

theorem readAll_item {fuel : Nat} {bytes rest : List β} {a : α} (h : c.read bytes = .item a rest) :
    readAll c (fuel + 1) bytes = { readAll c fuel rest with items := a :: (readAll c fuel rest).items } := by
  rw [readAll, h]

theorem readAll_wait {bytes : List β} (h : c.read bytes = .wait) (fuel : Nat) :
    readAll c fuel bytes = ⟨[], bytes, false⟩ := by
  cases fuel with
  | zero => rfl
  | succ fuel => rw [readAll, h]

/-- The bytes that are left are the beginning of item `k` of a stream. -/
def Partway (as : List α) (k : Nat) (left : List β) : Prop :=
  left = [] ∨ ∃ a, as[k]? = some a ∧ left <+: c.encode a ∧ left.length < (c.encode a).length

/-- **The items of a stream arrive whole and in order.** -/
theorem readAll_stream {as : List α} (hvalid : ∀ a ∈ as, c.Valid a) {bytes : List β}
    (hbytes : bytes <+: as.flatMap c.encode) {fuel : Nat} (hfuel : bytes.length ≤ fuel) :
    ∃ k left, readAll c fuel bytes = ⟨as.take k, left, false⟩ ∧ bytes = (as.take k).flatMap c.encode ++ left ∧
      Partway c as k left := by
  induction as generalizing bytes fuel with
  | nil =>
    have hnil : bytes = [] := List.prefix_nil.mp hbytes
    subst hnil
    exact ⟨0, [], readAll_wait c c.idle fuel, rfl, Or.inl rfl⟩
  | cons a as ih =>
    obtain ⟨ha, has⟩ := List.forall_mem_cons.mp hvalid
    rw [List.flatMap_cons] at hbytes
    by_cases hshort : bytes.length < (c.encode a).length
    · -- the first item is not there yet
      have hpart : bytes <+: c.encode a :=
        List.prefix_of_prefix_length_le hbytes (List.prefix_append _ _) (Nat.le_of_lt hshort)
      exact ⟨0, bytes, readAll_wait c (c.part a bytes ha hpart hshort) fuel, rfl, Or.inr ⟨a, rfl, hpart, hshort⟩⟩
    · have hwhole : c.encode a <+: bytes :=
        List.prefix_of_prefix_length_le (List.prefix_append _ _) hbytes (Nat.not_lt.mp hshort)
      obtain ⟨rest, rfl⟩ := hwhole
      have hpos : 0 < (c.encode a).length := List.length_pos_iff.mpr (c.nonempty a ha)
      rw [List.length_append] at hfuel
      obtain ⟨fuel, rfl⟩ : ∃ fuel', fuel = fuel' + 1 := ⟨fuel - 1, by omega⟩
      have hfuel' : rest.length ≤ fuel := by omega
      obtain ⟨k, left, hread, hrest, hpart⟩ := ih has ((List.prefix_append_right_inj _).mp hbytes) hfuel'
      refine ⟨k + 1, left, ?_, ?_, hpart⟩
      · rw [readAll_item c (c.whole a rest ha), hread, List.take_succ_cons]
      · rw [List.take_succ_cons, List.flatMap_cons, List.append_assoc, ← hrest]

/-- A stream that has arrived is read to its end. -/
theorem readAll_whole {as : List α} (hvalid : ∀ a ∈ as, c.Valid a) {fuel : Nat}
    (hfuel : (as.flatMap c.encode).length ≤ fuel) : readAll c fuel (as.flatMap c.encode) = ⟨as, [], false⟩ := by
  induction as generalizing fuel with
  | nil => exact readAll_wait c c.idle fuel
  | cons a as ih =>
    obtain ⟨ha, has⟩ := List.forall_mem_cons.mp hvalid
    have hpos : 0 < (c.encode a).length := List.length_pos_iff.mpr (c.nonempty a ha)
    rw [List.flatMap_cons, List.length_append] at hfuel
    obtain ⟨fuel, rfl⟩ : ∃ fuel', fuel = fuel' + 1 := ⟨fuel - 1, by omega⟩
    rw [List.flatMap_cons, readAll_item c (c.whole a _ ha), ih has (by omega)]

end Lepton.Codes

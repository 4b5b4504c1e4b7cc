import Mathlib.Data.List.Basic

/-! Histories: lists that grow at the front, so that an older history is a suffix of a newer one. -/

namespace Lepton

variable {α : Type*} {a b c : List α}

/-- What a history has gained on an older one. -/
def since (old new : List α) : List α := new.take (new.length - old.length)

theorem since_append (new old : List α) : since old (new ++ old) = new := by
  rw [since, List.length_append, Nat.add_sub_cancel, List.take_left]

theorem since_self (a : List α) : since a a = [] := since_append [] a

/-- The gains of two stretches of a history add up. -/
theorem since_trans (h : a <:+ b) (h' : b <:+ c) : since a c = since b c ++ since a b := by
  obtain ⟨new, rfl⟩ := h
  obtain ⟨new', rfl⟩ := h'
  rw [← List.append_assoc, since_append, List.append_assoc, since_append, since_append]

/-- What came before the latest part of a gain is part of it. -/
theorem mem_since {x : α} (h : a <:+ b) (h' : x :: b <:+ c) : x ∈ since a c := by
  have hx : a <:+ x :: b := h.trans (List.suffix_cons x b)
  rw [since_trans hx h', since_trans h (List.suffix_cons x b)]
  exact List.mem_append_right _ (List.mem_append_left _ (since_append [x] b ▸ List.mem_cons_self))

theorem since_cons (h : a <:+ b) (x : α) : since a (x :: b) = x :: since a b := by
  rw [since_trans h (List.suffix_cons x b)]
  exact congrArg (· ++ since a b) (since_append [x] b)

end Lepton

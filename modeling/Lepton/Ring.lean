import Mathlib.Data.List.Basic
import Mathlib.Logic.Function.Iterate
import Mathlib.Data.Nat.ModEq

/-! A bounded queue in a circular array: `count` slots are occupied, from `head` on, indices taken
modulo the capacity. Its contents are the list of the occupied slots in order, and every operation
is described by what it does to that list. -/

namespace Lepton

structure Ring (α : Type) (cap : Nat) where
  slots : Nat → α
  head : Nat
  count : Nat
  head_lt : head < cap
  count_le : count ≤ cap

namespace Ring

variable {α : Type} {cap : Nat}

/-- The occupied slots, the oldest first. -/
def toList (r : Ring α cap) : List α := (List.range r.count).map fun i => r.slots ((r.head + i) % cap)

/-- Occupies the next slot, if one is left. -/
def push (r : Ring α cap) (a : α) : Option (Ring α cap) :=
  if h : r.count < cap then
    some { r with slots := Function.update r.slots ((r.head + r.count) % cap) a, count := r.count + 1, count_le := h }
  else none

def front (r : Ring α cap) : α := r.slots r.head

def setFront (r : Ring α cap) (a : α) : Ring α cap := { r with slots := Function.update r.slots r.head a }

/-- Frees the oldest slot. -/
def pop (r : Ring α cap) : Ring α cap :=
  { r with
    head := (r.head + 1) % cap
    count := r.count - 1
    head_lt := Nat.mod_lt _ (Nat.zero_lt_of_lt r.head_lt)
    count_le := Nat.le_trans (Nat.sub_le _ _) r.count_le }

/-- Frees every slot, one after the other. -/
def drain (r : Ring α cap) : Ring α cap := pop^[r.count] r

theorem length_toList (r : Ring α cap) : r.toList.length = r.count := by
  rw [toList, List.length_map, List.length_range]

theorem toList_of_count_zero {r : Ring α cap} (h : r.count = 0) : r.toList = [] := by
  rw [toList, h]
  rfl

/-- Two occupied offsets are two slots. -/
theorem slot_ne (head : Nat) {i j : Nat} (hij : i < j) (hj : j < cap) : (head + i) % cap ≠ (head + j) % cap := by
  intro h
  have hdvd : cap ∣ (head + j) - (head + i) := (Nat.modEq_iff_dvd' (by omega)).mp h
  have hle := Nat.le_of_dvd (by omega) hdvd
  omega

theorem toList_push {r r' : Ring α cap} {a : α} (h : r.push a = some r') : r'.toList = r.toList ++ [a] := by
  unfold push at h
  split at h
  · next hlt =>
    cases h
    rw [toList, List.range_succ, List.map_append, List.map_singleton]
    congr 1
    · apply List.map_congr_left
      intro i hi
      exact Function.update_of_ne (slot_ne r.head (List.mem_range.mp hi) hlt) ..
    · exact congrArg (fun x => [x]) (Function.update_self ..)
  · cases h

theorem count_push {r r' : Ring α cap} {a : α} (h : r.push a = some r') : r'.count = r.count + 1 := by
  rw [← length_toList, toList_push h, List.length_append, length_toList, List.length_singleton]

theorem push_isSome {r : Ring α cap} {a : α} : (r.push a).isSome ↔ r.count < cap := by
  unfold push
  split
  · next h => simp [h]
  · next h => simp [h]

theorem count_of_push_none {r : Ring α cap} {a : α} (h : r.push a = none) : r.count = cap := by
  have hfull : ¬ r.count < cap := by
    rw [← push_isSome (a := a), h]
    exact nofun
  exact Nat.le_antisymm r.count_le (Nat.not_lt.mp hfull)

theorem toList_eq_front_cons {r : Ring α cap} (h : 0 < r.count) : r.toList = r.front :: r.pop.toList := by
  obtain ⟨n, hn⟩ : ∃ n, r.count = n + 1 := ⟨r.count - 1, by omega⟩
  rw [toList, hn, List.range_succ_eq_map, List.map_cons, List.map_map, toList]
  congr 1
  · rw [Nat.add_zero, Nat.mod_eq_of_lt r.head_lt]
    rfl
  · have hpop : r.pop.count = n := by
      change r.count - 1 = n
      omega
    rw [hpop]
    apply List.map_congr_left
    intro i _
    change r.slots ((r.head + (i + 1)) % cap) = r.slots (((r.head + 1) % cap + i) % cap)
    rw [Nat.mod_add_mod, Nat.add_assoc, Nat.add_comm 1 i]

theorem front_setFront (r : Ring α cap) (a : α) : (r.setFront a).front = a := Function.update_self ..

theorem toList_setFront {r : Ring α cap} (h : 0 < r.count) (a : α) :
    (r.setFront a).toList = a :: r.pop.toList := by
  rw [toList_eq_front_cons (r := r.setFront a) h]
  congr 1
  · exact front_setFront r a
  · apply List.map_congr_left
    intro i hi
    have hlt : i + 1 < cap := by
      have hi' : i < r.count - 1 := List.mem_range.mp hi
      have := r.count_le
      omega
    change Function.update r.slots r.head a (((r.head + 1) % cap + i) % cap) = r.slots (((r.head + 1) % cap + i) % cap)
    apply Function.update_of_ne
    have hne := (slot_ne r.head (Nat.succ_pos i) hlt).symm
    rw [Nat.add_zero, Nat.mod_eq_of_lt r.head_lt] at hne
    rw [Nat.mod_add_mod, Nat.add_assoc, Nat.add_comm 1 i]
    exact hne

theorem count_drain (r : Ring α cap) : r.drain.count = 0 := by
  have hiter (n : Nat) (r : Ring α cap) : (pop^[n] r).count = r.count - n := by
    induction n generalizing r with
    | zero => rfl
    | succ n ih =>
      rw [Function.iterate_succ_apply, ih]
      change r.count - 1 - n = r.count - (n + 1)
      omega
  rw [drain, hiter, Nat.sub_self]

theorem toList_drain (r : Ring α cap) : r.drain.toList = [] := toList_of_count_zero r.count_drain

end Ring

end Lepton

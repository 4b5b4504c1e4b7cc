import Mathlib.Data.List.Nodup
import Mathlib.Logic.Function.Basic
import Mathlib.Logic.Relation
import Mathlib.Tactic.SplitIfs

/-! Objects with one owner each. Objects are numbered as they are made. An owner has one hand: with an empty hand it
makes an object or takes one over, and what it holds it gives back. In any run of such steps every object is held by
exactly one owner, or has been given back exactly once. -/

namespace Lepton.Owners

open Function

structure Objects (ι : Type) where
  made : Nat
  /-- The objects given back, the latest first. -/
  freed : List Nat
  holds : ι → Option Nat

variable {ι : Type} [DecidableEq ι] {o o' : Objects ι}

inductive Step : Objects ι → Objects ι → Prop
  | make {o : Objects ι} {i : ι} (empty : o.holds i = none) :
      Step o { o with made := o.made + 1, holds := update o.holds i (some o.made) }
  | free {o : Objects ι} {i : ι} {a : Nat} (held : o.holds i = some a) :
      Step o { o with freed := a :: o.freed, holds := update o.holds i none }
  | hand {o : Objects ι} {i j : ι} (apart : i ≠ j) (empty : o.holds j = none) :
      Step o { o with holds := update (update o.holds j (o.holds i)) i none }

abbrev Steps : Objects ι → Objects ι → Prop := Relation.ReflTransGen Step

/-- Every object is in one place. -/
structure Sound (o : Objects ι) : Prop where
  once : o.freed.Nodup
  known : ∀ a ∈ o.freed, a < o.made
  live : ∀ i a, o.holds i = some a → a < o.made ∧ a ∉ o.freed
  sole : ∀ i j a, o.holds i = some a → o.holds j = some a → i = j
  kept : ∀ a < o.made, a ∈ o.freed ∨ ∃ i, o.holds i = some a

omit [DecidableEq ι] in
theorem sound_start : Sound (⟨0, [], fun _ => none⟩ : Objects ι) :=
  ⟨List.nodup_nil, nofun, nofun, nofun, nofun⟩

theorem Sound.make {i : ι} (h : Sound o) (hempty : o.holds i = none) :
    Sound { o with made := o.made + 1, holds := update o.holds i (some o.made) } := by
  -- the new object is not held by anyone, for all that is held was made before
  have hnew {j : ι} (hheld : o.holds j = some o.made) : False := absurd (h.live j _ hheld).1 (Nat.lt_irrefl _)
  have hcases {j : ι} {a : Nat} (hheld : update o.holds i (some o.made) j = some a) :
      (j = i ∧ a = o.made) ∨ o.holds j = some a := by
    by_cases hj : j = i
    · subst hj
      rw [update_self] at hheld
      exact Or.inl ⟨rfl, (Option.some.inj hheld).symm⟩
    · rw [update_of_ne hj] at hheld
      exact Or.inr hheld
  refine ⟨h.once, fun a ha => Nat.lt_succ_of_lt (h.known a ha), fun j a hheld => ?_, fun j k a hj hk => ?_, fun a ha => ?_⟩
  · rcases hcases hheld with ⟨-, rfl⟩ | hheld
    · exact ⟨Nat.lt_succ_self _, fun hfreed => absurd (h.known _ hfreed) (Nat.lt_irrefl _)⟩
    · exact ⟨Nat.lt_succ_of_lt (h.live j a hheld).1, (h.live j a hheld).2⟩
  · rcases hcases hj with ⟨rfl, rfl⟩ | hj'
    · rcases hcases hk with ⟨rfl, -⟩ | hk'
      · rfl
      · exact (hnew hk').elim
    · rcases hcases hk with ⟨rfl, rfl⟩ | hk'
      · exact (hnew hj').elim
      · exact h.sole j k a hj' hk'
  · rcases Nat.lt_succ_iff_lt_or_eq.mp ha with hlt | rfl
    · refine (h.kept a hlt).imp id fun ⟨j, hj⟩ => ⟨j, ?_⟩
      have hji : j ≠ i := by
        rintro rfl
        exact absurd (hempty.symm.trans hj) nofun
      exact (update_of_ne hji _ _).trans hj
    · exact Or.inr ⟨i, update_self ..⟩

theorem Sound.free {i : ι} {a : Nat} (h : Sound o) (hheld : o.holds i = some a) :
    Sound { o with freed := a :: o.freed, holds := update o.holds i none } := by
  obtain ⟨hlt, hfresh⟩ := h.live i a hheld
  have hother {j : ι} {b : Nat} (hj : update o.holds i none j = some b) : j ≠ i ∧ o.holds j = some b := by
    have hji : j ≠ i := by
      rintro rfl
      rw [update_self] at hj
      cases hj
    exact ⟨hji, (update_of_ne hji _ _).symm.trans hj⟩
  refine ⟨List.nodup_cons.mpr ⟨hfresh, h.once⟩, fun b hb => ?_, fun j b hj => ?_, fun j k b hj hk => ?_, fun b hb => ?_⟩
  · rcases List.mem_cons.mp hb with rfl | hb
    · exact hlt
    · exact h.known b hb
  · obtain ⟨hji, hj'⟩ := hother hj
    refine ⟨(h.live j b hj').1, fun hb => ?_⟩
    rcases List.mem_cons.mp hb with rfl | hb
    · exact hji (h.sole j i b hj' hheld)
    · exact (h.live j b hj').2 hb
  · exact h.sole j k b (hother hj).2 (hother hk).2
  · by_cases hba : b = a
    · exact Or.inl (List.mem_cons.mpr (Or.inl hba))
    · refine (h.kept b hb).imp (List.mem_cons_of_mem a) fun ⟨j, hj⟩ => ⟨j, ?_⟩
      have hji : j ≠ i := by
        rintro rfl
        exact hba (Option.some.inj (hj.symm.trans hheld))
      exact (update_of_ne hji _ _).trans hj

theorem Sound.hand {i j : ι} (h : Sound o) (hne : i ≠ j) (hempty : o.holds j = none) :
    Sound { o with holds := update (update o.holds j (o.holds i)) i none } := by
  -- what anyone holds now was held before: by the giver, if the taker holds it
  let giver (k : ι) : ι := if k = j then i else k
  have hbefore {k : ι} {a : Nat} (hk : update (update o.holds j (o.holds i)) i none k = some a) :
      k ≠ i ∧ o.holds (giver k) = some a := by
    have hki : k ≠ i := by
      rintro rfl
      rw [update_self] at hk
      cases hk
    rw [update_of_ne hki] at hk
    refine ⟨hki, ?_⟩
    by_cases hkj : k = j
    · subst hkj
      rw [update_self] at hk
      exact (congrArg o.holds (if_pos rfl)).trans hk
    · rw [update_of_ne hkj] at hk
      exact (congrArg o.holds (if_neg hkj)).trans hk
  refine ⟨h.once, h.known, fun k a hk => h.live _ a (hbefore hk).2, fun k l a hk hl => ?_, fun a ha => ?_⟩
  · have hgiver := h.sole _ _ a (hbefore hk).2 (hbefore hl).2
    have hki := (hbefore hk).1
    have hli := (hbefore hl).1
    simp only [giver] at hgiver
    split_ifs at hgiver with hkj hlj hlj
    · exact hkj.trans hlj.symm
    · exact absurd hgiver.symm hli
    · exact absurd hgiver hki
    · exact hgiver
  · refine (h.kept a ha).imp id fun ⟨k, hk⟩ => ?_
    by_cases hki : k = i
    · subst hki
      refine ⟨j, ?_⟩
      change update (update o.holds j (o.holds k)) k none j = some a
      rw [update_of_ne hne.symm, update_self]
      exact hk
    · have hkj : k ≠ j := by
        rintro rfl
        exact absurd (hempty.symm.trans hk) nofun
      refine ⟨k, ?_⟩
      change update (update o.holds j (o.holds i)) i none k = some a
      rw [update_of_ne hki, update_of_ne hkj]
      exact hk

theorem Step.sound (h : Step o o') (hs : Sound o) : Sound o' := by
  cases h with
  | make empty => exact hs.make empty
  | free held => exact hs.free held
  | hand apart empty => exact hs.hand apart empty

theorem Steps.sound (h : Steps o o') (hs : Sound o) : Sound o' := by
  induction h with
  | refl => exact hs
  | tail _ hstep ih => exact hstep.sound ih

omit [DecidableEq ι] in
/-- Once no one holds anything, every object has been given back, and once. -/
theorem Sound.all_freed (h : Sound o) (hempty : ∀ i, o.holds i = none) {a : Nat} (ha : a < o.made) :
    o.freed.count a = 1 := by
  refine List.count_eq_one_of_mem h.once ((h.kept a ha).resolve_right ?_)
  rintro ⟨i, hi⟩
  exact absurd ((hempty i).symm.trans hi) nofun

end Lepton.Owners

import Lepton.Owners

/-! Objects that are known by names, where a name that has become free is given out again. A party holds a name
together with the object it stood for when the party got it. A call by a name that no longer stands for that object is
a stray: it meets nothing, or an object of someone else. In any run in which parties only enter objects under free
names, call and close by what they hold, and hand it on whole, there is no stray, and every name in use has one
holder. -/

namespace Lepton.Names

open Function Owners

structure Table where
  /-- The objects by name. Objects are numbered as they are entered. -/
  entry : Nat → Option Nat := fun _ => none
  made : Nat := 0
  /-- The objects closed, the latest first. -/
  closed : List Nat := []
  strays : Nat := 0

namespace Table

/-- A new object under the name `n`. -/
def enter (t : Table) (n : Nat) : Table := { t with entry := update t.entry n (some t.made), made := t.made + 1 }

/-- A call by the name `n` that is meant for the object `a`. -/
def use (t : Table) (n a : Nat) : Table := { t with strays := t.strays + if t.entry n = some a then 0 else 1 }

/-- The object under the name `n` is closed, be it `a` or not. -/
def close (t : Table) (n a : Nat) : Table :=
  { t.use n a with entry := update t.entry n none, closed := (t.entry n).toList ++ t.closed }

theorem use_of_entry {t : Table} {n a : Nat} (h : t.entry n = some a) : t.use n a = t := by
  rw [use, if_pos h, Nat.add_zero]

theorem close_of_entry {t : Table} {n a : Nat} (h : t.entry n = some a) :
    t.close n a = { t with entry := update t.entry n none, closed := a :: t.closed } := by
  rw [close, use_of_entry h, h]
  rfl

end Table

/-- The name a party has, and the object it stands for. -/
abbrev Hand := Option (Nat × Nat)

structure Parties (ι : Type) where
  table : Table
  hands : ι → Hand

variable {ι : Type} [DecidableEq ι] {p p' : Parties ι}

inductive Step : Parties ι → Parties ι → Prop
  | enter {p : Parties ι} {i : ι} {n : Nat} (empty : p.hands i = none) (free : p.table.entry n = none) :
      Step p ⟨p.table.enter n, update p.hands i (some (n, p.table.made))⟩
  | use {p : Parties ι} {i : ι} {n a : Nat} (held : p.hands i = some (n, a)) : Step p ⟨p.table.use n a, p.hands⟩
  | close {p : Parties ι} {i : ι} {n a : Nat} (held : p.hands i = some (n, a)) :
      Step p ⟨p.table.close n a, update p.hands i none⟩
  | hand {p : Parties ι} {i j : ι} (apart : i ≠ j) (empty : p.hands j = none) :
      Step p ⟨p.table, update (update p.hands j (p.hands i)) i none⟩

abbrev Steps : Parties ι → Parties ι → Prop := Relation.ReflTransGen Step

/-- The objects and their owners. -/
def Parties.objects (p : Parties ι) : Objects ι := ⟨p.table.made, p.table.closed, Option.map Prod.snd ∘ p.hands⟩

/-- The names stand for what their holders take them for. -/
structure Sound (p : Parties ι) : Prop where
  named : ∀ i n a, p.hands i = some (n, a) → p.table.entry n = some a
  listed : ∀ n a, p.table.entry n = some a → ∃ i, p.hands i = some (n, a)
  safe : p.table.strays = 0
  owned : Owners.Sound p.objects

omit [DecidableEq ι] in
theorem sound_start : Sound (⟨{}, fun _ => none⟩ : Parties ι) :=
  ⟨nofun, nofun, rfl, Owners.sound_start⟩

omit [DecidableEq ι] in
/-- A name has one holder. -/
theorem Sound.sole (h : Sound p) {i j : ι} {n a b : Nat} (hi : p.hands i = some (n, a)) (hj : p.hands j = some (n, b)) :
    i = j := by
  have hab : a = b := Option.some.inj ((h.named i n a hi).symm.trans (h.named j n b hj))
  subst hab
  exact h.owned.sole i j a (congrArg (Option.map Prod.snd) hi) (congrArg (Option.map Prod.snd) hj)

/-- Where a value in an updated function comes from. -/
private theorem of_update {κ β : Type} [DecidableEq κ] {f : κ → Option β} {i j : κ} {v : Option β} {x : β}
    (h : update f i v j = some x) : (j = i ∧ v = some x) ∨ (j ≠ i ∧ f j = some x) := by
  by_cases hji : j = i
  · subst hji
    exact Or.inl ⟨rfl, (update_self j v f).symm.trans h⟩
  · exact Or.inr ⟨hji, (update_of_ne hji v f).symm.trans h⟩

theorem Sound.enter {i : ι} {n : Nat} (h : Sound p) (hempty : p.hands i = none) (hfree : p.table.entry n = none) :
    Sound ⟨p.table.enter n, update p.hands i (some (n, p.table.made))⟩ := by
  have howned := h.owned.make (i := i) (congrArg (Option.map Prod.snd) hempty)
  refine ⟨fun j m a hj => ?_, fun m a hm => ?_, h.safe, ?_⟩
  · rcases of_update hj with ⟨-, hnew⟩ | ⟨-, hold⟩
    · cases hnew
      exact update_self n (some p.table.made) p.table.entry
    · -- the new name was free, so it is not the name of another party
      have hmn : m ≠ n := by
        rintro rfl
        exact absurd (hfree.symm.trans (h.named j m a hold)) nofun
      exact (update_of_ne hmn (some p.table.made) p.table.entry).trans (h.named j m a hold)
  · rcases of_update hm with ⟨rfl, hnew⟩ | ⟨-, hm⟩
    · cases hnew
      exact ⟨i, update_self i _ p.hands⟩
    · obtain ⟨j, hj⟩ := h.listed m a hm
      have hji : j ≠ i := by
        rintro rfl
        exact absurd (hempty.symm.trans hj) nofun
      exact ⟨j, (update_of_ne hji _ p.hands).trans hj⟩
  · rw [Parties.objects, comp_update]
    exact howned

theorem Sound.close {i : ι} {n a : Nat} (h : Sound p) (hheld : p.hands i = some (n, a)) :
    Sound ⟨p.table.close n a, update p.hands i none⟩ := by
  have howned := h.owned.free (congrArg (Option.map Prod.snd) hheld)
  rw [Table.close_of_entry (h.named i n a hheld)]
  refine ⟨fun j m b hj => ?_, fun m b hm => ?_, h.safe, ?_⟩
  · obtain ⟨hji, hold⟩ := (of_update hj).resolve_left fun hcase => by cases hcase.2
    have hmn : m ≠ n := by
      rintro rfl
      exact hji (h.sole hold hheld)
    exact (update_of_ne hmn none p.table.entry).trans (h.named j m b hold)
  · obtain ⟨hmn, hold⟩ := (of_update hm).resolve_left fun hcase => by cases hcase.2
    obtain ⟨j, hj⟩ := h.listed m b hold
    have hji : j ≠ i := by
      rintro rfl
      cases hheld.symm.trans hj
      exact hmn rfl
    exact ⟨j, (update_of_ne hji none p.hands).trans hj⟩
  · rw [Parties.objects, comp_update]
    exact howned

theorem Sound.hand {i j : ι} (h : Sound p) (hne : i ≠ j) (hempty : p.hands j = none) :
    Sound ⟨p.table, update (update p.hands j (p.hands i)) i none⟩ := by
  have howned := h.owned.hand hne (congrArg (Option.map Prod.snd) hempty)
  refine ⟨fun k n a hk => ?_, fun n a hn => ?_, h.safe, ?_⟩
  · obtain ⟨-, hkept⟩ := (of_update hk).resolve_left fun hcase => by cases hcase.2
    rcases of_update hkept with ⟨-, hgiven⟩ | ⟨-, hold⟩
    · exact h.named i n a hgiven
    · exact h.named k n a hold
  · obtain ⟨k, hk⟩ := h.listed n a hn
    by_cases hki : k = i
    · subst hki
      refine ⟨j, ?_⟩
      change update (update p.hands j (p.hands k)) k none j = some (n, a)
      rw [update_of_ne hne.symm, update_self]
      exact hk
    · have hkj : k ≠ j := by
        rintro rfl
        exact absurd (hempty.symm.trans hk) nofun
      refine ⟨k, ?_⟩
      change update (update p.hands j (p.hands i)) i none k = some (n, a)
      rw [update_of_ne hki, update_of_ne hkj]
      exact hk
  · rw [Parties.objects, comp_update, comp_update]
    exact howned

theorem Step.sound (h : Step p p') (hs : Sound p) : Sound p' := by
  cases h with
  | enter empty free => exact hs.enter empty free
  | use held =>
    rw [Table.use_of_entry (hs.named _ _ _ held)]
    exact hs
  | close held => exact hs.close held
  | hand apart empty => exact hs.hand apart empty

theorem Steps.sound (h : Steps p p') (hs : Sound p) : Sound p' := by
  induction h with
  | refl => exact hs
  | tail _ hstep ih => exact hstep.sound ih

omit [DecidableEq ι] in
/-- Once no one holds anything, no name is in use and every object has been closed, and once. -/
theorem Sound.all_closed (h : Sound p) (hempty : ∀ i, p.hands i = none) :
    (∀ n, p.table.entry n = none) ∧ ∀ a < p.table.made, p.table.closed.count a = 1 := by
  refine ⟨fun n => ?_, fun a ha => h.owned.all_freed (fun i => congrArg (Option.map Prod.snd) (hempty i)) ha⟩
  cases hn : p.table.entry n with
  | none => rfl
  | some a =>
    obtain ⟨i, hi⟩ := h.listed n a hn
    exact absurd ((hempty i).symm.trans hi) nofun

end Lepton.Names

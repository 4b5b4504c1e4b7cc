import Lepton.Custody
import Lepton.IoBuffer
import Lepton.PoolInvariant

/-! The pool as its users see it. A buffer goes out when `acquire` returns it and comes back when `release` is called;
what is out is what the pool's users hold, by their own accounts. -/

namespace Lepton

open Custody

/-- What a call of the pool moves. -/
def PoolCall.move : PoolCall → Option (Move Nat)
  | .acquired id => id.map .take
  | .released id => some (.give id)

/-- The pool buffer behind a handle. -/
def IoBuffer.item (b : IoBuffer) : List Nat := b.base.toList

theorem IoBuffer.item_of_none {b : IoBuffer} (h : b.base = none) : b.item = [] := by
  rw [item, h]
  rfl

theorem IoBuffer.item_release (b : IoBuffer) : b.release.item = [] := item_of_none b.base_release

theorem IoBuffer.moves_released (b : IoBuffer) : b.released.filterMap PoolCall.move = b.item.map .give := by
  unfold released item
  cases b.base with
  | none => rfl
  | some id => rfl

/-- A buffer is acquired, in a history of calls and other things. -/
theorem held_acquired {β : Type} {move : β → Option (Move Nat)} {x : β} {history : List β} {h : Multiset Nat}
    (hheld : held (history.filterMap move) = some h) {base : Option Nat} (hx : move x = (PoolCall.acquired base).move) :
    held ((x :: history).filterMap move) = some (base.toList + h) := by
  cases base with
  | none =>
    rw [List.filterMap_cons_none hx, Option.toList_none, Multiset.coe_nil, zero_add]
    exact hheld
  | some id =>
    rw [List.filterMap_cons_some hx]
    exact held_take hheld id

namespace Pool

variable {T ι : Type} [DecidableEq T]

instance (s : State T) : DecidablePred (Timely s)
  | .thread _ .load | .thread _ .readNext | .thread _ .giveUp | .thread _ .link | .thread _ .finish
  | .thread _ (.release _) | .write _ _ => isTrue trivial
  | .thread t (.swap _) => inferInstanceAs (Decidable (s.swaps - s.loadedAt t < 2 ^ 32))

/-- What an event of the pool moves. -/
def moved (s : State T) : Event T → Option (Move Nat)
  | .thread t .finish =>
    match s.pc t with
    | .popped idx => some (.take idx)
    | _ => none
  | .thread _ (.release idx) => some (.give idx)
  | _ => none

/-- A pool, and the moves of the users that call it, the latest first. A buffer that is released although it is not out
corrupts the pool, which then has no state. -/
inductive Serves (count : Nat) : Option (State T) → List (ι × Move Nat) → Prop where
  | init : Serves count (some (init count)) []
  | step {s s' : State T} {history : List (ι × Move Nat)} (h : Serves count (some s) history) (e : Event T)
      (htimely : Timely s e) (hstep : step count s e = some s') (hmoved : moved s e = none) :
      Serves count (some s') history
  | move {s s' : State T} {history : List (ι × Move Nat)} (h : Serves count (some s) history) (i : ι) (e : Event T)
      (m : Move Nat) (htimely : Timely s e) (hstep : step count s e = some s') (hmoved : moved s e = some m) :
      Serves count (some s') ((i, m) :: history)
  | twice {s : State T} {history : List (ι × Move Nat)} (h : Serves count (some s) history) (i : ι) (idx : Nat)
      (hidx : idx ∉ s.held) : Serves count none ((i, .give idx) :: history)
  | after {history : List (ι × Move Nat)} (h : Serves count none history) (i : ι) (m : Move Nat) :
      Serves count none ((i, m) :: history)

variable {count : Nat}

/-- The handles in the hands of owners change only where an operation begins or ends. -/
theorem held_quiet {s s' : State T} {t : T} {act : Act} (h : threadStep count s t act = some s')
    (hfinish : act ≠ .finish) (hrelease : ∀ idx, act ≠ .release idx) : s'.held = s.held := by
  unfold threadStep at h
  cases act with
  | finish => exact absurd rfl hfinish
  | release idx => exact absurd rfl (hrelease idx)
  | load =>
    dsimp only at h
    split at h
    · cases h
      rfl
    · cases h
      rfl
    · cases h
  | readNext =>
    dsimp only at h
    split at h
    · split at h
      · cases h
      · cases h
        rfl
    · cases h
  | giveUp =>
    dsimp only at h
    split at h
    · split at h
      · cases h
        rfl
      · cases h
    · cases h
  | link =>
    dsimp only at h
    split at h
    · cases h
      rfl
    · cases h
  | swap spurious =>
    dsimp only at h
    split at h
    · split at h
      · cases h
        rfl
      · cases h
        rfl
    · split at h
      · cases h
        rfl
      · cases h
        rfl
    · cases h

/-- What an event does to the handles of owners. -/
theorem held_step {s s' : State T} {e : Event T} (h : step count s e = some s') :
    (moved s e = none ∧ s'.held = s.held) ∨ (∃ idx, moved s e = some (.take idx) ∧ s'.held = idx :: s.held) ∨
      ∃ idx, moved s e = some (.give idx) ∧ idx ∈ s.held ∧ s'.held = s.held.erase idx := by
  cases e with
  | write idx val =>
    rw [step] at h
    split at h
    · cases h
      exact Or.inl ⟨rfl, rfl⟩
    · cases h
  | thread t act =>
    rw [step] at h
    cases act with
    | finish =>
      rw [threadStep] at h
      cases hpc : s.pc t with
      | popped idx =>
        rw [hpc] at h
        cases h
        exact Or.inr (Or.inl ⟨idx, by rw [moved, hpc], rfl⟩)
      | pushed idx =>
        rw [hpc] at h
        cases h
        exact Or.inl ⟨by rw [moved, hpc], rfl⟩
      | _ =>
        rw [hpc] at h
        cases h
    | release idx =>
      rw [threadStep] at h
      split at h
      · split at h
        · next hmem =>
          cases h
          exact Or.inr (Or.inr ⟨idx, rfl, hmem, rfl⟩)
        · cases h
      · cases h
    | load | readNext | giveUp | link | swap =>
      exact Or.inl ⟨rfl, held_quiet h (fun h => by cases h) (fun _ h => by cases h)⟩

theorem Serves.reachable {history : List (ι × Move Nat)} {s : State T} (h : Serves count (some s) history) :
    Reachable count s := by
  generalize hpool : some s = pool at h
  induction h generalizing s with
  | init =>
    cases hpool
    exact .init
  | step _ e htimely hstep _ ih =>
    cases hpool
    exact (ih rfl).step e htimely hstep
  | move _ _ e _ htimely hstep _ ih =>
    cases hpool
    exact (ih rfl).step e htimely hstep
  | twice => cases hpool
  | after => cases hpool

/-- What is out is in the hands of owners; a pool without a state has got something back twice. -/
theorem Serves.held_eq {history : List (ι × Move Nat)} {pool : Option (State T)} (h : Serves count pool history) :
    held (history.map Prod.snd) = pool.map fun s => (s.held : Multiset Nat) := by
  induction h with
  | init => rfl
  | step _ e _ hstep hmoved ih =>
    obtain ⟨-, hheld⟩ | ⟨idx, htake, -⟩ | ⟨idx, hgive, -⟩ := held_step hstep
    · rw [ih, Option.map_some, Option.map_some, hheld]
    · rw [hmoved] at htake
      cases htake
    · rw [hmoved] at hgive
      cases hgive
  | @move s s' history _ i e m _ hstep hmoved ih =>
    rw [Option.map_some] at ih ⊢
    rw [List.map_cons]
    obtain ⟨hnone, -⟩ | ⟨idx, htake, hheld⟩ | ⟨idx, hgive, hmem, hheld⟩ := held_step hstep
    · rw [hmoved] at hnone
      cases hnone
    · rw [hmoved] at htake
      cases htake
      rw [hheld, ← Multiset.cons_coe]
      exact held_take ih idx
    · rw [hmoved] at hgive
      cases hgive
      rw [hheld, ← Multiset.coe_erase]
      apply held_give
      rw [ih, Multiset.cons_erase (Multiset.mem_coe.mpr hmem)]
  | twice _ i idx hidx ih =>
    rw [List.map_cons, Option.map_none, held, ih, Option.map_some, Option.bind_some]
    exact if_neg hidx
  | after _ i m ih =>
    rw [List.map_cons, Option.map_none]
    rw [Option.map_none] at ih
    cases m with
    | take a => rw [held, ih, Option.map_none]
    | give a => rw [held, ih, Option.bind_none]

/-- **Every buffer has one place.** If the users of the pool account for their moves, the pool gets nothing back twice,
and every buffer is free, with one of the users or on its way, exactly once. -/
theorem Serves.places [Fintype T] [Fintype ι] [DecidableEq ι] (hpos : 1 ≤ count) (hcount : count < 2 ^ 31)
    {history : List (ι × Move Nat)} {pool : Option (State T)} (h : Serves count pool history) {holding : ι → Multiset Nat}
    (hheld : ∀ i, held (movesOf i history) = some (holding i)) :
    ∃ s, pool = some s ∧
      (s.freeList count : Multiset Nat) + Ledger.total id holding + Ledger.total Pc.transit s.pc = Multiset.range count ∧
      ((∀ t, s.pc t = .idle) → s.available = (s.freeList count).length) := by
  have hout := h.held_eq
  rw [held_total hheld] at hout
  obtain ⟨s, rfl, hs⟩ := Option.map_eq_some_iff.mp hout.symm
  obtain ⟨free, hI⟩ := inv_of_reachable hpos hcount h.reachable
  refine ⟨s, rfl, ?_, fun hidle => ?_⟩
  · rw [hI.freeList, ← hs]
    exact hI.places
  · rw [hI.freeList]
    exact hI.available_idle hcount hidle

/-- The pool after the events of its users, the latest first, and what they have moved; none where a thread's program is
not at the step, or comes too late. -/
def trace (count : Nat) : List (ι × Event T) → Option (State T × List (ι × Move Nat))
  | [] => some (init count, [])
  | (i, e) :: before =>
    (trace count before).bind fun (s, history) =>
      if Timely s e then (step count s e).map fun s' => (s', (moved s e).toList.map (Prod.mk i) ++ history) else none

/-- The events of an operation that nothing disturbs, the latest first. -/
def undisturbed (t : T) : Move Nat → List (Event T)
  | .take _ => [.thread t .finish, .thread t (.swap false), .thread t .readNext, .thread t .load]
  | .give idx =>
    [.thread t .finish, .thread t (.swap false), .thread t .link, .thread t .load, .thread t (.release idx)]

theorem serves_trace {events : List (ι × Event T)} {s : State T} {history : List (ι × Move Nat)}
    (h : trace count events = some (s, history)) : Serves count (some s) history := by
  induction events generalizing s history with
  | nil =>
    cases h
    exact .init
  | cons p before ih =>
    obtain ⟨i, e⟩ := p
    rw [trace, Option.bind_eq_some_iff] at h
    obtain ⟨⟨s₁, history₁⟩, hbefore, h⟩ := h
    dsimp only at h
    split at h
    · next htimely =>
      rw [Option.map_eq_some_iff] at h
      obtain ⟨s₂, hstep, heq⟩ := h
      cases heq
      have hserves := ih hbefore
      cases hmoved : moved s₁ e with
      | none => exact hserves.step e htimely hstep hmoved
      | some m => exact hserves.move i e m htimely hstep hmoved
    · cases h

/-- A pool that can be computed. -/
theorem serves_of_trace [DecidableEq ι] {events : List (ι × Event T)} {history : List (ι × Move Nat)}
    (P : State T → Prop) [DecidablePred P] (h : (trace count events).any (fun p => p.2 = history ∧ P p.1) = true) :
    ∃ s, Serves count (some s) history ∧ P s := by
  cases htrace : trace count events with
  | none =>
    rw [htrace] at h
    cases h
  | some p =>
    rw [htrace] at h
    obtain ⟨hhistory, hP⟩ := of_decide_eq_true h
    rw [← hhistory]
    exact ⟨p.1, serves_trace htrace, hP⟩

end Pool

end Lepton

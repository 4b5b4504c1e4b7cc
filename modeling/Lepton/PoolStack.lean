import Lepton.Linear
import Lepton.PoolInvariant

/-! The pool is a stack. Each `acquire` and each `release` takes effect at one of its own steps: at its exchange, or, if
`acquire` finds nothing, when it reads a head without an index. In the order of these steps the operations are those of
a sequential stack that holds the free buffers, so that the buffer released last is the next one to be acquired. -/

namespace Lepton.Pool

open Linear Ledger

variable {T : Type} [DecidableEq T] {count : Nat}

/-- What one step of a thread does, with where the thread stands. -/
inductive Turn (count : Nat) (s : State T) (t : T) : Act → State T → Prop where
  | begin (hpc : s.pc t = .idle) : Turn count s t .load (s.read count t (.acquiring s.headFreeVal))
  | readHead {idx : Nat} (hpc : s.pc t = .releasing idx) :
      Turn count s t .load (s.read count t (.linking idx s.headFreeVal))
  | readNext {old : Nat} (hpc : s.pc t = .acquiring old) (hpos : ¬ Negative (idxOf old)) :
      Turn count s t .readNext (s.setPc t (.popping old (s.nextIdx (idxOf old))))
  | giveUp {old : Nat} (hpc : s.pc t = .acquiring old) (hneg : Negative (idxOf old)) :
      Turn count s t .giveUp (s.setPc t .idle)
  | link {idx old : Nat} (hpc : s.pc t = .linking idx old) :
      Turn count s t .link { s.setPc t (.pushing idx old) with
        nextIdx := Function.update s.nextIdx idx (if Negative (idxOf old) then listEnd else idxOf old) }
  | pop {next : Nat} (hpc : s.pc t = .popping s.headFreeVal next) :
      Turn count s t (.swap false) (s.exchange t (bump s.headFreeVal next) (.popped (idxOf s.headFreeVal)))
  | popAgain {old next : Nat} {spurious : Bool} (hpc : s.pc t = .popping old next)
      (hfails : ¬ (s.headFreeVal = old ∧ spurious = false)) :
      Turn count s t (.swap spurious) (s.read count t (.acquiring s.headFreeVal))
  | push {idx : Nat} (hpc : s.pc t = .pushing idx s.headFreeVal) :
      Turn count s t (.swap false) (s.exchange t (bump s.headFreeVal idx) (.pushed idx))
  | pushAgain {idx old : Nat} {spurious : Bool} (hpc : s.pc t = .pushing idx old)
      (hfails : ¬ (s.headFreeVal = old ∧ spurious = false)) :
      Turn count s t (.swap spurious) (s.read count t (.linking idx s.headFreeVal))
  | handOut {idx : Nat} (hpc : s.pc t = .popped idx) :
      Turn count s t .finish { s.setPc t .idle with
        available := (s.available + (2 ^ 64 - 1)) % 2 ^ 64, held := idx :: s.held }
  | countIn {idx : Nat} (hpc : s.pc t = .pushed idx) :
      Turn count s t .finish { s.setPc t .idle with available := (s.available + 1) % 2 ^ 64 }
  | giveBack {idx : Nat} (hpc : s.pc t = .idle) (hidx : idx ∈ s.held) :
      Turn count s t (.release idx) { s.setPc t (.releasing idx) with held := s.held.erase idx }

theorem turn_of_threadStep {s s' : State T} {t : T} {act : Act} (h : threadStep count s t act = some s') :
    Turn count s t act s' := by
  cases act with
  | load =>
    rw [threadStep] at h
    split at h <;> cases h
    · next hpc => exact .begin hpc
    · next hpc => exact .readHead hpc
  | readNext =>
    rw [threadStep] at h
    split at h
    · next old hpc =>
      split at h <;> cases h
      next hpos => exact .readNext hpc hpos
    · cases h
  | giveUp =>
    rw [threadStep] at h
    split at h
    · next old hpc =>
      split at h <;> cases h
      next hneg => exact .giveUp hpc hneg
    · cases h
  | link =>
    rw [threadStep] at h
    split at h <;> cases h
    next hpc => exact .link hpc
  | swap spurious =>
    rw [threadStep] at h
    split at h
    · next old next hpc =>
      split at h <;> cases h
      · next hcas =>
        obtain ⟨rfl, rfl⟩ := hcas
        exact .pop hpc
      · next hfails => exact .popAgain hpc hfails
    · next idx old hpc =>
      split at h <;> cases h
      · next hcas =>
        obtain ⟨rfl, rfl⟩ := hcas
        exact .push hpc
      · next hfails => exact .pushAgain hpc hfails
    · cases h
  | finish =>
    rw [threadStep] at h
    split at h <;> cases h
    · next hpc => exact .handOut hpc
    · next hpc => exact .countIn hpc
  | release idx =>
    rw [threadStep] at h
    split at h
    · next hpc =>
      split at h <;> cases h
      next hidx => exact .giveBack hpc hidx
    · cases h

/-! ### The sequential stack -/

inductive Op where
  | acquire
  | release (idx : Nat)
  deriving DecidableEq, Repr

/-- The stack of the free buffers; a result is the buffer that is handed out. -/
inductive Stack : List Nat → Op → Option Nat → List Nat → Prop where
  | pop (idx : Nat) (free : List Nat) : Stack (idx :: free) .acquire (some idx) free
  | empty : Stack [] .acquire none []
  | push (idx : Nat) (free : List Nat) (hnew : idx ∉ free) : Stack free (.release idx) none (idx :: free)

/-- What a thread shows of a reading of the head in `acquire`. -/
def emptyPoint (s : State T) (t : T) : List (Label T Op (Option Nat)) :=
  if Negative (idxOf s.headFreeVal) then [.point t .acquire none] else []

/-- What a step shows, the latest first. -/
def labels (s : State T) : Event T → List (Label T Op (Option Nat))
  | .thread t .load =>
    match s.pc t with
    | .idle => emptyPoint s t ++ [.call t .acquire]
    | _ => []
  | .thread t (.swap spurious) =>
    match s.pc t with
    | .popping old _ =>
      if s.headFreeVal = old ∧ spurious = false then [.point t .acquire (some (idxOf old))] else emptyPoint s t
    | .pushing idx old =>
      if s.headFreeVal = old ∧ spurious = false then [.point t (.release idx) none] else []
    | _ => []
  | .thread t .giveUp => [.ret t .acquire none]
  | .thread t .finish =>
    match s.pc t with
    | .popped idx => [.ret t .acquire (some idx)]
    | .pushed idx => [.ret t (.release idx) none]
    | _ => []
  | .thread t (.release idx) => [.call t (.release idx)]
  | .thread _ .readNext | .thread _ .link | .write _ _ => []

/-- The timely interleavings, with what their steps show. -/
inductive Shows (count : Nat) : State T → List (Label T Op (Option Nat)) → Prop where
  | init : Shows count (init count) []
  | step {s s' : State T} {history : List (Label T Op (Option Nat))} (h : Shows count s history) (e : Event T)
      (htimely : Timely s e) (hstep : step count s e = some s') : Shows count s' (labels s e ++ history)

/-- The phase of an operation, from where its thread stands. -/
def Pc.phase : Pc → Phase Op (Option Nat)
  | .idle => .idle
  | .acquiring old => if Negative (idxOf old) then .decided .acquire none else .called .acquire
  | .popping _ _ => .called .acquire
  | .popped idx => .decided .acquire (some idx)
  | .releasing idx | .linking idx _ | .pushing idx _ => .called (.release idx)
  | .pushed idx => .decided (.release idx) none

omit [DecidableEq T] in
/-- A step of one thread is no label of another. -/
theorem thread_of_mem_labels {s : State T} {t : T} {act : Act} {l : Label T Op (Option Nat)}
    (h : l ∈ labels s (.thread t act)) : l.thread = t := by
  have hempty (hl : l ∈ emptyPoint s t) : l.thread = t := by
    unfold emptyPoint at hl
    split at hl
    · rw [List.mem_singleton.mp hl]
      rfl
    · cases hl
  have hone {l' : Label T Op (Option Nat)} (hthread : l'.thread = t) (hl : l ∈ [l']) : l.thread = t := by
    rw [List.mem_singleton.mp hl]
    exact hthread
  cases act with
  | load =>
    dsimp only [labels] at h
    split at h
    · rcases List.mem_append.mp h with hl | hl
      · exact hempty hl
      · exact hone rfl hl
    · cases h
  | swap spurious =>
    dsimp only [labels] at h
    split at h
    · split at h
      · exact hone rfl h
      · exact hempty h
    · split at h
      · exact hone rfl h
      · cases h
    · cases h
  | giveUp => exact hone rfl h
  | finish =>
    dsimp only [labels] at h
    split at h
    · exact hone rfl h
    · exact hone rfl h
    · cases h
  | release idx => exact hone rfl h
  | readNext => cases h
  | link => cases h

omit [DecidableEq T] in
/-- Reading the head settles an `acquire` that finds nothing. -/
theorem stands_read {s : State T} {t : T} {history : List (Label T Op (Option Nat))}
    (h : Stands t history (.called .acquire)) :
    Stands t (emptyPoint s t ++ history) (Pc.acquiring s.headFreeVal).phase := by
  rw [emptyPoint, Pc.phase]
  split
  · exact h.point none
  · exact h

/-- A thread's own labels take it to its next phase. -/
theorem Turn.stands {s s' : State T} {t : T} {act : Act} {history : List (Label T Op (Option Nat))}
    (hturn : Turn count s t act s') (h : Stands t history (s.pc t).phase) :
    Stands t (labels s (.thread t act) ++ history) (s'.pc t).phase := by
  have hnext {x : State T} {p : Pc} {new : List (Label T Op (Option Nat))} (hx : x.pc = Function.update s.pc t p)
      (hp : Stands t (new ++ history) p.phase) : Stands t (new ++ history) (x.pc t).phase := by
    rw [hx, Function.update_self]
    exact hp
  cases hturn with
  | begin hpc =>
    rw [hpc] at h
    refine hnext rfl ?_
    rw [labels, hpc, List.append_assoc]
    exact stands_read (h.call Op.acquire)
  | readHead hpc =>
    rw [hpc] at h
    refine hnext rfl ?_
    rw [labels, hpc]
    exact h
  | readNext hpc hpos =>
    rw [hpc, Pc.phase, if_neg hpos] at h
    exact hnext rfl h
  | giveUp hpc hneg =>
    rw [hpc, Pc.phase, if_pos hneg] at h
    exact hnext rfl h.ret
  | link hpc =>
    rw [hpc] at h
    exact hnext rfl h
  | pop hpc =>
    rw [hpc] at h
    refine hnext rfl ?_
    rw [labels, hpc]
    dsimp only
    rw [if_pos ⟨rfl, rfl⟩]
    exact h.point _
  | popAgain hpc hfails =>
    rw [hpc] at h
    refine hnext rfl ?_
    rw [labels, hpc]
    dsimp only
    rw [if_neg hfails]
    exact stands_read h
  | push hpc =>
    rw [hpc] at h
    refine hnext rfl ?_
    rw [labels, hpc]
    dsimp only
    rw [if_pos ⟨rfl, rfl⟩]
    exact h.point _
  | pushAgain hpc hfails =>
    rw [hpc] at h
    refine hnext rfl ?_
    rw [labels, hpc]
    dsimp only
    rw [if_neg hfails]
    exact h
  | handOut hpc =>
    rw [hpc] at h
    refine hnext rfl ?_
    rw [labels, hpc]
    exact h.ret
  | countIn hpc =>
    rw [hpc] at h
    refine hnext rfl ?_
    rw [labels, hpc]
    exact h.ret
  | giveBack hpc hidx =>
    rw [hpc] at h
    exact hnext rfl (h.call _)

theorem Turn.pc_of_ne {s s' : State T} {t u : T} {act : Act} (hturn : Turn count s t act s') (hu : u ≠ t) :
    s'.pc u = s.pc u := by
  cases hturn <;> exact Function.update_of_ne hu ..

/-- Where the threads stand is what they have shown. -/
theorem Shows.stands {s : State T} {history : List (Label T Op (Option Nat))} (h : Shows count s history) (t : T) :
    Stands t history (s.pc t).phase := by
  induction h with
  | init => exact .start
  | step h e htimely hstep ih =>
    cases e with
    | write idx val =>
      rw [Pool.step] at hstep
      split at hstep <;> cases hstep
      exact ih
    | thread u act =>
      have hturn := turn_of_threadStep hstep
      by_cases htu : t = u
      · subst htu
        exact hturn.stands ih
      · rw [hturn.pc_of_ne htu]
        exact ih.others fun l hl hthread => htu (hthread.symm.trans (thread_of_mem_labels hl))

/-! ### The exchanges are those of the stack -/

variable [Fintype T] {free : List Nat}

omit [DecidableEq T] in
theorem legal_read {s : State T} {t : T} {history : List (Label T Op (Option Nat))} {start : List Nat}
    (hI : Inv count free s) (h : Legal Stack start history free) :
    Legal Stack start (emptyPoint s t ++ history) free := by
  unfold emptyPoint
  split
  · next hneg =>
    obtain rfl := chain_negative hI.chain hneg
    exact h.point t .empty
  · exact h

/-- A step keeps the invariant, and what it shows is what it does to the free list. -/
theorem Turn.legal {s s' : State T} {t : T} {act : Act} {history : List (Label T Op (Option Nat))} {start : List Nat}
    (hturn : Turn count s t act s') (hcount : count < 2 ^ 31) (htimely : Timely s (.thread t act))
    (hI : Inv count free s) (h : Legal Stack start history free) :
    ∃ free', Inv count free' s' ∧ Legal Stack start (labels s (.thread t act) ++ history) free' := by
  have hsame {p q : Pc} (hpc : s.pc t = q) (hp : p.SamePlace q) : p.SamePlace (s.pc t) := hpc ▸ hp
  cases hturn with
  | begin hpc =>
    refine ⟨free, hI.readAcquire (hsame hpc ⟨rfl, rfl, rfl⟩), ?_⟩
    rw [labels, hpc, List.append_assoc]
    exact legal_read hI (h.call t Op.acquire)
  | readHead hpc =>
    refine ⟨free, hI.readRelease (hsame hpc ⟨rfl, rfl, rfl⟩), ?_⟩
    rw [labels, hpc]
    exact h
  | readNext hpc hpos =>
    have hk := hI.knows t
    rw [hpc] at hk
    exact ⟨free, hI.setPc (hsame hpc ⟨rfl, rfl, rfl⟩) ⟨hk.1, hpos, fun _ => rfl⟩, h⟩
  | giveUp hpc hneg => exact ⟨free, hI.setPc (hsame hpc ⟨rfl, rfl, rfl⟩) trivial, h.ret t Op.acquire none⟩
  | link hpc => exact ⟨free, hI.link hpc, h⟩
  | pop hpc =>
    obtain ⟨rest, rfl, hpop⟩ := hI.pop hpc htimely
    refine ⟨rest, hpop, ?_⟩
    rw [labels, hpc]
    dsimp only
    rw [if_pos ⟨rfl, rfl⟩]
    exact h.point t (.pop _ _)
  | popAgain hpc hfails =>
    refine ⟨free, hI.readAcquire (hsame hpc ⟨rfl, rfl, rfl⟩), ?_⟩
    rw [labels, hpc]
    dsimp only
    rw [if_neg hfails]
    exact legal_read hI h
  | push hpc =>
    have hnew : _ ∉ free := (hI.transit_apart (t := t) (by rw [hpc]; exact Multiset.mem_singleton_self _)).1
    refine ⟨_, hI.push hcount hpc, ?_⟩
    rw [labels, hpc]
    dsimp only
    rw [if_pos ⟨rfl, rfl⟩]
    exact h.point t (.push _ _ hnew)
  | pushAgain hpc hfails =>
    refine ⟨free, hI.readRelease (hsame hpc ⟨rfl, rfl, rfl⟩), ?_⟩
    rw [labels, hpc]
    dsimp only
    rw [if_neg hfails]
    exact h
  | handOut hpc =>
    refine ⟨free, hI.handOut hpc, ?_⟩
    rw [labels, hpc]
    exact h.ret t _ _
  | countIn hpc =>
    refine ⟨free, hI.countIn hpc, ?_⟩
    rw [labels, hpc]
    exact h.ret t _ _
  | giveBack hpc hidx => exact ⟨free, hI.giveBack hpc hidx, h.call t _⟩

theorem Shows.legal {s : State T} {history : List (Label T Op (Option Nat))} (h : Shows count s history)
    (hpos : 1 ≤ count) (hcount : count < 2 ^ 31) :
    ∃ free, Inv count free s ∧ Legal Stack (List.range count) history free := by
  induction h with
  | init =>
    refine ⟨_, inv_init hpos hcount, ?_⟩
    rw [← List.range_eq_range']
    exact .start
  | step h e htimely hstep ih =>
    obtain ⟨free, hI, hlegal⟩ := ih
    cases e with
    | write idx val =>
      rw [Pool.step] at hstep
      split at hstep <;> cases hstep
      next hidx => exact ⟨free, hI.write hidx val, hlegal⟩
    | thread t act => exact (turn_of_threadStep hstep).legal hcount htimely hI hlegal

/-- **The pool is a linearizable stack.** In every timely interleaving of any threads' operations on a pool of
`1 ≤ count < 2 ^ 31` buffers, every operation takes effect at one of its own steps, between its call and its return and
with the result that it returns, and in this order the operations are those of a sequential stack that starts with all
the buffers and now holds the free list. -/
theorem pool_linearizable {s : State T} {history : List (Label T Op (Option Nat))} (hpos : 1 ≤ count)
    (hcount : count < 2 ^ 31) (h : Shows count s history) :
    Linearizes Stack (List.range count) history (s.freeList count) := by
  obtain ⟨free, hI, hlegal⟩ := h.legal hpos hcount
  rw [hI.freeList]
  exact ⟨hlegal, fun t => ⟨_, h.stands t⟩⟩

/-- Thread 0 is overtaken by thread 1 between its reading of the head and its exchange; it tries again, finds nothing
and returns the empty handle, and then thread 1 gives its buffer back. -/
theorem overtaken_linearizable :
    ∃ s : State (Fin 2), ∃ history, Shows 1 s history ∧ s.freeList 1 = [0] ∧ history.length = 8 ∧
      Linearizes Stack (List.range 1) history (s.freeList 1) := by
  have h0 : Shows 1 (init 1 : State (Fin 2)) [] := .init
  have h1 := h0.step (.thread 0 .load) trivial rfl
  have h2 := h1.step (.thread 1 .load) trivial rfl
  have h3 := h2.step (.thread 1 .readNext) trivial rfl
  have h4 := h3.step (.thread 1 (.swap false)) (by change _ < 2 ^ 32; decide) rfl
  have h5 := h4.step (.thread 0 .readNext) trivial rfl
  have h6 := h5.step (.thread 0 (.swap false)) (by change _ < 2 ^ 32; decide) rfl
  have h7 := h6.step (.thread 0 .giveUp) trivial rfl
  have h8 := h7.step (.thread 1 .finish) trivial rfl
  have h9 := h8.step (.thread 1 (.release 0)) trivial rfl
  have h10 := h9.step (.thread 1 .load) trivial rfl
  have h11 := h10.step (.thread 1 .link) trivial rfl
  have h12 := h11.step (.thread 1 (.swap false)) (by change _ < 2 ^ 32; decide) rfl
  exact ⟨_, _, h12, rfl, rfl, pool_linearizable (by decide) (by decide) h12⟩

end Lepton.Pool

import Mathlib.Data.List.Basic
import Mathlib.Data.List.Induction
import Mathlib.Data.Nat.Basic

/-! The thread of an event loop. `EventLoopThread` runs an `EventLoop` on a thread of its own, over the POSIX backend; its
owner calls `start` and `stop`. Three variables say how far things are, `running_`, `thread_` and the flag of the loop, and
both threads write them. A run is a list of acts in any order: a call by the owner, a step of the owner inside of a call, or a
step of the loop thread, where user code may stop the loop. Memory does not run out. The history, under `gen` and `log`, is
read by nothing. -/

namespace Lepton.LoopThread

variable {e : Ev} {s : State} {pc : LoopPc}

/-! ### The two threads -/

/-- Where the loop thread is: at the statement that comes next. -/
inductive LoopPc where
  | makeLoop
  | makePool
  | setHooks
  /-- `running_ = true` of `EventLoop::run`. -/
  | run
  /-- `while (running_)`. -/
  | test
  | stepHook
  /-- The user's hook and the pollables. -/
  | userCode
  | shutdownHook
  /-- `running_.store(false)`. -/
  | store
  | done
  deriving DecidableEq, Repr

/-- Where the owner is. -/
inductive OwnerPc where
  | idle
  /-- In `start`, before the assignment to `thread_`. -/
  | assign
  /-- In `start`, in `init_state.wait(0)`. -/
  | wait
  /-- In `start`, before the test of `init_state`. -/
  | check
  /-- In `start`, joining a thread that could not initialise. -/
  | joinFailed
  /-- In `stop`, before `join`. -/
  | join
  /-- The process is gone. -/
  | aborted
  deriving DecidableEq, Repr

/-- What is kept of the `EventLoop`. -/
structure Loop where
  running : Bool := false
  stepHook : Bool := false
  shutdownHook : Bool := false
  /-- `done` of the `InitStatus` that the step hook holds. -/
  entered : Bool := false
  deriving DecidableEq, Repr

/-- What happened. The loop threads are numbered. -/
inductive Ev where
  /-- `start` found `running_` clear, and set it. -/
  | taken
  /-- `start` found `running_` set, and returned false. -/
  | refused
  | spawned (g : Nat)
  /-- The first step of the loop. -/
  | entered (g : Nat)
  | shutdown (g : Nat)
  /-- The loop thread cleared `running_`, at its end. -/
  | ended (g : Nat)
  /-- `start` returned true. -/
  | started (g : Nat)
  /-- `start` returned false, since the initialisation failed. -/
  | failed
  /-- `stop` returned. -/
  | stopped
  /-- A thread was assigned over one that is joinable: `std::terminate`. -/
  | overwrote
  deriving DecidableEq, Repr

structure State where
  /-- `running_`. -/
  running : Bool := false
  /-- `thread_`: the place of the thread, if it is joinable. -/
  thread : Option LoopPc := none
  /-- `loop_`. -/
  loop : Option Loop := none
  /-- `pool_`. -/
  pool : Bool := false
  /-- `init_state` of the current `start`. -/
  initState : Nat := 0
  owner : OwnerPc := .idle
  /-- History: the number of the latest loop thread. -/
  gen : Nat := 0
  /-- History: events, the latest first. -/
  log : List Ev := []
  deriving DecidableEq, Repr

namespace State

def note (s : State) (e : Ev) : State := { s with log := e :: s.log }

/-- `EventLoopThread::start`, up to the assignment to `thread_`. -/
def start (s : State) : State :=
  if s.running then s.note .refused
  else { s.note .taken with running := true, initState := 0, owner := .assign }

/-- `EventLoopThread::stop`, up to `join`. -/
def stop (s : State) : State :=
  { s with loop := s.loop.map fun l => { l with running := false }, owner := .join }

/-- `if (thread_.joinable()) thread_.join()` and the return. It blocks while the thread runs. -/
def join (s : State) (e : Ev) : State :=
  match s.thread with
  | none => { s.note e with owner := .idle }
  | some .done => { s.note e with thread := none, owner := .idle }
  | some _ => s

/-- A step of the owner. -/
def ownerStep (s : State) : State :=
  match s.owner with
  | .idle => s
  | .aborted => s
  | .assign =>
    if s.thread.isSome then { s.note .overwrote with owner := .aborted }
    else { s.note (.spawned (s.gen + 1)) with thread := some .makeLoop, gen := s.gen + 1, owner := .wait }
  | .wait => if s.initState ≠ 0 then { s with owner := .check } else s
  | .check =>
    if s.initState ≠ 1 then { s with owner := .joinFailed }
    else { s.note (.started s.gen) with owner := .idle }
  | .joinFailed => s.join .failed
  | .join => s.join .stopped

/-- A step of the loop thread in its loop `l`. -/
def loopStepIn (s : State) (l : Loop) (selfStop : Bool) : LoopPc → State
  | .makeLoop => s
  | .makePool => { s with pool := true, thread := some .setHooks }
  | .setHooks => { s with loop := some { l with stepHook := true, shutdownHook := true }, thread := some .run }
  | .run => { s with loop := some { l with running := true }, thread := some .test }
  | .test => { s with thread := some (if l.running then .stepHook else .shutdownHook) }
  | .stepHook =>
    if l.stepHook && !l.entered then
      { s.note (.entered s.gen) with initState := 1, loop := some { l with entered := true }, thread := some .userCode }
    else { s with thread := some .userCode }
  | .userCode => { s with loop := some { l with running := l.running && !selfStop }, thread := some .test }
  | .shutdownHook =>
    if l.shutdownHook then
      { s.note (.shutdown s.gen) with pool := false, loop := some { l with shutdownHook := false }, thread := some .store }
    else { s with thread := some .store }
  | .store => { s.note (.ended s.gen) with running := false, thread := some .done }
  | .done => s

/-- A step of the loop thread. -/
def loopStep (s : State) (selfStop : Bool) : State :=
  match s.thread, s.loop with
  | none, _ => s
  | some .makeLoop, _ => { s with loop := some {}, thread := some .makePool }
  | some pc, some l => s.loopStepIn l selfStop pc
  -- a null `loop_` is dereferenced
  | some _, none => { s with owner := .aborted }

end State

inductive Act where
  | start
  | stop
  | owner
  | loop (selfStop : Bool)
  deriving DecidableEq, Repr

/-- One act. The owner makes one call at a time. -/
def step (s : State) (a : Act) : State :=
  if s.owner = .aborted then s
  else
    match a with
    | .start => if s.owner = .idle then s.start else s
    | .stop => if s.owner = .idle then s.stop else s
    | .owner => s.ownerStep
    | .loop selfStop => s.loopStep selfStop

def run (acts : List Act) : State := acts.foldl step {}

theorem run_append (acts : List Act) (a : Act) : run (acts ++ [a]) = step (run acts) a := List.foldl_append

/-! ### What is said of a run -/

/-- The loop thread that no `stop` has joined. -/
def unjoined : List Ev → Option Nat
  | [] => none
  | .spawned g :: _ => some g
  | .stopped :: _ => none
  | _ :: older => unjoined older

/-- What holds when a call of `start` returns. On this backend the initialisation does not fail. -/
def Justified (older : List Ev) : Ev → Prop
  | .started g => unjoined older = some g ∧ .entered g ∈ older
  | .refused => ∃ g, unjoined older = some g ∧ .ended g ∉ older
  | .failed => False
  | _ => True

/-- Each event has the property, with regard to what came before it. -/
def Throughout (P : List Ev → Ev → Prop) (log : List Ev) : Prop := ∀ newer e older, log = newer ++ e :: older → P older e

/-- The shutdown hook of the loop thread `g` has run once if `start` succeeded with it, and not at all otherwise. -/
def Settled (log : List Ev) (g : Nat) : Prop := log.count (.shutdown g) = if .started g ∈ log then 1 else 0

/-- A state in order: `start` is not about to assign over a joinable thread, nor has it; it returns true behind the first step
of the loop, and false while a loop thread runs; behind `stop` there is no loop thread, and the shutdown hook has run once for
each `start` that succeeded. -/
structure Orderly (s : State) : Prop where
  assigns : s.owner ≠ .aborted ∧ (s.owner = .assign → s.thread = none)
  returns : Throughout Justified s.log
  stopped : s.log.head? = some .stopped →
    s.thread = none ∧ s.running = false ∧ ∀ g, Settled s.log g

/-- A loop thread has come to its end, and no `stop` has joined it. -/
def Abandoned (log : List Ev) : Prop := ∃ g, unjoined log = some g ∧ .ended g ∈ log

theorem throughout_nil (P : List Ev → Ev → Prop) : Throughout P [] := by
  intro newer e older h
  exact absurd h.symm (List.append_ne_nil_of_right_ne_nil newer (List.cons_ne_nil e older))

theorem throughout_cons {P : List Ev → Ev → Prop} {log : List Ev} :
    Throughout P (e :: log) ↔ P log e ∧ Throughout P log := by
  constructor
  · intro h
    refine ⟨h [] e log rfl, fun newer e' older hlog => ?_⟩
    exact h (e :: newer) e' older (congrArg (e :: ·) hlog)
  · rintro ⟨he, hlog⟩ newer e' older h
    cases newer with
    | nil =>
      cases h
      exact he
    | cons d newer =>
      cases h
      exact hlog newer e' older rfl

/-! ### The history -/

/-- The loop thread that an event is about. -/
def Ev.gen : Ev → Option Nat
  | .spawned g => some g
  | .entered g => some g
  | .shutdown g => some g
  | .ended g => some g
  | .started g => some g
  | _ => none

theorem Settled.cons {log : List Ev} {g : Nat} (h : Settled log g) (hshutdown : e ≠ .shutdown g)
    (hstarted : e ≠ .started g) : Settled (e :: log) g := by
  unfold Settled at h ⊢
  rw [List.count_cons_of_ne hshutdown, h]
  simp only [List.mem_cons, hstarted.symm, false_or]

/-- The history behind `gen` loop threads, the last of which is joinable or not. -/
structure Chronicle (log : List Ev) (gen : Nat) (joinable : Bool) : Prop where
  unjoined : unjoined log = if joinable then some gen else none
  numbered : ∀ e ∈ log, ∀ g, e.gen = some g → g ≤ gen
  settled : ∀ g, g ≠ gen ∨ joinable = false → Settled log g
  returns : Throughout Justified log

namespace Chronicle

variable {log : List Ev} {gen : Nat} {joinable : Bool}

theorem not_mem (h : Chronicle log gen joinable) {g : Nat} (he : e.gen = some g) (hg : gen < g) : e ∉ log :=
  fun hmem => absurd (h.numbered e hmem g he) (Nat.not_le.mpr hg)

/-- An event that is not the start nor the end of a loop thread for its owner. -/
theorem note (h : Chronicle log gen joinable) (hunjoined : LoopThread.unjoined (e :: log) = LoopThread.unjoined log)
    (hnumber : ∀ g, e.gen = some g → g = gen ∧ joinable = true) (hreturn : Justified log e) :
    Chronicle (e :: log) gen joinable where
  unjoined := hunjoined.trans h.unjoined
  numbered := by
    intro d hd g hg
    rcases List.mem_cons.mp hd with rfl | hd
    · exact Nat.le_of_eq (hnumber g hg).1
    · exact h.numbered d hd g hg
  settled := by
    intro g hg
    have hother : ∀ d : Ev, d.gen = some g → d ≠ e := by
      rintro d hd rfl
      obtain ⟨hgen, hjoinable⟩ := hnumber g hd
      rcases hg with hg | hg
      · exact hg hgen
      · rw [hjoinable] at hg
        cases hg
    exact (h.settled g hg).cons (hother (.shutdown g) rfl).symm (hother (.started g) rfl).symm
  returns := throughout_cons.mpr ⟨hreturn, h.returns⟩

theorem spawned (h : Chronicle log gen false) : Chronicle (.spawned (gen + 1) :: log) (gen + 1) true where
  unjoined := rfl
  numbered := by
    intro d hd g hg
    rcases List.mem_cons.mp hd with rfl | hd
    · cases hg
      exact le_rfl
    · exact le_trans (h.numbered d hd g hg) (Nat.le_succ gen)
  settled := fun g _ => (h.settled g (Or.inr rfl)).cons nofun nofun
  returns := throughout_cons.mpr ⟨trivial, h.returns⟩

/-- `stop` returns behind a loop thread that ran its shutdown hook, or behind none. -/
theorem stopped (h : Chronicle log gen joinable)
    (hlast : joinable = true → Settled log gen) :
    Chronicle (.stopped :: log) gen false where
  unjoined := rfl
  numbered := by
    intro d hd g hg
    rcases List.mem_cons.mp hd with rfl | hd
    · cases hg
    · exact h.numbered d hd g hg
  settled := by
    intro g _
    refine Settled.cons ?_ nofun nofun
    by_cases hg : g = gen ∧ joinable = true
    · obtain ⟨rfl, hjoinable⟩ := hg
      exact hlast hjoinable
    · rw [Classical.not_and_iff_not_or_not, Bool.not_eq_true] at hg
      exact h.settled g hg
  returns := throughout_cons.mpr ⟨trivial, h.returns⟩

end Chronicle

/-! ### The invariant -/

/-- `running_`, by the place of the loop thread. -/
def busy : Option LoopPc → Bool
  | none => false
  | some .done => false
  | some _ => true

/-- The loop, by the place of the loop thread. -/
def LoopAt (s : State) : LoopPc → Prop
  | .makeLoop => .entered s.gen ∉ s.log
  | .makePool | .setHooks => .entered s.gen ∉ s.log ∧ ∃ l, s.loop = some l ∧ l.entered = false
  | .run | .test | .stepHook | .userCode | .shutdownHook =>
    ∃ l, s.loop = some l ∧ l.stepHook = true ∧ l.shutdownHook = true ∧ (l.entered = true ↔ .entered s.gen ∈ s.log)
  | .store | .done => ∃ l, s.loop = some l

/-- The joinable thread, at `pc`. -/
structure Current (s : State) (pc : LoopPc) : Prop where
  loop : LoopAt s pc
  initState : s.initState = if .entered s.gen ∈ s.log then 1 else 0
  shutdown : s.log.count (.shutdown s.gen) = if pc = .store ∨ pc = .done then 1 else 0
  ended : .ended s.gen ∈ s.log ↔ pc = .done
  started : .started s.gen ∈ s.log ↔ s.owner ≠ .wait ∧ s.owner ≠ .check

structure Inv (s : State) : Prop where
  alive : s.owner ≠ .aborted ∧ s.owner ≠ .joinFailed
  assign : s.owner = .assign → s.thread = none ∧ s.initState = 0
  waiting : s.owner = .wait ∨ s.owner = .check → s.thread.isSome = true
  checked : s.owner = .check → s.initState = 1
  running : s.running = (decide (s.owner = .assign) || busy s.thread)
  chronicle : Chronicle s.log s.gen s.thread.isSome
  current : ∀ pc, s.thread = some pc → Current s pc
  stopped : s.log.head? = some .stopped → s.thread = none ∧ s.owner ≠ .assign

theorem inv_init : Inv {} where
  alive := ⟨nofun, nofun⟩
  assign := nofun
  waiting := nofun
  checked := nofun
  running := rfl
  chronicle := ⟨rfl, nofun, fun _ _ => rfl, throughout_nil _⟩
  current := nofun
  stopped := nofun

theorem Inv.orderly (h : Inv s) : Orderly s where
  assigns := ⟨h.alive.1, fun howner => (h.assign howner).1⟩
  returns := h.chronicle.returns
  stopped := by
    intro hlast
    obtain ⟨hthread, howner⟩ := h.stopped hlast
    refine ⟨hthread, ?_, fun g => h.chronicle.settled g (Or.inr ?_)⟩
    · rw [h.running, hthread, decide_eq_false howner]
      rfl
    · rw [hthread]
      rfl

/-- `start` finds `running_` clear although a thread is joinable just if that thread was abandoned. -/
theorem Inv.abandoned_iff (h : Inv s) (howner : s.owner ≠ .assign) :
    Abandoned s.log ↔ s.running = false ∧ s.thread.isSome = true := by
  cases hthread : s.thread with
  | none =>
    have hunjoined := h.chronicle.unjoined
    rw [hthread] at hunjoined
    refine iff_of_false ?_ (fun hne => Bool.false_ne_true hne.2)
    rintro ⟨g, hg, -⟩
    rw [hunjoined] at hg
    cases hg
  | some pc =>
    have hunjoined := h.chronicle.unjoined
    have hcurrent := h.current pc hthread
    rw [hthread] at hunjoined
    rw [h.running, hthread, decide_eq_false howner, Bool.false_or]
    constructor
    · rintro ⟨g, hg, hended⟩
      rw [hunjoined] at hg
      cases hg
      rw [hcurrent.ended.mp hended]
      exact ⟨rfl, rfl⟩
    · rintro ⟨hbusy, -⟩
      have hdone : pc = .done := by
        cases pc <;> first | rfl | cases hbusy
      exact ⟨s.gen, hunjoined, hcurrent.ended.mpr hdone⟩

/-! ### The steps of the loop thread -/

theorem Inv.not_assign (h : Inv s) (hpc : s.thread = some pc) : s.owner ≠ .assign := by
  intro howner
  have hnone := (h.assign howner).1
  rw [hpc] at hnone
  cases hnone

theorem Inv.not_stopped (h : Inv s) (hpc : s.thread = some pc) : s.log.head? ≠ some .stopped := by
  intro hlast
  have hnone := (h.stopped hlast).1
  rw [hpc] at hnone
  cases hnone

theorem busy_of_ne (h : pc ≠ .done) : busy (some pc) = true := by
  cases pc <;> first | rfl | exact absurd rfl h

/-- A step before the shutdown hook that leaves no trace. -/
theorem Inv.move (h : Inv s) {pc' : LoopPc} (hpc : s.thread = some pc) (hbefore : pc ≠ .store ∧ pc ≠ .done)
    (hbefore' : pc' ≠ .store ∧ pc' ≠ .done) (loop : Option Loop) (pool : Bool)
    (hloop : LoopAt { s with loop, pool, thread := some pc' } pc') : Inv { s with loop, pool, thread := some pc' } where
  alive := h.alive
  assign := fun howner => absurd howner (h.not_assign hpc)
  waiting := fun _ => rfl
  checked := h.checked
  running := by
    have hrunning := h.running
    rwa [hpc, busy_of_ne hbefore.2, ← busy_of_ne hbefore'.2] at hrunning
  chronicle := by
    have hchronicle := h.chronicle
    rwa [hpc] at hchronicle
  current := by
    intro pc'' hpc''
    cases hpc''
    have hcurrent := h.current pc hpc
    refine ⟨hloop, hcurrent.initState, ?_, ?_, hcurrent.started⟩
    · rw [if_neg (not_or.mpr hbefore')]
      exact hcurrent.shutdown.trans (if_neg (not_or.mpr hbefore))
    · exact hcurrent.ended.trans (iff_of_false hbefore.2 hbefore'.2)
  stopped := fun hlast => absurd hlast (h.not_stopped hpc)

/-- The events of the loop thread. -/
theorem Inv.chronicle_note (h : Inv s) (hpc : s.thread = some pc)
    (hunjoined : unjoined (e :: s.log) = unjoined s.log) (hnumber : ∀ g, e.gen = some g → g = s.gen)
    (hreturn : Justified s.log e) : Chronicle (e :: s.log) s.gen true := by
  have hchronicle := h.chronicle
  rw [hpc] at hchronicle
  exact hchronicle.note hunjoined (fun g hg => ⟨hnumber g hg, rfl⟩) hreturn

theorem inv_entered (h : Inv s) (hpc : s.thread = some .stepHook) {l : Loop} (hl : s.loop = some l) :
    Inv { s.note (.entered s.gen) with
      initState := 1, loop := some { l with entered := true }, thread := some .userCode } where
  alive := h.alive
  assign := fun howner => absurd howner (h.not_assign hpc)
  waiting := fun _ => rfl
  checked := fun _ => rfl
  running := by
    have hrunning := h.running
    rwa [hpc] at hrunning
  chronicle := h.chronicle_note hpc rfl (fun g hg => (Option.some.inj hg).symm) trivial
  current := by
    intro pc' hpc'
    cases hpc'
    have hcurrent := h.current _ hpc
    obtain ⟨l', hl', hstep, hshutdown, -⟩ := hcurrent.loop
    rw [hl] at hl'
    cases hl'
    have hne : Ev.entered s.gen ≠ .shutdown s.gen := nofun
    refine ⟨⟨_, rfl, hstep, hshutdown, iff_of_true rfl List.mem_cons_self⟩, (if_pos List.mem_cons_self).symm, ?_, ?_, ?_⟩
    · exact (List.count_cons_of_ne hne).trans hcurrent.shutdown
    · simpa only [State.note, List.mem_cons, reduceCtorEq, false_or] using hcurrent.ended
    · simpa only [State.note, List.mem_cons, reduceCtorEq, false_or] using hcurrent.started
  stopped := nofun

theorem inv_shutdown (h : Inv s) (hpc : s.thread = some .shutdownHook) (l : Loop) :
    Inv { s.note (.shutdown s.gen) with pool := false, loop := some l, thread := some .store } where
  alive := h.alive
  assign := fun howner => absurd howner (h.not_assign hpc)
  waiting := fun _ => rfl
  checked := h.checked
  running := by
    have hrunning := h.running
    rwa [hpc] at hrunning
  chronicle := h.chronicle_note hpc rfl (fun g hg => (Option.some.inj hg).symm) trivial
  current := by
    intro pc' hpc'
    cases hpc'
    have hcurrent := h.current _ hpc
    refine ⟨⟨l, rfl⟩, ?_, ?_, ?_, ?_⟩
    · simpa only [State.note, List.mem_cons, reduceCtorEq, false_or] using hcurrent.initState
    · exact List.count_cons_self.trans (congrArg (· + 1) hcurrent.shutdown)
    · simpa only [State.note, List.mem_cons, reduceCtorEq, false_or] using hcurrent.ended
    · simpa only [State.note, List.mem_cons, reduceCtorEq, false_or] using hcurrent.started
  stopped := nofun

theorem inv_ended (h : Inv s) (hpc : s.thread = some .store) :
    Inv { s.note (.ended s.gen) with running := false, thread := some .done } where
  alive := h.alive
  assign := fun howner => absurd howner (h.not_assign hpc)
  waiting := fun _ => rfl
  checked := h.checked
  running := by
    have howner : decide (s.owner = .assign) = false := decide_eq_false (h.not_assign hpc)
    exact (congrArg (· || false) howner).symm
  chronicle := h.chronicle_note hpc rfl (fun g hg => (Option.some.inj hg).symm) trivial
  current := by
    intro pc' hpc'
    cases hpc'
    have hcurrent := h.current _ hpc
    have hne : Ev.ended s.gen ≠ .shutdown s.gen := nofun
    refine ⟨hcurrent.loop, ?_, ?_, ?_, ?_⟩
    · simpa only [State.note, List.mem_cons, reduceCtorEq, false_or] using hcurrent.initState
    · exact (List.count_cons_of_ne hne).trans hcurrent.shutdown
    · exact iff_of_true List.mem_cons_self rfl
    · simpa only [State.note, List.mem_cons, reduceCtorEq, false_or] using hcurrent.started
  stopped := nofun

theorem loopStep_eq {l : Loop} (hpc : s.thread = some pc) (hl : s.loop = some l)
    (hmade : pc ≠ .makeLoop) (selfStop : Bool) : s.loopStep selfStop = s.loopStepIn l selfStop pc := by
  rw [State.loopStep, hpc, hl]
  cases pc <;> first | rfl | exact absurd rfl hmade

/-- The loop thread keeps the invariant, wherever it is. -/
theorem inv_loopStep (h : Inv s) (selfStop : Bool) : Inv (s.loopStep selfStop) := by
  cases hpc : s.thread with
  | none =>
    rw [State.loopStep, hpc]
    exact h
  | some pc =>
    have hmove := @Inv.move s pc h
    have hloop := (h.current pc hpc).loop
    cases pc with
    | makeLoop =>
      rw [State.loopStep, hpc]
      exact @hmove .makePool hpc (by decide) (by decide) _ s.pool ⟨hloop, _, rfl, rfl⟩
    | makePool =>
      obtain ⟨hentered, l, hl, hfalse⟩ := hloop
      rw [loopStep_eq hpc hl nofun]
      exact @hmove .setHooks hpc (by decide) (by decide) s.loop true ⟨hentered, l, hl, hfalse⟩
    | setHooks =>
      obtain ⟨hentered, l, hl, hfalse⟩ := hloop
      rw [loopStep_eq hpc hl nofun]
      refine @hmove .run hpc (by decide) (by decide) _ s.pool ⟨_, rfl, rfl, rfl, iff_of_false ?_ hentered⟩
      exact ne_true_of_eq_false hfalse
    | run =>
      obtain ⟨l, hl, hstep, hshutdown, hentered⟩ := hloop
      rw [loopStep_eq hpc hl nofun]
      exact @hmove .test hpc (by decide) (by decide) _ s.pool ⟨_, rfl, hstep, hshutdown, hentered⟩
    | test =>
      obtain ⟨l, hl, hloop⟩ := hloop
      rw [loopStep_eq hpc hl nofun, State.loopStepIn]
      split
      · exact @hmove .stepHook hpc (by decide) (by decide) s.loop s.pool ⟨l, hl, hloop⟩
      · exact @hmove .shutdownHook hpc (by decide) (by decide) s.loop s.pool ⟨l, hl, hloop⟩
    | stepHook =>
      obtain ⟨l, hl, hloop⟩ := hloop
      rw [loopStep_eq hpc hl nofun, State.loopStepIn]
      split
      · exact inv_entered h hpc hl
      · exact @hmove .userCode hpc (by decide) (by decide) s.loop s.pool ⟨l, hl, hloop⟩
    | userCode =>
      obtain ⟨l, hl, hstep, hshutdown, hentered⟩ := hloop
      rw [loopStep_eq hpc hl nofun]
      exact @hmove .test hpc (by decide) (by decide) _ s.pool ⟨_, rfl, hstep, hshutdown, hentered⟩
    | shutdownHook =>
      obtain ⟨l, hl, -, hshutdown, -⟩ := hloop
      rw [loopStep_eq hpc hl nofun, State.loopStepIn, if_pos hshutdown]
      exact inv_shutdown h hpc _
    | store =>
      obtain ⟨l, hl⟩ := hloop
      rw [loopStep_eq hpc hl nofun]
      exact inv_ended h hpc
    | done =>
      obtain ⟨l, hl⟩ := hloop
      rw [loopStep_eq hpc hl nofun]
      exact h

/-! ### The calls of the owner -/

theorem mem_cons_of_gen {d : Ev} {g : Nat} (he : e.gen = none) (hd : d.gen = some g) {log : List Ev} :
    d ∈ e :: log ↔ d ∈ log := by
  have hne : d ≠ e := by
    rintro rfl
    rw [he] at hd
    cases hd
  rw [List.mem_cons, or_iff_right hne]

theorem LoopAt.note (h : LoopAt s pc)
    (hmem : .entered s.gen ∈ e :: s.log ↔ .entered s.gen ∈ s.log) : LoopAt (s.note e) pc := by
  cases pc <;> simpa only [LoopAt, State.note, hmem] using h

/-- An event that is about no loop thread. -/
theorem Current.note (h : Current s pc) (he : e.gen = none) : Current (s.note e) pc where
  loop := h.loop.note (mem_cons_of_gen he rfl)
  initState := h.initState.trans (if_congr (mem_cons_of_gen he rfl).symm rfl rfl)
  shutdown := by
    have hne : e ≠ .shutdown s.gen := by
      rintro rfl
      cases he
    exact (List.count_cons_of_ne hne).trans h.shutdown
  ended := (mem_cons_of_gen he rfl).trans h.ended
  started := (mem_cons_of_gen he rfl).trans h.started

theorem inv_refused (h : Inv s) (howner : s.owner = .idle) (hrunning : s.running = true) :
    Inv (s.note .refused) where
  alive := h.alive
  assign := h.assign
  waiting := h.waiting
  checked := h.checked
  running := h.running
  chronicle := by
    refine h.chronicle.note rfl nofun ?_
    cases hpc : s.thread with
    | none =>
      have hbusy := h.running
      rw [hrunning, howner, hpc] at hbusy
      cases hbusy
    | some pc =>
      refine ⟨s.gen, h.chronicle.unjoined.trans (if_pos (by rw [hpc]; rfl)), fun hended => ?_⟩
      have hbusy := h.running
      rw [hrunning, howner, hpc, (h.current pc hpc).ended.mp hended] at hbusy
      cases hbusy
  current := fun pc hpc => (h.current pc hpc).note rfl
  stopped := nofun

/-- `start`, unless the last loop thread was abandoned. -/
theorem inv_start (h : Inv s) (howner : s.owner = .idle) (hgood : ¬ Abandoned s.log) : Inv s.start := by
  rw [h.abandoned_iff (by rw [howner]; exact nofun), not_and, Bool.not_eq_true, Option.isSome_eq_false_iff,
    Option.isNone_iff_eq_none] at hgood
  rw [State.start]
  split
  · next hrunning => exact inv_refused h howner hrunning
  · next hrunning =>
    have hthread : s.thread = none := hgood (Bool.eq_false_iff.mpr hrunning)
    exact
      { alive := ⟨nofun, nofun⟩
        assign := fun _ => ⟨hthread, rfl⟩
        waiting := nofun
        checked := nofun
        running := rfl
        chronicle := h.chronicle.note rfl nofun trivial
        current := fun pc hpc => by
          rw [show s.thread = some pc from hpc] at hthread
          cases hthread
        stopped := nofun }

/-- The flag of the loop says nothing about the place of the loop thread. -/
theorem LoopAt.stop (h : LoopAt s pc) : LoopAt s.stop pc := by
  have hstop {l : Loop} (hl : s.loop = some l) : s.stop.loop = some { l with running := false } := by
    rw [State.stop, hl]
    rfl
  match pc, h with
  | .makeLoop, hentered => exact hentered
  | .makePool, ⟨hentered, l, hl, hfalse⟩ | .setHooks, ⟨hentered, l, hl, hfalse⟩ => exact ⟨hentered, _, hstop hl, hfalse⟩
  | .run, ⟨l, hl, hloop⟩ | .test, ⟨l, hl, hloop⟩ | .stepHook, ⟨l, hl, hloop⟩ | .userCode, ⟨l, hl, hloop⟩
  | .shutdownHook, ⟨l, hl, hloop⟩ => exact ⟨_, hstop hl, hloop⟩
  | .store, ⟨l, hl⟩ | .done, ⟨l, hl⟩ => exact ⟨_, hstop hl⟩

theorem inv_stop (h : Inv s) (howner : s.owner = .idle) : Inv s.stop where
  alive := ⟨nofun, nofun⟩
  assign := nofun
  waiting := nofun
  checked := nofun
  running := by
    have hrunning := h.running
    rwa [howner] at hrunning
  chronicle := h.chronicle
  current := by
    intro pc hpc
    have hcurrent := h.current pc hpc
    refine ⟨?_, hcurrent.initState, hcurrent.shutdown, hcurrent.ended, ?_⟩
    · exact hcurrent.loop.stop
    · exact iff_of_true (hcurrent.started.mpr (by rw [howner]; exact ⟨nofun, nofun⟩)) ⟨nofun, nofun⟩
  stopped := fun hlast => ⟨(h.stopped hlast).1, nofun⟩

/-- `stop` returns when there is no thread to join. -/
theorem inv_join (h : Inv s) (howner : s.owner = .join) : Inv (s.join .stopped) := by
  have hrunning := h.running
  have hchronicle := h.chronicle
  rw [State.join]
  split
  · next hpc =>
    rw [howner, hpc] at hrunning
    rw [hpc] at hchronicle
    have hstopped := hchronicle.stopped nofun
    exact
      { alive := ⟨nofun, nofun⟩
        assign := nofun
        waiting := nofun
        checked := nofun
        running := by rw [show (s.note .stopped).thread = none from hpc]; exact hrunning
        chronicle := by rw [show (s.note .stopped).thread = none from hpc]; exact hstopped
        current := fun pc hpc' => by
          rw [show s.thread = some pc from hpc'] at hpc
          cases hpc
        stopped := fun _ => ⟨hpc, nofun⟩ }
  · next hpc =>
    rw [howner, hpc] at hrunning
    rw [hpc] at hchronicle
    have hcurrent := h.current _ hpc
    have hstarted : .started s.gen ∈ s.log := hcurrent.started.mpr (by rw [howner]; exact ⟨nofun, nofun⟩)
    have hstopped := hchronicle.stopped fun _ => hcurrent.shutdown.trans (if_pos hstarted).symm
    exact
      { alive := ⟨nofun, nofun⟩
        assign := nofun
        waiting := nofun
        checked := nofun
        running := hrunning
        chronicle := hstopped
        current := nofun
        stopped := fun _ => ⟨rfl, nofun⟩ }
  · exact h

theorem inv_spawned (h : Inv s) (howner : s.owner = .assign) :
    Inv { s.note (.spawned (s.gen + 1)) with thread := some .makeLoop, gen := s.gen + 1, owner := .wait } where
  alive := ⟨nofun, nofun⟩
  assign := nofun
  waiting := fun _ => rfl
  checked := nofun
  running := by
    have hrunning := h.running
    rw [howner] at hrunning
    exact hrunning
  chronicle := by
    have hchronicle := h.chronicle
    rw [(h.assign howner).1] at hchronicle
    exact hchronicle.spawned
  current := by
    intro pc hpc
    cases hpc
    have hfresh {e : Ev} (he : e.gen = some (s.gen + 1)) : e ∉ s.log := h.chronicle.not_mem he (Nat.lt_succ_self _)
    have hnew {e : Ev} (he : e.gen = some (s.gen + 1)) (hne : e ≠ .spawned (s.gen + 1)) : e ∉ .spawned (s.gen + 1) :: s.log := by
      rw [List.mem_cons, or_iff_right hne]
      exact hfresh he
    have hentered : .entered (s.gen + 1) ∉ .spawned (s.gen + 1) :: s.log := hnew rfl nofun
    refine ⟨hentered, ?_, ?_, ?_, ?_⟩
    · exact (h.assign howner).2.trans (if_neg hentered).symm
    · exact List.count_eq_zero_of_not_mem (hnew rfl nofun)
    · exact iff_of_false (hnew rfl nofun) nofun
    · exact iff_of_false (hnew rfl nofun) (fun howner => howner.1 rfl)
  stopped := nofun

theorem inv_started (h : Inv s) (howner : s.owner = .check) :
    Inv { s.note (.started s.gen) with owner := .idle } := by
  obtain ⟨pc, hpc⟩ := Option.isSome_iff_exists.mp (h.waiting (Or.inr howner))
  have hcurrent := h.current pc hpc
  have hentered : .entered s.gen ∈ s.log := by
    have hinit := hcurrent.initState
    rw [h.checked howner] at hinit
    by_contra hnot
    rw [if_neg hnot] at hinit
    cases hinit
  have hunjoined : unjoined s.log = some s.gen := h.chronicle.unjoined.trans (if_pos (by rw [hpc]; rfl))
  have hne : Ev.started s.gen ≠ .shutdown s.gen := nofun
  have hmem {d : Ev} (hd : d ≠ .started s.gen) : d ∈ .started s.gen :: s.log ↔ d ∈ s.log := by
    rw [List.mem_cons, or_iff_right hd]
  have hold : .entered s.gen ∈ .started s.gen :: s.log ↔ .entered s.gen ∈ s.log := hmem nofun
  have hended : .ended s.gen ∈ .started s.gen :: s.log ↔ .ended s.gen ∈ s.log := hmem nofun
  exact
    { alive := ⟨nofun, nofun⟩
      assign := nofun
      waiting := nofun
      checked := nofun
      running := by
        have hrunning := h.running
        rwa [howner] at hrunning
      chronicle := by
        change Chronicle _ _ s.thread.isSome
        rw [hpc]
        exact h.chronicle_note hpc rfl (fun g hg => (Option.some.inj hg).symm) ⟨hunjoined, hentered⟩
      current := by
        intro pc' hpc'
        have hcurrent := h.current pc' hpc'
        refine ⟨hcurrent.loop.note hold, hcurrent.initState.trans (if_congr hold.symm rfl rfl), ?_, ?_, ?_⟩
        · exact (List.count_cons_of_ne hne).trans hcurrent.shutdown
        · exact hended.trans hcurrent.ended
        · exact iff_of_true List.mem_cons_self ⟨nofun, nofun⟩
      stopped := nofun }

theorem inv_waited (h : Inv s) (howner : s.owner = .wait) (hinit : s.initState ≠ 0) :
    Inv { s with owner := .check } where
  alive := ⟨nofun, nofun⟩
  assign := nofun
  waiting := fun _ => h.waiting (Or.inl howner)
  checked := by
    intro _
    obtain ⟨pc, hpc⟩ := Option.isSome_iff_exists.mp (h.waiting (Or.inl howner))
    have hstate := (h.current pc hpc).initState
    split at hstate
    · exact hstate
    · exact absurd hstate hinit
  running := by
    have hrunning := h.running
    rwa [howner] at hrunning
  chronicle := h.chronicle
  current := by
    intro pc hpc
    have hcurrent := h.current pc hpc
    refine ⟨hcurrent.loop, hcurrent.initState, hcurrent.shutdown, hcurrent.ended, ?_⟩
    exact iff_of_false (fun hstarted => (hcurrent.started.mp hstarted).1 howner) (fun hnot => hnot.2 rfl)
  stopped := fun hlast => ⟨(h.stopped hlast).1, nofun⟩

theorem inv_ownerStep (h : Inv s) : Inv s.ownerStep := by
  rw [State.ownerStep]
  split
  · exact h
  · exact h
  · next howner =>
    rw [(h.assign howner).1, if_neg (by decide)]
    exact inv_spawned h howner
  · next howner =>
    split
    · next hinit => exact inv_waited h howner hinit
    · exact h
  · next howner =>
    rw [if_neg (not_not.mpr (h.checked howner))]
    exact inv_started h howner
  · next howner => exact absurd howner h.alive.2
  · next howner => exact inv_join h howner

/-- One act keeps the invariant, unless it is a `start` behind an abandoned loop thread. -/
theorem inv_step (h : Inv s) (a : Act) (hgood : a = .start → s.owner = .idle → ¬ Abandoned s.log) :
    Inv (step s a) := by
  unfold step
  rw [if_neg h.alive.1]
  cases a with
  | start =>
    dsimp only
    split
    · next howner => exact inv_start h howner (hgood rfl howner)
    · exact h
  | stop =>
    dsimp only
    split
    · next howner => exact inv_stop h howner
    · exact h
  | owner => exact inv_ownerStep h
  | loop selfStop => exact inv_loopStep h selfStop

/-! ### Runs -/

/-- An act adds at most one event, and `taken` when `start` goes on to the assignment. -/
def Grows (s s' : State) : Prop :=
  s'.log = s.log ∨
    ∃ e, s'.log = e :: s.log ∧ (e = .taken → s.owner = .idle ∧ s'.owner = .assign ∧ s'.thread = s.thread)

theorem grows_join (s : State) (he : e ≠ .taken) : Grows s (s.join e) := by
  rw [State.join]
  split
  · exact Or.inr ⟨e, rfl, fun h => absurd h he⟩
  · exact Or.inr ⟨e, rfl, fun h => absurd h he⟩
  · exact Or.inl rfl

theorem grows_ownerStep (s : State) : Grows s s.ownerStep := by
  rw [State.ownerStep]
  split
  · exact Or.inl rfl
  · exact Or.inl rfl
  · split
    · exact Or.inr ⟨_, rfl, nofun⟩
    · exact Or.inr ⟨_, rfl, nofun⟩
  · split
    · exact Or.inl rfl
    · exact Or.inl rfl
  · split
    · exact Or.inl rfl
    · exact Or.inr ⟨_, rfl, nofun⟩
  · exact grows_join s nofun
  · exact grows_join s nofun

theorem grows_loopStepIn (s : State) (l : Loop) (selfStop : Bool) (pc : LoopPc) : Grows s (s.loopStepIn l selfStop pc) := by
  cases pc with
  | stepHook =>
    rw [State.loopStepIn]
    split
    · exact Or.inr ⟨_, rfl, nofun⟩
    · exact Or.inl rfl
  | shutdownHook =>
    rw [State.loopStepIn]
    split
    · exact Or.inr ⟨_, rfl, nofun⟩
    · exact Or.inl rfl
  | store => exact Or.inr ⟨_, rfl, nofun⟩
  | _ => exact Or.inl rfl

theorem grows_step (s : State) (a : Act) : Grows s (step s a) := by
  unfold step
  split
  · exact Or.inl rfl
  · cases a with
    | start =>
      dsimp only
      split
      · next howner =>
        rw [State.start]
        split
        · exact Or.inr ⟨_, rfl, nofun⟩
        · exact Or.inr ⟨_, rfl, fun _ => ⟨howner, rfl, rfl⟩⟩
      · exact Or.inl rfl
    | stop =>
      dsimp only
      split
      · exact Or.inl rfl
      · exact Or.inl rfl
    | owner => exact grows_ownerStep s
    | loop selfStop =>
      dsimp only
      rw [State.loopStep]
      split
      · exact Or.inl rfl
      · exact Or.inl rfl
      · exact grows_loopStepIn s _ selfStop _
      · exact Or.inl rfl

/-- No `start` takes over from an abandoned loop thread. -/
def Restarted (older : List Ev) (e : Ev) : Prop := e = .taken → ¬ Abandoned older

theorem throughout_of_suffix {P : List Ev → Ev → Prop} {log older : List Ev} (h : Throughout P log) (hsuffix : older <:+ log) :
    Throughout P older := by
  obtain ⟨newer, rfl⟩ := hsuffix
  intro newer' e older' holder
  refine h (newer ++ newer') e older' ?_
  rw [holder, List.append_assoc]

theorem log_suffix (acts acts' : List Act) : (run acts).log <:+ (run (acts ++ acts')).log := by
  induction acts' using List.reverseRecOn with
  | nil => exact ⟨[], by rw [List.append_nil, List.nil_append]⟩
  | append_singleton acts' a ih =>
    rw [← List.append_assoc, run_append]
    rcases grows_step (run (acts ++ acts')) a with hlog | ⟨e, hlog, -⟩
    · rwa [hlog]
    · rw [hlog]
      exact ih.trans (List.suffix_cons _ _)

theorem inv_run {acts : List Act} (h : Throughout Restarted (run acts).log) : Inv (run acts) := by
  induction acts using List.reverseRecOn with
  | nil => exact inv_init
  | append_singleton acts a ih =>
    have hinv := ih (throughout_of_suffix h (log_suffix acts [a]))
    rw [run_append] at h ⊢
    refine inv_step hinv a ?_
    rintro rfl howner habandoned
    have hrunning := ((hinv.abandoned_iff (by rw [howner]; exact nofun)).mp habandoned).1
    have hlog : (step (run acts) .start).log = .taken :: (run acts).log := by
      unfold step
      rw [if_neg hinv.alive.1]
      dsimp only
      rw [if_pos howner, State.start, if_neg (ne_true_of_eq_false hrunning)]
      rfl
    rw [hlog] at h
    exact (throughout_cons.mp h).1 rfl habandoned

/-- A `start` that takes over from an abandoned loop thread goes on to assign over it. -/
theorem restarted_of_orderly {acts : List Act} (h : ∀ pre, pre <+: acts → Orderly (run pre)) :
    Throughout Restarted (run acts).log := by
  induction acts using List.reverseRecOn with
  | nil => exact throughout_nil _
  | append_singleton acts a ih =>
    have hold := ih fun pre hpre => h pre (hpre.trans (List.prefix_append _ _))
    have hinv := inv_run hold
    have horderly := h (acts ++ [a]) (List.prefix_refl _)
    rw [run_append] at horderly ⊢
    rcases grows_step (run acts) a with hlog | ⟨e, hlog, htaken⟩
    · rwa [hlog]
    · rw [hlog]
      refine throughout_cons.mpr ⟨fun he habandoned => ?_, hold⟩
      obtain ⟨howner, hassign, hthread⟩ := htaken he
      have hnone := horderly.assigns.2 hassign
      have hsome := ((hinv.abandoned_iff (by rw [howner]; exact nofun)).mp habandoned).2
      rw [← hthread, hnone] at hsome
      cases hsome

/-- **Starting and stopping.** Every state of a run is in order just if no call of `start` in it finds that the last loop
thread has ended and was not joined by a call of `stop`. -/
theorem orderly_iff (acts : List Act) :
    (∀ pre, pre <+: acts → Orderly (run pre)) ↔
      ∀ newer older, (run acts).log = newer ++ .taken :: older → ¬ Abandoned older := by
  constructor
  · intro h newer older hlog
    exact restarted_of_orderly h newer .taken older hlog rfl
  · rintro h pre ⟨rest, rfl⟩
    have hrestarted : Throughout Restarted (run (pre ++ rest)).log := by
      rintro newer e older hlog rfl
      exact h newer older hlog
    exact (inv_run (throughout_of_suffix hrestarted (log_suffix pre rest))).orderly

/-- The loop is stopped from its step hook, the loop thread ends, and the owner calls `start` again. -/
def selfStopped : List Act :=
  [.start, .owner] ++ List.replicate 6 (.loop false) ++ [.loop true] ++ List.replicate 3 (.loop false)
    ++ [.owner, .owner] ++ [.start, .owner]

theorem selfStopped_not_orderly :
    (run selfStopped).log = [.overwrote, .taken, .started 1, .ended 1, .shutdown 1, .entered 1, .spawned 1, .taken] ∧
      (run selfStopped).owner = .aborted ∧ ¬ ∀ pre, pre <+: selfStopped → Orderly (run pre) := by
  have haborted : (run selfStopped).owner = .aborted := by decide
  refine ⟨by decide, haborted, fun h => ?_⟩
  exact (h selfStopped (List.prefix_refl _)).assigns.1 haborted

end Lepton.LoopThread

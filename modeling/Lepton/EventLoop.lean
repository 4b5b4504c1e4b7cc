import Lepton.History
import Mathlib.Data.List.Nodup
import Mathlib.Logic.Function.Basic

/-! The reactor `EventLoop`, in busy-poll mode and in poller mode. The kernel's answers and what the step hook
and the pollables do when they are called come from an `Env`: a hook or an `on_ready` runs a script of calls of
`add` and `remove`, or gives a pollable another descriptor. The fields under "history" are read by nothing. -/

namespace Lepton.Reactor

/-- A pollable, by its address. -/
abbrev Pollable := Nat

/-- What user code does to the loop and to its pollables. -/
inductive Act where
  | add (p : Pollable)
  | remove (p : Pollable)
  /-- The descriptor of `p` is closed, and `p` gets another one or none. -/
  | reopen (p : Pollable) (fd : Option Nat)
  deriving DecidableEq, Repr

/-- The answers of the outside world. Past the last answer the kernel agrees and has nothing to report, and the
user does nothing. -/
structure Env where
  /-- The answers to `EPOLL_CTL_ADD` for a new descriptor. -/
  adds : List Bool := []
  /-- The descriptors that are ready, with their flags, or an error. -/
  waits : List (Option (List (Nat × Nat))) := []
  scripts : List (List Act) := []
  deriving DecidableEq, Repr

inductive Ev where
  | added (p : Pollable)
  | removed (p : Pollable)
  /-- `on_ready` is called. -/
  | ready (p : Pollable) (flags : Nat)
  deriving DecidableEq, Repr

structure ReadyEvent where
  token : Option Pollable
  flags : Nat
  deriving DecidableEq, Repr

structure EventLoopConfig where
  busyPoll : Bool := true
  maxEvents : Nat := 64

/-- The events a single wait returns at most. -/
def kMaxBatch : Nat := 16

structure EventLoop where
  cfg : EventLoopConfig
  /-- The registration table; a removed entry is null until it is swept. -/
  sessions : List (Option Pollable) := []
  events : List ReadyEvent := []
  currentEventIdx : Int := -1
  currentEventCount : Int := 0
  /-- The descriptors in the poller, with their tokens. -/
  poller : Nat → Option Pollable := fun _ => none
  /-- The pollables' descriptors. -/
  fds : Pollable → Option Nat
  env : Env := {}
  /-- History: events, the latest first. -/
  log : List Ev := []

/-- The pollables that a history leaves registered, in the order of their registration. -/
def registry : List Ev → List Pollable
  | [] => []
  | .added p :: older => registry older ++ [p]
  | .removed p :: older => (registry older).erase p
  | .ready _ _ :: older => registry older

namespace EventLoop

def note (s : EventLoop) (e : Ev) : EventLoop := { s with log := e :: s.log }

/-! The kernel. -/

/-- `poller_.add(p.fd(), &p, ..)`. -/
def pollerAdd (s : EventLoop) (p : Pollable) : Bool × EventLoop :=
  match s.fds p with
  | none => (false, s)
  | some fd =>
    if (s.poller fd).isSome then (false, s)
    else
      match s.env.adds with
      | false :: rest => (false, { s with env := { s.env with adds := rest } })
      | other =>
        (true, { s with
                 env := { s.env with adds := other.tail }
                 poller := Function.update s.poller fd (some p) })

/-- `poller_.del(p.fd())`, and what closing the descriptor does to the poller. -/
def pollerDel (s : EventLoop) (p : Pollable) : EventLoop :=
  match s.fds p with
  | none => s
  | some fd => { s with poller := Function.update s.poller fd none }

/-- `poller_.wait(..)`: the number of events, negative after an error, and the events. A descriptor is reported
with the token it was added with. -/
def wait (s : EventLoop) : Int × EventLoop :=
  match s.env.waits with
  | [] => (0, s)
  | none :: rest => (-1, { s with env := { s.env with waits := rest } })
  | some fds :: rest =>
    let batch := (fds.filterMap fun (fd, flags) => (s.poller fd).map fun p => (⟨some p, flags⟩ : ReadyEvent)).take
      (min s.cfg.maxEvents kMaxBatch)
    (batch.length, { s with env := { s.env with waits := rest }, events := batch ++ s.events.drop batch.length })

/-! The loop. -/

def push (s : EventLoop) (p : Pollable) : EventLoop := { s.note (.added p) with sessions := s.sessions ++ [some p] }

def add (s : EventLoop) (p : Pollable) : Bool × EventLoop :=
  if s.cfg.busyPoll then (true, s.push p)
  else
    match s.pollerAdd p with
    | (false, s) => (false, s)
    | (true, s) => (true, s.push p)

/-- The rest of the batch loses the token `p`. -/
def scrub (s : EventLoop) (p : Pollable) : EventLoop :=
  if 0 ≤ s.currentEventIdx then
    { s with
      events := s.events.mapIdx fun (j : Nat) e =>
        if s.currentEventIdx < j ∧ j < s.currentEventCount ∧ e.token = some p then { e with token := none } else e }
  else s

/-- The first entry of `p` is nulled. -/
def clear (p : Pollable) : List (Option Pollable) → List (Option Pollable)
  | [] => []
  | entry :: rest => if entry = some p then none :: rest else entry :: clear p rest

def remove (s : EventLoop) (p : Pollable) : Bool × EventLoop :=
  let s := if s.cfg.busyPoll then s else s.pollerDel p
  let s := s.scrub p
  (some p ∈ s.sessions, { s.note (.removed p) with sessions := clear p s.sessions })

/-- User code; a pollable is added only while it is not registered. -/
def act (s : EventLoop) : Act → EventLoop
  | .add p => if some p ∈ s.sessions then s else (s.add p).2
  | .remove p => (s.remove p).2
  | .reopen p fd => { s.pollerDel p with fds := Function.update s.fds p fd }

/-- The next script. -/
def script (s : EventLoop) : EventLoop :=
  match s.env.scripts with
  | [] => s
  | acts :: rest => acts.foldl act { s with env := { s.env with scripts := rest } }

def onReady (s : EventLoop) (p : Pollable) (flags : Nat) : EventLoop := (s.note (.ready p flags)).script

/-- The loop over the registration table, with the turns left and the index. -/
def drain : Nat → Nat → EventLoop → EventLoop
  | 0, _, s => s
  | n + 1, i, s =>
    drain n (i + 1) (match s.sessions[i]? with
      | some (some p) => s.onReady p 0
      | _ => s)

def sweep (s : EventLoop) : EventLoop := { s with sessions := s.sessions.filter Option.isSome }

/-- The loop over the batch, with the turns left. -/
def dispatch : Nat → EventLoop → EventLoop
  | 0, s => s
  | n + 1, s =>
    let s' := match s.events[s.currentEventIdx.toNat]? with
      | some ⟨some p, flags⟩ => s.onReady p flags
      | _ => s
    dispatch n { s' with currentEventIdx := s'.currentEventIdx + 1 }

/-- The wait of a step, and the start of its batch. -/
def poll (s : EventLoop) : EventLoop :=
  let (n, s) := s.wait
  { s with currentEventCount := n, currentEventIdx := 0 }

/-- `step` behind the step hook. -/
def turn (s : EventLoop) : EventLoop :=
  if s.cfg.busyPoll then (drain s.sessions.length 0 s).sweep
  else { dispatch s.poll.currentEventCount.toNat s.poll with currentEventIdx := -1, currentEventCount := 0 }

def step (s : EventLoop) : EventLoop := s.script.turn

def sessionCount (s : EventLoop) : Nat := s.sessions.length

/-- A call from outside of the loop. -/
inductive Call where
  | act (a : Act)
  | step
  deriving DecidableEq, Repr

def call (s : EventLoop) (c : Call × Env) : EventLoop :=
  match c.1 with
  | .act a => act { s with env := c.2 } a
  | .step => step { s with env := c.2 }

def run (s : EventLoop) (calls : List (Call × Env)) : EventLoop := calls.foldl call s

end EventLoop

/-- A loop without pollables. -/
def freshLoop (cfg : EventLoopConfig) (fds : Pollable → Option Nat) : EventLoop :=
  { cfg := cfg, fds := fds, events := List.replicate cfg.maxEvents ⟨none, 0⟩ }

end Lepton.Reactor

import Lepton.Ledger

/-! The lock-free buffer pool of `BufferPool` on the POSIX backend, as the atomic steps of any finite
set of threads. The free list is a stack linked through the first four bytes of the free buffers;
its head is one 64-bit word holding a version and an index. A thread that has loaded the head may
be overtaken at every later step, and owners write into the buffers they hold at any time, over the
link included. -/

namespace Lepton.Pool

/-- `static_cast<int32_t>(i) < 0`, for a 32-bit word. -/
def Negative (i : Nat) : Prop := 2 ^ 31 ≤ i

instance : DecidablePred Negative := fun i => inferInstanceAs (Decidable (2 ^ 31 ≤ i))

/-- The index half of the head word. -/
def idxOf (v : Nat) : Nat := v % 2 ^ 32

/-- The version half of the head word. -/
def verOf (v : Nat) : Nat := v / 2 ^ 32

/-- `(uint64_t(new_version) << 32) | idx`, with the version increased by one and kept to 32 bits. -/
def bump (old idx : Nat) : Nat := (verOf old + 1) % 2 ^ 32 * 2 ^ 32 + idx

/-- `std::numeric_limits<uint32_t>::max()`, the end of the list. -/
def listEnd : Nat := 2 ^ 32 - 1

/-- Where a thread stands in `acquire` or `release`. -/
inductive Pc where
  | idle
  /-- `acquire` holds a value of the head. -/
  | acquiring (old : Nat)
  /-- `acquire` has read `next_idx` of the node it wants to pop. -/
  | popping (old next : Nat)
  /-- `acquire` has popped the node. -/
  | popped (idx : Nat)
  /-- `release` was called. -/
  | releasing (idx : Nat)
  /-- `release` holds a value of the head. -/
  | linking (idx old : Nat)
  /-- `release` has written `next_idx` of its node. -/
  | pushing (idx old : Nat)
  /-- `release` has pushed its node. -/
  | pushed (idx : Nat)
  deriving DecidableEq, Repr

structure State (T : Type) where
  headFreeVal : Nat
  /-- The first four bytes of every buffer. -/
  nextIdx : Nat → Nat
  available : Nat
  pc : T → Pc
  /-- The handles in the hands of owners. -/
  held : List Nat
  /-- History: how many exchanges of the head have succeeded. -/
  swaps : Nat
  /-- History: the number of exchanges when a thread last read the head. -/
  loadedAt : T → Nat
  /-- History: the free list when a thread last read the head. -/
  seen : T → List Nat

inductive Act where
  | load
  | readNext
  | giveUp
  | link
  | swap (spurious : Bool)
  | finish
  | release (idx : Nat)
  deriving DecidableEq, Repr

inductive Event (T : Type) where
  | thread (t : T) (act : Act)
  /-- An owner writes to the first four bytes of a buffer it holds. -/
  | write (idx val : Nat)

/-- The indices met from `i` on, at most `fuel` of them. -/
def walk (next : Nat → Nat) : Nat → Nat → List Nat
  | 0, _ => []
  | fuel + 1, i => if Negative i then [] else i :: walk next fuel (next i)

variable {T : Type} [DecidableEq T]

/-- The free list as it stands in memory. -/
def State.freeList (count : Nat) (s : State T) : List Nat := walk s.nextIdx count (idxOf s.headFreeVal)

def State.setPc (s : State T) (t : T) (p : Pc) : State T := { s with pc := Function.update s.pc t p }

/-- The thread reads the head. -/
def State.read (count : Nat) (s : State T) (t : T) (p : Pc) : State T :=
  { s.setPc t p with
    loadedAt := Function.update s.loadedAt t s.swaps
    seen := Function.update s.seen t (s.freeList count) }

/-- The thread's exchange succeeds. -/
def State.exchange (s : State T) (t : T) (val : Nat) (p : Pc) : State T :=
  { s.setPc t p with headFreeVal := val, swaps := s.swaps + 1 }

/-- One atomic step of a thread; `none` where its program is not at that step. -/
def threadStep (count : Nat) (s : State T) (t : T) : Act → Option (State T)
  | .load =>
    match s.pc t with
    | .idle => some (s.read count t (.acquiring s.headFreeVal))
    | .releasing idx => some (s.read count t (.linking idx s.headFreeVal))
    | _ => none
  | .readNext =>
    match s.pc t with
    | .acquiring old =>
      if Negative (idxOf old) then none else some (s.setPc t (.popping old (s.nextIdx (idxOf old))))
    | _ => none
  | .giveUp =>
    match s.pc t with
    | .acquiring old => if Negative (idxOf old) then some (s.setPc t .idle) else none
    | _ => none
  | .link =>
    match s.pc t with
    | .linking idx old =>
      some { s.setPc t (.pushing idx old) with
             nextIdx := Function.update s.nextIdx idx
               (if Negative (idxOf old) then listEnd else idxOf old) }
    | _ => none
  | .swap spurious =>
    match s.pc t with
    | .popping old next =>
      if s.headFreeVal = old ∧ spurious = false then
        some (s.exchange t (bump old next) (.popped (idxOf old)))
      else some (s.read count t (.acquiring s.headFreeVal))
    | .pushing idx old =>
      if s.headFreeVal = old ∧ spurious = false then some (s.exchange t (bump old idx) (.pushed idx))
      else some (s.read count t (.linking idx s.headFreeVal))
    | _ => none
  | .finish =>
    match s.pc t with
    | .popped idx =>
      some { s.setPc t .idle with available := (s.available + (2 ^ 64 - 1)) % 2 ^ 64, held := idx :: s.held }
    | .pushed _ => some { s.setPc t .idle with available := (s.available + 1) % 2 ^ 64 }
    | _ => none
  | .release idx =>
    match s.pc t with
    | .idle =>
      if idx ∈ s.held then some { s.setPc t (.releasing idx) with held := s.held.erase idx } else none
    | _ => none

def step (count : Nat) (s : State T) : Event T → Option (State T)
  | .thread t act => threadStep count s t act
  | .write idx val =>
    if idx ∈ s.held then some { s with nextIdx := Function.update s.nextIdx idx (val % 2 ^ 32) } else none

/-- The constructor: buffer `i` links to `i + 1`, the last one ends the list. -/
def init (count : Nat) : State T where
  headFreeVal := 0
  nextIdx i := if i + 1 < count then i + 1 else listEnd
  available := count
  pc _ := .idle
  held := []
  swaps := 0
  loadedAt _ := 0
  seen _ := []

/-- Fewer than `2 ^ 32` exchanges succeed between a thread's reading of the head and its own
exchange. -/
def Timely (s : State T) : Event T → Prop
  | .thread t (.swap _) => s.swaps - s.loadedAt t < 2 ^ 32
  | _ => True

/-- The states of all timely interleavings. -/
inductive Reachable (count : Nat) : State T → Prop where
  | init : Reachable count (init count)
  | step {s s' : State T} (h : Reachable count s) (e : Event T) (htimely : Timely s e)
      (hstep : step count s e = some s') : Reachable count s'

end Lepton.Pool

import Lepton.Names
import Lepton.Stream
import Mathlib.Data.Sum.Basic

/-! `TcpSocket` over the descriptor table of the operating system. Descriptors are names that are used again: a socket
that closed its descriptor twice, or called by it after the close, would meet the connection of another socket or a file
of the rest of the program. Sockets are constructed, used, moved and destroyed in any order, and the rest of the program
opens and closes files of its own between any two operations. -/

namespace Lepton.Tcp

open Function Names

inductive ConnState where
  | idle
  | connecting
  | connected
  | failed
  | closed
  deriving DecidableEq, Repr

/-- The states in which a socket has a descriptor. -/
def ConnState.Live (st : ConnState) : Prop := st = .connecting ∨ st = .connected

instance : DecidablePred ConnState.Live := fun st => inferInstanceAs (Decidable (st = .connecting ∨ st = .connected))

/-- What `sys::connect` returns: 0, `-EINPROGRESS`, or another negative errno. -/
inductive ConnectResult where
  | done
  | inProgress
  | refused
  deriving DecidableEq, Repr

/-- The answers of the operating system during a call. -/
structure Env where
  /-- The descriptor of the new socket, or a failure. -/
  socket : Option Nat := none
  nonblock : Bool := true
  connect : ConnectResult := .inProgress
  /-- `SO_ERROR` is set. -/
  error : Bool := false
  peer : Bool := false
  recv : ReadResult := .again
  send : WriteResult := .again
  deriving DecidableEq, Repr

/-- `sys::tcp_socket()`. A descriptor in use is not given out. -/
def tcpSocket (k : Table) (answer : Option Nat) : Option Nat := answer.filter fun fd => k.entry fd = none

structure TcpSocket where
  /-- `fd_`; none when it is negative. -/
  fd : Option Nat := none
  state : ConnState := .idle
  /-- History: the file that the descriptor stood for when the socket got it. -/
  file : Nat := 0
  deriving DecidableEq, Repr

namespace TcpSocket

/-- A system call by the socket's descriptor. By a negative one it is refused. -/
def sys (s : TcpSocket) (k : Table) : Table :=
  match s.fd with
  | none => k
  | some fd => k.use fd s.file

def close (s : TcpSocket) (k : Table) : TcpSocket × Table :=
  match s.fd with
  | none => ({ s with state := .closed }, k)
  | some fd => ({ s with fd := none, state := .closed }, k.close fd s.file)

/-- `close()`, and the state set to `Failed`. -/
def fail (s : TcpSocket) (k : Table) : TcpSocket × Table := ({ (s.close k).1 with state := .failed }, (s.close k).2)

/-- `connect` behind its `close()`. -/
def dial (s : TcpSocket) (k : Table) (env : Env) : Bool × TcpSocket × Table :=
  match tcpSocket k env.socket with
  | none => (false, { s with state := .failed }, k)
  | some fd =>
    let s := { s with fd := some fd, file := k.made }
    let k := k.enter fd
    if env.nonblock = false then (false, s.fail (s.sys k))
    else
      -- `set_nonblock`, `set_nodelay` and `connect`
      let k := s.sys (s.sys (s.sys k))
      match env.connect with
      | .done => (true, { s with state := .connected }, k)
      | .inProgress => (true, { s with state := .connecting }, k)
      | .refused => (false, s.fail k)

def connect (s : TcpSocket) (k : Table) (env : Env) : Bool × TcpSocket × Table :=
  let (s, k) := s.close k
  s.dial k env

def pollConnect (s : TcpSocket) (k : Table) (env : Env) : TcpSocket × Table :=
  if s.state ≠ .connecting then (s, k)
  else if env.error then s.fail (s.sys k)
  else (if env.peer then { s with state := .connected } else s, s.sys (s.sys k))

/-- What `poll_open` returns in a state. -/
def phase : ConnState → StreamPhase
  | .connected => .opened
  | .connecting => .connecting
  | .failed => .failed
  | .closed => .closed
  | .idle => .connecting

def pollOpen (s : TcpSocket) (k : Table) (env : Env) : StreamPhase × TcpSocket × Table :=
  let (s, k) := if s.state = .connecting then s.pollConnect k env else (s, k)
  (phase s.state, s, k)

def read (s : TcpSocket) (k : Table) (env : Env) : ReadResult × Table :=
  (if s.fd = none then .error else env.recv, s.sys k)

def write (s : TcpSocket) (k : Table) (env : Env) : WriteResult × Table :=
  (if s.fd = none then .error else env.send, s.sys k)

/-- `set_nodelay`, `set_quickack`, `set_recv_buf` or `set_send_buf`. -/
def setOption (s : TcpSocket) (k : Table) : Table := s.sys k

/-- `assign(fd, state)`, where `fd` stands for `file`. -/
def assign (s : TcpSocket) (k : Table) (fd file : Nat) (state : ConnState) : TcpSocket × Table :=
  let (s, k) := s.close k
  let s := { s with fd := some fd, file := file, state := state }
  (s, s.sys (s.sys k))

/-- What a move leaves of the socket it takes from. -/
def movedFrom (o : TcpSocket) : TcpSocket := { o with fd := none, state := .idle }

/-! ### One socket -/

variable {s s' s'' : TcpSocket} {k k' k'' : Table}

def hand (s : TcpSocket) : Hand := s.fd.map (·, s.file)

/-- The descriptor follows the state. -/
def Proper (s : TcpSocket) : Prop := s.fd.isSome = true ↔ s.state.Live

theorem proper_none (hfd : s.fd = none) (hstate : ¬ s.state.Live) : s.Proper :=
  ⟨fun h => absurd h (by rw [hfd]; exact Bool.noConfusion), fun h => absurd h hstate⟩

theorem proper_some {fd : Nat} (hfd : s.fd = some fd) (hstate : s.state.Live) : s.Proper :=
  ⟨fun _ => hstate, fun _ => by rw [hfd]; rfl⟩

/-- From `s` and `k` to `s'` and `k'` the socket only enters a file with an empty hand, and calls and closes by what it
holds, whatever the others hold. -/
def Deals (s : TcpSocket) (k : Table) (s' : TcpSocket) (k' : Table) : Prop :=
  ∀ (hands : Nat ⊕ Nat → Hand) (i : Nat ⊕ Nat), Steps ⟨k, update hands i s.hand⟩ ⟨k', update hands i s'.hand⟩

theorem Deals.trans (h : Deals s k s' k') (h' : Deals s' k' s'' k'') : Deals s k s'' k'' :=
  fun hands i => (h hands i).trans (h' hands i)

theorem Deals.same (hhand : s'.hand = s.hand) : Deals s k s' k := by
  intro hands i
  rw [hhand]

theorem deals_sys (s : TcpSocket) (k : Table) : Deals s k s (s.sys k) := by
  intro hands i
  unfold sys
  split
  · exact .refl
  · next fd hfd =>
    have hheld : update hands i s.hand i = some (fd, s.file) := by rw [update_self, hand, hfd]; rfl
    exact .single (Step.use (p := ⟨k, update hands i s.hand⟩) hheld)

theorem close_fst (s : TcpSocket) (k : Table) : (s.close k).1 = { s with fd := none, state := .closed } := by
  unfold close
  split
  · next hfd => rw [hfd]
  · rfl

theorem deals_close (s : TcpSocket) (k : Table) : Deals s k (s.close k).1 (s.close k).2 := by
  intro hands i
  unfold close
  split
  · exact .refl
  · next fd hfd =>
    have hheld : update hands i s.hand i = some (fd, s.file) := by rw [update_self, hand, hfd]; rfl
    have hstep := Step.close (p := ⟨k, update hands i s.hand⟩) hheld
    dsimp only at hstep
    rw [update_idem] at hstep
    exact .single hstep

theorem deals_fail (s : TcpSocket) (k : Table) : Deals s k (s.fail k).1 (s.fail k).2 :=
  (deals_close s k).trans (.same rfl)

theorem proper_close (s : TcpSocket) (k : Table) : (s.close k).1.Proper := by
  rw [close_fst]
  exact proper_none rfl (by change ¬ ConnState.Live .closed; decide)

theorem proper_fail (s : TcpSocket) (k : Table) : (s.fail k).1.Proper :=
  proper_none (by rw [fail, close_fst]) (by change ¬ ConnState.Live .failed; decide)

/-- A new socket comes into an empty hand. -/
theorem deals_enter (hempty : s.fd = none) {fd : Nat} (hfree : k.entry fd = none) :
    Deals s k { s with fd := some fd, file := k.made } (k.enter fd) := by
  intro hands i
  have hnone : update hands i s.hand i = none := by rw [update_self, hand, hempty]; rfl
  have hstep := Step.enter (p := ⟨k, update hands i s.hand⟩) hnone hfree
  dsimp only at hstep
  rw [update_idem] at hstep
  exact .single hstep

theorem entry_of_tcpSocket {answer : Option Nat} {fd : Nat} (h : tcpSocket k answer = some fd) : k.entry fd = none := by
  obtain ⟨-, hfree⟩ := Option.filter_eq_some_iff.mp h
  exact of_decide_eq_true hfree

/-- What is asked of a call. -/
structure Serves (s : TcpSocket) (k : Table) (s' : TcpSocket) (k' : Table) : Prop where
  proper : s'.Proper
  deals : Deals s k s' k'

theorem serves_dial (hempty : s.fd = none) (k : Table) (env : Env) :
    Serves s k (s.dial k env).2.1 (s.dial k env).2.2 := by
  unfold dial
  split
  · exact ⟨proper_none hempty (by change ¬ ConnState.Live .failed; decide), .same rfl⟩
  · next fd hfd =>
    have henter := deals_enter hempty (entry_of_tcpSocket hfd)
    generalize hs' : ({ s with fd := some fd, file := k.made } : TcpSocket) = s' at henter
    dsimp only
    have hfd' : s'.fd = some fd := by rw [← hs']
    split
    · exact ⟨proper_fail .., henter.trans ((deals_sys s' _).trans (deals_fail s' _))⟩
    · have hcalls := henter.trans ((deals_sys s' _).trans ((deals_sys s' _).trans (deals_sys s' _)))
      split
      · exact ⟨proper_some hfd' (Or.inr rfl), hcalls.trans (.same rfl)⟩
      · exact ⟨proper_some hfd' (Or.inl rfl), hcalls.trans (.same rfl)⟩
      · exact ⟨proper_fail .., hcalls.trans (deals_fail s' _)⟩

theorem serves_connect (s : TcpSocket) (k : Table) (env : Env) :
    Serves s k (s.connect k env).2.1 (s.connect k env).2.2 := by
  have hdial := serves_dial (s := (s.close k).1) (by rw [close_fst]) (s.close k).2 env
  exact ⟨hdial.proper, (deals_close s k).trans hdial.deals⟩

theorem serves_pollConnect (h : s.Proper) (k : Table) (env : Env) :
    Serves s k (s.pollConnect k env).1 (s.pollConnect k env).2 := by
  unfold pollConnect
  split
  · exact ⟨h, .same rfl⟩
  · next hstate =>
    have hlive : s.state.Live := Or.inl (Decidable.not_not.mp hstate)
    split
    · exact ⟨proper_fail .., (deals_sys s k).trans (deals_fail s _)⟩
    · have hcalls := (deals_sys s k).trans (deals_sys s _)
      dsimp only
      split
      · exact ⟨⟨fun _ => Or.inr rfl, fun _ => h.mpr hlive⟩, hcalls.trans (.same rfl)⟩
      · exact ⟨h, hcalls⟩

theorem serves_pollOpen (h : s.Proper) (k : Table) (env : Env) :
    Serves s k (s.pollOpen k env).2.1 (s.pollOpen k env).2.2 := by
  unfold pollOpen
  by_cases hstate : s.state = .connecting
  · rw [if_pos hstate]
    exact serves_pollConnect h k env
  · rw [if_neg hstate]
    exact ⟨h, .same rfl⟩

end TcpSocket

/-! ### All sockets -/

/-- The sockets there are, the descriptors of the rest of the program with the files they stand for, and the table. -/
structure World where
  sockets : Nat → Option TcpSocket := fun _ => none
  others : Nat → Option Nat := fun _ => none
  table : Table := {}

/-- A call of a socket. -/
inductive Call where
  | connect
  | pollConnect
  | pollOpen
  | read
  | write
  | setOption
  | close
  deriving DecidableEq, Repr

inductive Op where
  | construct (i : Nat)
  | call (i : Nat) (c : Call) (env : Env)
  /-- The rest of the program hands its descriptor `fd` over. -/
  | assign (i fd : Nat) (state : ConnState)
  /-- `TcpSocket i{std::move(j)}`. -/
  | moveConstruct (i j : Nat)
  /-- `i = std::move(j)`. -/
  | moveAssign (i j : Nat)
  | destroy (i : Nat)
  /-- The rest of the program opens a file and gets `fd`, if it is free. -/
  | openOther (fd : Nat)
  | closeOther (fd : Nat)
  deriving DecidableEq, Repr

/-- A call of a socket, with the table. -/
def call (s : TcpSocket) (k : Table) (env : Env) : Call → TcpSocket × Table
  | .connect => (s.connect k env).2
  | .pollConnect => s.pollConnect k env
  | .pollOpen => (s.pollOpen k env).2
  | .read => (s, (s.read k env).2)
  | .write => (s, (s.write k env).2)
  | .setOption => (s, s.setOption k)
  | .close => s.close k

theorem serves_call {s : TcpSocket} (h : s.Proper) (k : Table) (env : Env) (c : Call) :
    TcpSocket.Serves s k (call s k env c).1 (call s k env c).2 := by
  cases c with
  | connect => exact TcpSocket.serves_connect s k env
  | pollConnect => exact TcpSocket.serves_pollConnect h k env
  | pollOpen => exact TcpSocket.serves_pollOpen h k env
  | read | write | setOption => exact ⟨h, TcpSocket.deals_sys s k⟩
  | close => exact ⟨TcpSocket.proper_close s k, TcpSocket.deals_close s k⟩

namespace World

variable {w w' w'' : World} {i j : Nat}

/-- Socket `i`, if there is one, does `f`. -/
def act (w : World) (i : Nat) (f : TcpSocket → Table → TcpSocket × Table) : World :=
  match w.sockets i with
  | none => w
  | some s => { w with sockets := update w.sockets i (some (f s w.table).1), table := (f s w.table).2 }

/-- The members of socket `j` become those of socket `i`. -/
def take (w : World) (i j : Nat) : World :=
  match w.sockets j with
  | none => w
  | some o => { w with sockets := update (update w.sockets i (some o)) j (some o.movedFrom) }

/-- The rest of the program lets go of `fd`. -/
def letGo (w : World) (fd : Nat) : World := { w with others := update w.others fd none }

def step (w : World) : Op → World
  | .construct i => if (w.sockets i).isSome then w else { w with sockets := update w.sockets i (some {}) }
  | .call i c env => w.act i fun s k => Tcp.call s k env c
  | .assign i fd state =>
    if (w.sockets i).isSome then (w.act i fun s k => s.assign k fd ((w.others fd).getD 0) state).letGo fd else w
  | .moveConstruct i j => if (w.sockets i).isSome then w else w.take i j
  | .moveAssign i j =>
    if (w.sockets i).isSome ∧ (w.sockets j).isSome ∧ i ≠ j then (w.act i TcpSocket.close).take i j else w
  | .destroy i =>
    let w := w.act i TcpSocket.close
    { w with sockets := update w.sockets i none }
  | .openOther fd =>
    if w.table.entry fd = none then
      { w with others := update w.others fd (some w.table.made), table := w.table.enter fd }
    else w
  | .closeOther fd =>
    match w.others fd with
    | none => w
    | some file => { w with others := update w.others fd none, table := w.table.close fd file }

def run (w : World) (ops : List Op) : World := ops.foldl step w

/-- What the socket in a place holds. -/
def holding (o : Option TcpSocket) : Hand := o.bind TcpSocket.hand

/-- What the rest of the program holds at a descriptor. -/
def otherHand (fd : Nat) (file : Option Nat) : Hand := file.map (fd, ·)

/-- The hands of the sockets, on the left, and of the rest of the program. -/
def hands (sockets : Nat → Option TcpSocket) (others : Nat → Option Nat) : Nat ⊕ Nat → Hand :=
  Sum.elim (holding ∘ sockets) fun fd => otherHand fd (others fd)

theorem hands_update_socket (sockets : Nat → Option TcpSocket) (others : Nat → Option Nat) (i : Nat)
    (o : Option TcpSocket) : hands (update sockets i o) others = update (hands sockets others) (.inl i) (holding o) := by
  rw [hands, hands, Sum.update_elim_inl, comp_update]

theorem hands_update_other (sockets : Nat → Option TcpSocket) (others : Nat → Option Nat) (fd : Nat)
    (file : Option Nat) :
    hands sockets (update others fd file) = update (hands sockets others) (.inr fd) (otherHand fd file) := by
  rw [hands, hands, Sum.update_elim_inr]
  congr 1
  funext l
  exact apply_update otherHand others fd file l

def parties (w : World) : Parties (Nat ⊕ Nat) := ⟨w.table, hands w.sockets w.others⟩

def Proper (w : World) : Prop := ∀ i s, w.sockets i = some s → s.Proper

/-- What is asked of an operation. -/
structure Serves (w w' : World) : Prop where
  proper : w'.Proper
  steps : Steps w.parties w'.parties

theorem Serves.refl (h : w.Proper) : Serves w w := ⟨h, .refl⟩

theorem Serves.trans (h : Serves w w') (h' : Serves w' w'') : Serves w w'' := ⟨h'.proper, h.steps.trans h'.steps⟩

theorem Proper.update (h : w.Proper) {o : Option TcpSocket} (ho : ∀ s, o = some s → s.Proper) (i : Nat)
    (others : Nat → Option Nat) (table : Table) : Proper ⟨update w.sockets i o, others, table⟩ := by
  intro l s hs
  by_cases hl : l = i
  · subst hl
    exact ho s ((update_self l o w.sockets).symm.trans hs)
  · exact h l s ((update_of_ne hl o w.sockets).symm.trans hs)

theorem hand_of_fd {s : TcpSocket} {fd : Nat} (hs : w.sockets i = some s) (hfd : s.fd = some fd) :
    w.parties.hands (.inl i) = some (fd, s.file) := by
  change holding (w.sockets i) = some (fd, s.file)
  rw [hs, holding, Option.bind_some, TcpSocket.hand, hfd, Option.map_some]

theorem hands_of_socket {s : TcpSocket} (hs : w.sockets i = some s) : hands w.sockets w.others (.inl i) = s.hand := by
  change holding (w.sockets i) = s.hand
  rw [hs]
  rfl

/-- What a socket does, beside what the others hold. -/
theorem steps_of_deals {s s' : TcpSocket} {table : Table} (hs : w.sockets i = some s)
    (h : TcpSocket.Deals s w.table s' table) :
    Steps w.parties ⟨table, update (hands w.sockets w.others) (.inl i) s'.hand⟩ := by
  have hsteps := h (hands w.sockets w.others) (.inl i)
  rw [← hands_of_socket hs, update_eq_self] at hsteps
  exact hsteps

theorem serves_act (h : w.Proper) {f : TcpSocket → Table → TcpSocket × Table}
    (hf : ∀ s, w.sockets i = some s → TcpSocket.Serves s w.table (f s w.table).1 (f s w.table).2) :
    Serves w (w.act i f) := by
  unfold act
  split
  · exact .refl h
  · next s hs =>
    refine ⟨h.update (fun t ht => ?_) i w.others _, ?_⟩
    · cases ht
      exact (hf s hs).proper
    · rw [parties, parties, hands_update_socket]
      exact steps_of_deals hs (hf s hs).deals

theorem serves_update (h : w.Proper) {o : Option TcpSocket} (ho : ∀ s, o = some s → s.Proper)
    (hempty : holding o = none) (hbefore : holding (w.sockets i) = none) :
    Serves w { w with sockets := update w.sockets i o } := by
  refine ⟨h.update ho i w.others w.table, ?_⟩
  have hhand : hands w.sockets w.others (.inl i) = none := hbefore
  have hsame : hands (Function.update w.sockets i o) w.others = hands w.sockets w.others := by
    rw [hands_update_socket, hempty, ← hhand, update_eq_self]
  rw [parties, parties, hsame]

theorem serves_take (h : w.Proper) (hne : i ≠ j) (hempty : holding (w.sockets i) = none) : Serves w (w.take i j) := by
  unfold take
  split
  · exact .refl h
  · next o ho =>
    have hidle : o.movedFrom.Proper := TcpSocket.proper_none rfl (by change ¬ ConnState.Live .idle; decide)
    have htaken := h.update (fun s hs => h j s (ho.trans hs)) i w.others w.table
    refine ⟨htaken.update (fun s hs => by cases hs; exact hidle) j w.others w.table, ?_⟩
    have hapart : (Sum.inl j : Nat ⊕ Nat) ≠ .inl i := fun heq => hne (Sum.inl.inj heq).symm
    have hstep := Step.hand (p := ⟨w.table, hands w.sockets w.others⟩) hapart hempty
    dsimp only at hstep
    rw [hands_of_socket ho] at hstep
    rw [parties, parties, hands_update_socket, hands_update_socket]
    exact .single hstep

/-- `close`, in a move assignment or the destructor: the socket holds nothing any more. -/
theorem serves_act_close (h : w.Proper) (i : Nat) :
    Serves w (w.act i TcpSocket.close) ∧ holding ((w.act i TcpSocket.close).sockets i) = none := by
  refine ⟨serves_act h fun s _ => ⟨TcpSocket.proper_close s _, TcpSocket.deals_close s _⟩, ?_⟩
  unfold act
  split
  · next hs =>
    rw [hs]
    rfl
  · next s hs =>
    dsimp only
    rw [update_self, TcpSocket.close_fst]
    rfl

/-- `assign`, of a descriptor that the rest of the program has. -/
theorem serves_assign (h : w.Proper) {s : TcpSocket} (hs : w.sockets i = some s) {fd file : Nat}
    (hother : w.others fd = some file) {state : ConnState} (hstate : state.Live) :
    Serves w ((w.act i fun s k => s.assign k fd file state).letGo fd) := by
  rw [act, hs, letGo]
  dsimp only [TcpSocket.assign]
  generalize hs' : ({ (s.close w.table).1 with fd := some fd, file := file, state := state } : TcpSocket) = s'
  have hproper : s'.Proper := hs' ▸ TcpSocket.proper_some rfl hstate
  refine ⟨h.update (fun t ht => by cases ht; exact hproper) i _ _, ?_⟩
  rw [parties, parties, hands_update_other, hands_update_socket]
  have hclose := steps_of_deals hs (TcpSocket.deals_close s w.table)
  have hnone : (s.close w.table).1.hand = none := by
    rw [TcpSocket.close_fst]
    rfl
  rw [hnone, parties] at hclose
  generalize (s.close w.table).2 = table at hclose
  generalize hH : hands w.sockets w.others = H at hclose
  -- the descriptor goes from the rest of the program to the socket
  have hgiven : update H (.inl i) none (.inr fd) = s'.hand := by
    rw [update_of_ne Sum.inr_ne_inl, ← hH, ← hs']
    exact congrArg (otherHand fd) hother
  have hstep := Step.hand (p := ⟨table, update H (.inl i) none⟩) (i := .inr fd) Sum.inr_ne_inl (update_self _ _ _)
  dsimp only at hstep
  rw [hgiven, update_idem] at hstep
  have hcalls := ((TcpSocket.deals_sys s' table).trans (TcpSocket.deals_sys s' _)) (update H (.inr fd) none) (.inl i)
  rw [update_comm Sum.inr_ne_inl] at hcalls
  exact hclose.trans (.trans (.single hstep) hcalls)

/-- A socket is assigned a descriptor that the rest of the program has, and a state that goes with it. -/
def Tame (w : World) : Op → Prop
  | .assign _ fd state => (w.others fd).isSome ∧ state.Live
  | _ => True

theorem serves_step (h : w.Proper) (hsound : Sound w.parties) {op : Op} (htame : w.Tame op) : Serves w (w.step op) := by
  cases op with
  | construct i =>
    rw [step]
    split
    · exact .refl h
    · next hnone =>
      have hi : w.sockets i = none := Option.not_isSome_iff_eq_none.mp hnone
      refine serves_update h (fun s hs => ?_) rfl (congrArg holding hi)
      cases hs
      exact TcpSocket.proper_none rfl (by decide)
  | call i c env =>
    exact serves_act (f := fun s k => Tcp.call s k env c) h fun s hs => serves_call (h i s hs) w.table env c
  | assign i fd state =>
    rw [step]
    split
    · next hsome =>
      obtain ⟨s, hs⟩ := Option.isSome_iff_exists.mp hsome
      obtain ⟨file, hfile⟩ := Option.isSome_iff_exists.mp htame.1
      rw [hfile]
      exact serves_assign h hs hfile htame.2
    · exact .refl h
  | moveConstruct i j =>
    rw [step]
    split
    · exact .refl h
    · next hnone =>
      have hi : w.sockets i = none := Option.not_isSome_iff_eq_none.mp hnone
      by_cases hne : i = j
      · subst hne
        rw [take, hi]
        exact .refl h
      · exact serves_take h hne (congrArg holding hi)
  | moveAssign i j =>
    rw [step]
    split
    · next hboth =>
      obtain ⟨hclosed, hempty⟩ := serves_act_close h i
      exact hclosed.trans (serves_take hclosed.proper hboth.2.2 hempty)
    · exact .refl h
  | destroy i =>
    obtain ⟨hclosed, hempty⟩ := serves_act_close h i
    exact hclosed.trans (serves_update hclosed.proper (fun s hs => by cases hs) rfl hempty)
  | openOther fd =>
    rw [step]
    split
    · next hfree =>
      -- a descriptor of the rest of the program is in use
      have hempty : w.parties.hands (.inr fd) = none := by
        cases hfd : w.parties.hands (.inr fd) with
        | none => rfl
        | some held =>
          obtain ⟨file, -, rfl⟩ := Option.map_eq_some_iff.mp (show otherHand fd (w.others fd) = some held from hfd)
          exact absurd (hfree.symm.trans (hsound.named _ _ _ hfd)) (fun hno => by cases hno)
      refine ⟨h, ?_⟩
      rw [parties, parties, hands_update_other]
      exact .single (.enter hempty hfree)
    · exact .refl h
  | closeOther fd =>
    rw [step]
    split
    · exact .refl h
    · next file hfile =>
      refine ⟨h, ?_⟩
      rw [parties, parties, hands_update_other]
      exact .single (.close (congrArg (otherHand fd) hfile))

/-- Every assign of the run is tame. -/
def TameRun : World → List Op → Prop
  | _, [] => True
  | w, op :: ops => w.Tame op ∧ TameRun (w.step op) ops

theorem serves_run {ops : List Op} (h : w.Proper) (hsound : Sound w.parties) (htame : w.TameRun ops) :
    Serves w (w.run ops) := by
  induction ops generalizing w with
  | nil => exact .refl h
  | cons op ops ih =>
    have hstep := serves_step h hsound htame.1
    exact hstep.trans (ih hstep.proper (Steps.sound hstep.steps hsound) htame.2)

/-- The descriptors of all sockets are in order. -/
structure Orderly (w : World) : Prop where
  /-- A socket has a descriptor in states `Connecting` and `Connected`, and in no other. -/
  proper : w.Proper
  /-- No call met a file that is not the caller's, and every open file is held by one socket or by the rest of the
  program. -/
  sound : Sound w.parties
  /-- No two sockets have the same descriptor. -/
  apart : ∀ i j s t fd, w.sockets i = some s → w.sockets j = some t → s.fd = some fd → t.fd = some fd → i = j
  /-- When the sockets are gone and the rest of the program has closed its files, no descriptor is open, and every file
  was closed once. -/
  gone : (∀ i, w.sockets i = none) → (∀ fd, w.others fd = none) →
    (∀ fd, w.table.entry fd = none) ∧ ∀ file < w.table.made, w.table.closed.count file = 1

theorem descriptors_orderly (ops : List Op) (htame : TameRun {} ops) : Orderly (run {} ops) := by
  have hstart : Sound (parties {}) := by
    have hnone : hands (fun _ => none) (fun _ => none) = fun _ => none := by
      funext l
      cases l with
      | inl i => rfl
      | inr fd => rfl
    rw [parties, hnone]
    exact sound_start
  have hserves : Serves {} (run {} ops) := serves_run (fun i s hs => by cases hs) hstart htame
  have hsound : Sound (run {} ops).parties := Steps.sound hserves.steps hstart
  refine ⟨hserves.proper, hsound, fun i j s t fd hs ht hsfd htfd => ?_, fun hsockets hothers => ?_⟩
  · exact Sum.inl.inj (hsound.sole (hand_of_fd hs hsfd) (hand_of_fd ht htfd))
  · refine hsound.all_closed fun l => ?_
    cases l with
    | inl i => exact congrArg holding (hsockets i)
    | inr fd => exact congrArg (otherHand fd) (hothers fd)

instance (w : World) : DecidablePred w.Tame
  | .assign _ fd state => inferInstanceAs (Decidable ((w.others fd).isSome ∧ state.Live))
  | .construct .. | .call .. | .moveConstruct .. | .moveAssign .. | .destroy .. | .openOther .. | .closeOther .. =>
    isTrue trivial

instance : (w : World) → (ops : List Op) → Decidable (TameRun w ops)
  | _, [] => isTrue trivial
  | w, op :: ops =>
    have := instDecidableTameRun (w.step op) ops
    inferInstanceAs (Decidable (w.Tame op ∧ TameRun (w.step op) ops))

/-- A connection fails and its descriptor goes to a file of the rest of the program, which is handed to a second socket
and moved back to the first, while a third connects. -/
def reusingOps : List Op :=
  [.construct 0, .call 0 .connect { socket := some 3 }, .call 0 .pollOpen { error := true }, .openOther 3,
    .call 0 .close {}, .construct 1, .assign 1 3 .connected, .construct 2, .call 2 .connect { socket := some 3 },
    .call 2 .connect { socket := some 4 }, .moveAssign 0 1, .call 1 .write {}, .call 0 .write {}, .destroy 1, .destroy 2,
    .destroy 0]

theorem reusingOps_orderly :
    TameRun {} reusingOps ∧ (run {} reusingOps).table.closed = [1, 2, 0] ∧ Orderly (run {} reusingOps) :=
  ⟨by decide, by decide, descriptors_orderly reusingOps (by decide)⟩

end World

end Lepton.Tcp

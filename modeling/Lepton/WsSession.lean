import Lepton.Stream
import Lepton.Poller
import Lepton.Ring
import Lepton.IoBuffer
import Lepton.WsFrame
import Lepton.WsUpgrade

/-! The WebSocket client session `WsSession`, over any transport. The transport, the pool, the clock,
the poller and the user's callbacks answer from an `Env`, each call taking the next answer of its
kind; a call that returns needs finitely many, so every behaviour of the outside world during a call
is some `Env`. A callback runs a script of the user's calls. The fields under "history" record what has
happened on the current connection and are read by nothing. -/

namespace Lepton.Ws

open Words

inductive WsState where
  | disconnected
  | connecting
  | upgrading
  | opened
  | closing
  | failed
  deriving DecidableEq, Repr

/-- The states of a connection that has not ended. -/
def WsState.Live (st : WsState) : Prop := st ≠ .disconnected ∧ st ≠ .failed

instance : DecidablePred WsState.Live := fun st => inferInstanceAs (Decidable (st ≠ _ ∧ st ≠ _))

/-- The states of an upgraded connection. -/
def WsState.Up (st : WsState) : Prop := st = .opened ∨ st = .closing

instance : DecidablePred WsState.Up := fun st => inferInstanceAs (Decidable (st = _ ∨ st = _))

inductive SendStatus where
  | ok
  | wouldBlock
  | notOpen
  | tooLarge
  deriving DecidableEq, Repr

/-- What is set before the first connect: the pool's buffer size, which is a multiple of 64, and the
configuration of the session and of its loop. -/
structure Config where
  cap : Nat
  cap_ge : 64 ≤ cap
  cap_lt : cap < 2 ^ 63
  host : List UInt8 := []
  path : List UInt8 := [47]
  secKey : List UInt8 := []
  expectedAccept : List UInt8 := []
  pingIntervalNs : Int := 0
  pongTimeoutNs : Int := 0
  connectTimeoutNs : Int := 0
  busyPoll : Bool := false

theorem plainCap_ge : 64 ≤ 256 := by decide

theorem plainCap_lt : 256 < 2 ^ 63 := by decide

/-- The calls a user makes, from a callback too. -/
inductive Act where
  | connect
  | send (payload : List UInt8) (binary : Bool)
  | close (code : UInt16)
  deriving DecidableEq, Repr

/-- The public calls: those of the user and those of the event loop. -/
inductive Api where
  | act (a : Act)
  | onReady
  | checkTimeouts
  deriving DecidableEq, Repr

/-- The answers of the outside world. Past the last answer the transport has nothing to say, the
pool has a buffer, the poller agrees, the clock shows zero and the user does nothing. -/
structure Env where
  /-- The descriptor of the new connection, or a refusal. -/
  connects : List (Option Nat) := []
  opens : List StreamPhase := []
  writes : List WriteResult := []
  reads : List ReadResult := []
  acquires : List (Option Nat) := []
  adds : List Bool := []
  clocks : List Int := []
  scripts : List (List Act) := []
  reentries : List (List Api) := []
  deriving DecidableEq, Repr

structure Message where
  opcode : WsOpcode
  payload : List UInt8
  deriving DecidableEq, Repr

/-- A frame accepted for sending. -/
structure Frame where
  opcode : WsOpcode
  payload : List UInt8
  key : List UInt8
  fin : Bool
  deriving DecidableEq, Repr

/-- The bytes of a client frame. -/
def Frame.encode (f : Frame) : List UInt8 :=
  wsEncodeClientHeader (wsClientHeaderSize f.payload.length) f.opcode f.payload.length f.key f.fin
    ++ maskBytes f.key 0 f.payload

inductive Ev where
  /-- The state changed. -/
  | changed (st : WsState)
  /-- The response to the upgrade request is complete; `input` is all that was received. -/
  | response (input : List UInt8)
  /-- The transport connected, with the session registered or not. -/
  | dialed (registered : Bool)
  | added (ok : Bool)
  /-- A transport write, inside `close` or not. -/
  | written (inClose : Bool) (answer : WriteResult)
  /-- `start_connect` found no buffer, with the transport still connected or not. -/
  | starved (linked : Bool)
  | timedOut
  /-- `enqueue_frame` was called. -/
  | enqueued (st : WsState)
  /-- `check_keepalive` finds a ping due. -/
  | pingDue (st : WsState)
  /-- `check_keepalive` finds the pong overdue. -/
  | pongLate (st : WsState)
  /-- The bytes behind the upgrade response are parsed, after the callback for Open. -/
  | resumed (st : WsState)
  /-- The upgrade request is built, after the callback for Upgrading, with a slot left in the ring or not. -/
  | requested (st : WsState) (room : Bool)
  /-- `close` has sent its frame: what the pool answered, the slots in use before, and the calls of the
  transport, the latest first. -/
  | closing (code : UInt16) (acquired : Bool) (count : Nat) (calls : List StreamCall)
  deriving DecidableEq, Repr

/-- What happens to connections, to received frames and to buffers. -/
inductive Mark where
  /-- `start_connect` is called. -/
  | dial
  /-- `maybe_reconnect` finds the next attempt due. -/
  | redial (t : Int)
  /-- `teardown` sets the time of the next attempt. -/
  | ended (t : Int)
  /-- The upgrade is accepted. -/
  | opened
  /-- `check_keepalive` sends a ping, which `enqueue_frame` accepts or not. -/
  | ping (t : Int) (answer : SendStatus)
  /-- A pong is received. -/
  | pong
  /-- `check_keepalive` misses a pong. -/
  | lapse (t : Int)
  /-- `dispatch_frame` is called. -/
  | frame (st : WsState) (linked : Bool)
  /-- `on_message` is called. -/
  | message (st : WsState) (linked : Bool)
  /-- Bytes of the receive buffer are consumed. -/
  | consumed
  | pool (call : PoolCall)
  deriving DecidableEq, Repr

structure Pending where
  buf : IoBuffer := {}
  sent : Nat := 0
  deriving DecidableEq, Repr

def kMaxPending : Nat := 32
def kReconnectInitialNs : Int := 1000000000
def kReconnectMaxNs : Int := 30000000000

structure WsSession where
  cfg : Config
  state : WsState := .disconnected
  registered : Bool := false
  recv : IoBuffer := {}
  frag : IoBuffer := {}
  fragOpcode : WsOpcode := .text
  pending : Ring Pending kMaxPending := ⟨fun _ => {}, 0, 0, by decide, by decide⟩
  maskGen : UInt64
  nextPingAtNs : Int := 0
  pongDeadlineNs : Int := 0
  awaitingPong : Bool := false
  autoReconnect : Bool := false
  reconnectDelayNs : Int := 0
  reconnectAtNs : Int := 0
  connectDeadlineNs : Int := 0
  /-- The transport's descriptor. -/
  fd : Option Nat := none
  /-- The poller's entries for this session: write interest by descriptor. -/
  interest : Interest := fun _ => none
  env : Env := {}
  /-- History: the last connect of the transport succeeded, and it has not been closed since. -/
  linked : Bool := false
  /-- History: `close` is sending its frame. -/
  inClose : Bool := false
  /-- History: the upgrade request queued on this connection. -/
  request : List UInt8 := []
  /-- History: the frames accepted on this connection. -/
  frames : List Frame := []
  /-- History: the messages that `send` has taken on this connection, and whether they are binary. -/
  said : List (List UInt8 × Bool) := []
  /-- History: the bytes the transport has accepted on this connection. -/
  output : List UInt8 := []
  /-- History: the bytes received since the upgrade request. -/
  input : List UInt8 := []
  /-- History: the frames dispatched on this connection, with their payloads as received. -/
  received : List (WsFrameHeader × List UInt8) := []
  /-- History: the messages delivered on this connection. -/
  messages : List Message := []
  /-- History: the calls of the transport, the latest first. -/
  wire : List StreamCall := []
  /-- History: the number of violated assertions of the buffers and of the receive loop. -/
  faults : Nat := 0
  /-- History: events, the latest first. -/
  log : List Ev := []
  /-- History: marks, the latest first. -/
  marks : List Mark := []

/-- The user's callbacks. -/
structure Callbacks where
  onState : WsSession → WsSession
  onMessage : WsSession → WsSession

namespace WsSession

def note (s : WsSession) (e : Ev) : WsSession := { s with log := e :: s.log }

/-- History: a mark. -/
def mark (s : WsSession) (m : Mark) : WsSession := { s with marks := m :: s.marks }

/-- History: `pool_.release(b)`. -/
def giveBack (s : WsSession) (b : IoBuffer) : WsSession := { s with marks := b.released.map .pool ++ s.marks }

/-- One more fault if an assertion does not hold. -/
def tally (faults : Nat) (p : Prop) [Decidable p] : Nat := if p then faults else faults + 1

/-! The outside world. -/

/-- `transport_.close()`. Closing a descriptor removes it from the poller. -/
def transportClose (s : WsSession) : WsSession :=
  { s with
    fd := none
    linked := false
    wire := .close :: s.wire
    interest := s.interest.close s.fd }

/-- `transport_.connect(ep_)`. The old descriptor, if any, is closed first. -/
def transportConnect (s : WsSession) : Bool × WsSession :=
  match s.env.connects with
  | some fd :: rest =>
    (true, { s.transportClose with
             env := { s.env with connects := rest }
             fd := some fd, linked := true
             request := [], frames := [], said := [], output := [], input := [], received := [], messages := []
             wire := .connect true :: s.wire
             log := .dialed s.registered :: s.log })
  | other =>
    (false, { s.transportClose with env := { s.env with connects := other.tail }, wire := .connect false :: s.wire })

/-- `transport_.poll_open()`. -/
def transportPollOpen (s : WsSession) : StreamPhase × WsSession :=
  match s.env.opens with
  | [] => (.connecting, { s with wire := .pollOpen .connecting :: s.wire })
  | ph :: rest => (ph, { s with env := { s.env with opens := rest }, wire := .pollOpen ph :: s.wire })

/-- `transport_.write(rest)`. -/
def transportWrite (s : WsSession) (rest : List UInt8) : WriteResult × WsSession :=
  match s.env.writes with
  | [] => (.again, { s.note (.written s.inClose .again) with wire := .write rest .again :: s.wire })
  | r :: answers =>
    let s := { s.note (.written s.inClose r) with
               env := { s.env with writes := answers }, wire := .write rest r :: s.wire }
    match r with
    | .accepted n => (r, { s with output := s.output ++ rest.take n })
    | _ => (r, s)

/-- `transport_.read(spare)`, which returns no more than fits. -/
def transportRead (s : WsSession) (spare : Nat) : ReadResult × WsSession :=
  match s.env.reads with
  | [] => (.again, { s with wire := .read spare .again :: s.wire })
  | r :: rest =>
    let s := { s with env := { s.env with reads := rest } }
    match r with
    | .data bytes =>
      (.data (bytes.take spare),
        { s with input := s.input ++ bytes.take spare, wire := .read spare (.data (bytes.take spare)) :: s.wire })
    | _ => (r, { s with wire := .read spare r :: s.wire })

/-- `pool_.acquire(reserve_front)`; the null handle when the pool is empty. -/
def acquire (s : WsSession) (reserveFront : Nat) : IoBuffer × WsSession :=
  match s.env.acquires with
  | [] => (.blank 0 s.cfg.cap reserveFront, s.mark (.pool (.acquired (some 0))))
  | none :: rest =>
    ({}, { s with env := { s.env with acquires := rest }, marks := .pool (.acquired none) :: s.marks })
  | some id :: rest =>
    (.blank id s.cfg.cap reserveFront,
      { s with env := { s.env with acquires := rest }, marks := .pool (.acquired (some id)) :: s.marks })

/-- `TscClock::tscns()`. A time is an `int64_t`; here it has no bound, so that the deadlines computed from it are those of
the source as long as the clock and the longest timeout together stay below `2 ^ 63`. -/
def now (s : WsSession) : Int × WsSession :=
  (s.env.clocks.headD 0, { s with env := { s.env with clocks := s.env.clocks.tail } })

def wantsWrite (s : WsSession) : Bool := 0 < s.pending.count || s.state = .connecting

/-- `registered_ = loop_.add(*this)`. -/
def loopAdd (s : WsSession) : WsSession :=
  if s.cfg.busyPoll then { s.note (.added true) with registered := true }
  else
    match s.fd, s.env.adds with
    | none, _ => { s.note (.added false) with registered := false }
    | some _, false :: rest =>
      { s.note (.added false) with registered := false, env := { s.env with adds := rest } }
    | some fd, other =>
      { s.note (.added true) with
        registered := true
        env := { s.env with adds := other.tail }
        interest := s.interest.add fd s.wantsWrite }

/-- `loop_.notify_write_interest(*this, wants)`. -/
def notifyWriteInterest (s : WsSession) (wants : Bool) : WsSession :=
  { s with interest := if s.cfg.busyPoll then s.interest else s.interest.modify s.fd wants }

/-! The session. -/

def drainPending (s : WsSession) : WsSession :=
  { s with
    pending := s.pending.drain
    marks := (s.pending.toList.flatMap fun p => p.buf.released).reverse.map .pool ++ s.marks }

def releaseBuffers (s : WsSession) : WsSession :=
  { s.drainPending with
    recv := s.recv.release
    frag := s.frag.release
    marks := (s.frag.released ++ s.recv.released).map .pool ++ s.drainPending.marks }

/-- The state change of `set_state`, before the callback. -/
def enter (s : WsSession) (st : WsState) : WsSession :=
  if st = s.state then s else { s.note (.changed st) with state := st }

def setState (cb : Callbacks) (s : WsSession) (st : WsState) : WsSession :=
  if st = s.state then s else cb.onState (s.enter st)

/-- The part of `teardown` before the state change. -/
def shutDown (s : WsSession) (next : WsState) : WsSession :=
  let s := { s.transportClose.drainPending with
             frag := s.frag.release
             marks := s.frag.released.map .pool ++ s.drainPending.marks }
  if (next = .disconnected ∨ next = .failed) ∧ s.autoReconnect then
    let (t, s) := s.now
    { s with reconnectAtNs := t + s.reconnectDelayNs, marks := .ended t :: s.marks }
  else s

def teardown (cb : Callbacks) (s : WsSession) (next : WsState) : WsSession :=
  setState cb (s.shutDown next) next

/-- `push_pending`; false when the ring is full. -/
def pushPending (s : WsSession) (b : IoBuffer) : Bool × WsSession :=
  match s.pending.push { buf := b } with
  | none => (false, s)
  | some ring =>
    let first := s.pending.count = 0
    let s := { s with pending := ring }
    (true, if first then s.notifyWriteInterest true else s)

/-- How a turn of the loop of `flush_pending` ends: the loop is left, the transport has failed, the
last byte of a closing session is sent, or there is more. -/
inductive FlushTurn where
  | stop
  | fatal
  | finished
  | more
  deriving DecidableEq, Repr

def flushTurn (s : WsSession) : FlushTurn × WsSession :=
  if s.pending.count = 0 then (.stop, s.notifyWriteInterest false)
  else
    let p := s.pending.front
    match s.transportWrite (p.buf.bytes.drop p.sent) with
    | (.again, s) => (.stop, s)
    | (.error, s) => (.fatal, s)
    | (.accepted n, s) =>
      let p := { p with sent := p.sent + n }
      if p.buf.len ≤ p.sent then
        let s := { s with pending := s.pending.pop, marks := p.buf.released.map .pool ++ s.marks }
        (if s.state = .closing ∧ s.pending.count = 0 then .finished else .more, s)
      else (.stop, { s with pending := s.pending.setFront p })

/-- The loop of `flush_pending`. Every turn but the last takes an answer of the transport. -/
def flushLoop (cb : Callbacks) : Nat → WsSession → WsSession
  | 0, s => s
  | fuel + 1, s =>
    match s.flushTurn with
    | (.stop, s) => s
    | (.fatal, s) => teardown cb s .failed
    | (.finished, s) => teardown cb s .disconnected
    | (.more, s) => flushLoop cb fuel s

def flushPending (cb : Callbacks) (s : WsSession) : WsSession := flushLoop cb (s.env.writes.length + 1) s

/-- The buffer of a client frame: the payload copied in, masked in place, and the header put in the
reserved front. -/
def frameBuffer (b : IoBuffer) (f : Frame) : IoBuffer :=
  ((b.append f.payload).rewrite (maskBytes f.key 0)).prepend
    (wsEncodeClientHeader (wsClientHeaderSize f.payload.length) f.opcode f.payload.length f.key f.fin)

/-- `mask_gen_.next()`. -/
def nextKey (s : WsSession) : UInt32 × WsSession :=
  let (key, gen) := pcgNext s.maskGen
  (key, { s with maskGen := gen })

/-- `enqueue_frame` up to the flush. -/
def queueFrame (s : WsSession) (opcode : WsOpcode) (payload : List UInt8) (fin : Bool) : SendStatus × WsSession :=
  let hsize := wsClientHeaderSize payload.length
  let (b, s) := (s.note (.enqueued s.state)).acquire hsize
  if b.base = none then (.wouldBlock, s)
  else if b.tailroom < payload.length then (.tooLarge, s.giveBack b)
  else
    let (key, s) := s.nextKey
    let s := { s with
               faults := tally (tally s.faults (payload.length ≤ b.tailroom)) (hsize ≤ b.head) }
    let f : Frame := { opcode := opcode, payload := payload, key := keyBytes key, fin := fin }
    if (wsEncodeClientHeader hsize opcode payload.length f.key fin).length ≠ hsize then (.tooLarge, s.giveBack b)
    else
      match s.pushPending (frameBuffer b f) with
      | (true, s) => (.ok, { s with frames := s.frames ++ [f] })
      | (false, s) => (.wouldBlock, s.giveBack b)

def enqueueFrame (cb : Callbacks) (s : WsSession) (opcode : WsOpcode) (payload : List UInt8) (fin : Bool) :
    SendStatus × WsSession :=
  match s.queueFrame opcode payload fin with
  | (.ok, s) => (.ok, flushPending cb s)
  | (status, s) => (status, s)

def armDeadline (s : WsSession) : WsSession :=
  if 0 < s.cfg.connectTimeoutNs then
    let (t, s) := s.now
    { s with connectDeadlineNs := t + s.cfg.connectTimeoutNs }
  else { s with connectDeadlineNs := 0 }

/-- How `start_connect` fares: without a buffer, refused by the transport, or on its way. -/
inductive Dialing where
  | starved
  | refused
  | dialed
  deriving DecidableEq, Repr

/-- The first part of `start_connect`: a new receive buffer; false when the pool has none. -/
def takeRecv (s : WsSession) : Bool × WsSession :=
  let (b, s) := s.releaseBuffers.acquire 0
  (b.base.isSome, { s with recv := b.reset 0 })

def tryDial (s : WsSession) : Dialing × WsSession :=
  match (s.mark .dial).takeRecv with
  | (false, s) => (.starved, s.note (.starved s.linked))
  | (true, s) =>
    match s.armDeadline.transportConnect with
    | (true, s) => (.dialed, s)
    | (false, s) => (.refused, s)

def register (s : WsSession) : WsSession := if s.registered then s else s.loopAdd

def startConnect (cb : Callbacks) (s : WsSession) : WsSession :=
  match s.tryDial with
  | (.starved, s) => setState cb s .failed
  | (.refused, s) => teardown cb s .failed
  | (.dialed, s) => (setState cb s .connecting).register

def nextDelay (delay : Int) : Int :=
  if delay = 0 then kReconnectInitialNs else if kReconnectMaxNs < delay * 2 then kReconnectMaxNs else delay * 2

/-- The test of `maybe_reconnect`, and the next delay. -/
def reconnectDue (s : WsSession) : Bool × WsSession :=
  if s.autoReconnect = false then (false, s)
  else
    let (t, s) := s.now
    if t < s.reconnectAtNs then (false, s)
    else (true, { s with reconnectDelayNs := nextDelay s.reconnectDelayNs, marks := .redial t :: s.marks })

def maybeReconnect (cb : Callbacks) (s : WsSession) : WsSession :=
  match s.reconnectDue with
  | (true, s) => startConnect cb s
  | (false, s) => s

/-- `send_upgrade_request` behind the state change, up to the flush; false when it fails. -/
def queueRequest (s : WsSession) : Bool × WsSession :=
  let (req, s) :=
    { s.note (.requested s.state (s.pending.count < kMaxPending)) with recv := s.recv.reset 0, input := [] }.acquire 0
  if req.base = none then (false, s)
  else
    match buildWsUpgrade req.tailroom s.cfg.host s.cfg.path s.cfg.secKey with
    | none => (false, s.giveBack req)
    | some text =>
      let s := { s with faults := tally s.faults (text.length ≤ req.tailroom) }
      match s.pushPending (req.append text) with
      | (true, s) => (true, { s with request := text })
      | (false, s) => (true, s)

def sendUpgradeRequest (cb : Callbacks) (s : WsSession) : WsSession :=
  match (setState cb s .upgrading).queueRequest with
  | (true, s) => flushPending cb s
  | (false, s) => teardown cb s .failed

def compactRecv (s : WsSession) : WsSession :=
  if s.recv.len = 0 then { s with recv := s.recv.reset 0 }
  else if s.recv.head = 0 then s
  else
    { s with
      recv := s.recv.moveToFront
      faults := tally s.faults (s.recv.len ≤ (s.recv.reset 0).tailroom) }

def armPing (s : WsSession) : WsSession :=
  let s := { s with awaitingPong := false }
  if 0 < s.cfg.pingIntervalNs then
    let (t, s) := s.now
    { s with nextPingAtNs := t + s.cfg.pingIntervalNs }
  else s

/-- History: a message is handed to `on_message`. -/
def addMessage (s : WsSession) (m : Message) : WsSession :=
  { s with messages := s.messages ++ [m], marks := .message s.state s.linked :: s.marks }

def deliver (cb : Callbacks) (s : WsSession) (m : Message) : WsSession := cb.onMessage (s.addMessage m)

/-- How a fragment is taken: there is no message in progress, it does not fit, or it is stored. -/
inductive Storing where
  | ignored
  | overflow
  | stored
  deriving DecidableEq, Repr

def storeFragment (s : WsSession) (chunk : List UInt8) : Storing × WsSession :=
  if s.frag.base = none then (.ignored, s)
  else if s.frag.tailroom < chunk.length then (.overflow, s)
  else
    (.stored, { s with frag := s.frag.append chunk, faults := tally s.faults (chunk.length ≤ s.frag.tailroom) })

def dropFragment (s : WsSession) : WsSession :=
  { s with frag := s.frag.release, marks := s.frag.released.map .pool ++ s.marks }

def appendFragment (cb : Callbacks) (s : WsSession) (chunk : List UInt8) (fin : Bool) : WsSession :=
  match s.storeFragment chunk with
  | (.ignored, s) => s
  | (.overflow, s) => teardown cb s .failed
  | (.stored, s) =>
    if fin then (deliver cb s { opcode := s.fragOpcode, payload := s.frag.bytes }).dropFragment else s

/-- The buffer for a fragmented message; false when the pool has none. -/
def openFragment (s : WsSession) (op : WsOpcode) : Bool × WsSession :=
  let s :=
    if s.frag.base = none then
      let (b, s) := s.acquire 0
      { s with frag := b }
    else s
  if s.frag.base = none then (false, s) else (true, { s with frag := s.frag.reset 0, fragOpcode := op })

def beginFragment (cb : Callbacks) (s : WsSession) (op : WsOpcode) (first : List UInt8) : WsSession :=
  match s.openFragment op with
  | (true, s) => appendFragment cb s first false
  | (false, s) => teardown cb s .failed

def takePong (s : WsSession) : WsSession := { s with awaitingPong := false, marks := .pong :: s.marks }

def dispatchFrame (cb : Callbacks) (s : WsSession) (hdr : WsFrameHeader) (payload : List UInt8) : WsSession :=
  match hdr.opcode with
  | .text | .binary =>
    if hdr.fin then deliver cb s { opcode := hdr.opcode, payload := payload }
    else beginFragment cb s hdr.opcode payload
  | .continuation => appendFragment cb s payload hdr.fin
  | .ping => (enqueueFrame cb s .pong payload true).2
  | .pong => s.takePong
  | .close => teardown cb s .disconnected

/-- What `parse_frames` finds at the front of the buffer. -/
inductive Parsed where
  | wait
  | error
  | frame (hdr : WsFrameHeader) (payload : List UInt8) (total : Nat)
  deriving DecidableEq, Repr

def nextFrame (s : WsSession) : Parsed :=
  match wsParseHeader s.recv.bytes with
  | .incomplete => .wait
  | .error => .error
  | .header hdr =>
    let total := add hdr.headerSize hdr.payloadLen
    if s.recv.len < total then .wait
    else .frame hdr (Search.slice s.recv.bytes hdr.headerSize hdr.payloadLen) total

def consumeRecv (s : WsSession) (n : Nat) : WsSession :=
  { s with recv := s.recv.consume n, faults := tally s.faults (n ≤ s.recv.len), marks := .consumed :: s.marks }

/-- `hlen + payload_len` does not wrap, for a header at the front of the buffer. -/
def sumFits (bytes : List UInt8) : Bool :=
  match wsParseHeader bytes with
  | .header hdr => hdr.headerSize + hdr.payloadLen < wordSize
  | _ => true

/-- History: the sum of `parse_frames` is checked. -/
def countHeader (s : WsSession) : WsSession := { s with faults := tally s.faults (sumFits s.recv.bytes = true) }

/-- History: a frame of at least two bytes is handed to `dispatch_frame`, its payload inside the buffer. -/
def countFrame (s : WsSession) (hdr : WsFrameHeader) (payload : List UInt8) : WsSession :=
  { s with
    received := s.received ++ [(hdr, payload)]
    marks := .frame s.state s.linked :: s.marks
    faults := tally s.faults (hdr.headerSize + hdr.payloadLen ≤ s.recv.len ∧ 2 ≤ hdr.headerSize + hdr.payloadLen) }

/-- The loop of `parse_frames`. Every turn but the last consumes bytes of the buffer; a loop that goes
on past its bound is a fault. -/
def parseLoop (cb : Callbacks) : Nat → WsSession → WsSession
  | 0, s => { s with faults := s.faults + 1 }
  | fuel + 1, s =>
    let s := s.countHeader
    match s.nextFrame with
    | .wait => s.compactRecv
    | .error => teardown cb s .failed
    | .frame hdr payload total =>
      let s := (dispatchFrame cb (s.countFrame hdr payload) hdr payload).consumeRecv total
      if s.state = .opened ∨ s.state = .closing then parseLoop cb fuel s else s

def parseFrames (cb : Callbacks) (s : WsSession) : WsSession := parseLoop cb (s.recv.mem.length + 1) s

/-- What `drive_upgrade_read` makes of a read. -/
inductive Verdict where
  | wait
  | reject
  | accept
  deriving DecidableEq, Repr

def judgeResponse (s : WsSession) : Verdict × WsSession :=
  let r := validateWsUpgrade s.recv.bytes s.cfg.expectedAccept
  if r.complete = false then (.wait, s)
  else
    let s := s.note (.response s.input)
    if (r.accepted || (s.cfg.expectedAccept = [] && 0 < r.headersLen)) = false then (.reject, s)
    else (.accept, { ((s.mark .opened).consumeRecv r.headersLen).compactRecv with reconnectDelayNs := 0 })

/-- `recv_.append(n)`, and the bytes read. -/
def appendRecv (s : WsSession) (bytes : List UInt8) : WsSession :=
  { s with recv := s.recv.append bytes, faults := tally s.faults (bytes.length ≤ s.recv.tailroom) }

def readResponse (s : WsSession) : Verdict × WsSession :=
  if s.recv.tailroom = 0 then (.reject, s)
  else
    match s.transportRead s.recv.tailroom with
    | (.again, s) => (.wait, s)
    | (.error, s) => (.reject, s)
    | (.data bytes, s) => if bytes = [] then (.reject, s) else (s.appendRecv bytes).judgeResponse

def parseRest (cb : Callbacks) (s : WsSession) : WsSession :=
  if 0 < s.recv.len then parseFrames cb (s.note (.resumed s.state)) else s

def driveUpgradeRead (cb : Callbacks) (s : WsSession) : WsSession :=
  match s.readResponse with
  | (.wait, s) => s
  | (.reject, s) => teardown cb s .failed
  | (.accept, s) => parseRest cb (setState cb s .opened).armPing

/-- What `drive_frame_read` reads. -/
inductive Reading where
  | wait
  | ended
  | broken
  | got
  deriving DecidableEq, Repr

def readFrames (s : WsSession) : Reading × WsSession :=
  if s.recv.tailroom = 0 then (.broken, s)
  else
    match s.transportRead s.recv.tailroom with
    | (.again, s) => (.wait, s)
    | (.error, s) => (.broken, s)
    | (.data bytes, s) => if bytes = [] then (.ended, s) else (.got, s.appendRecv bytes)

def driveFrameRead (cb : Callbacks) (s : WsSession) : WsSession :=
  match s.readFrames with
  | (.wait, s) => s
  | (.ended, s) => teardown cb s .disconnected
  | (.broken, s) => teardown cb s .failed
  | (.got, s) => parseFrames cb s

/-- What `check_keepalive` finds: nothing to do, a missing pong, or a ping that is due. -/
inductive Keepalive where
  | idle
  | stale
  | due (t : Int)
  deriving DecidableEq, Repr

def keepaliveTurn (s : WsSession) : Keepalive × WsSession :=
  if s.cfg.pingIntervalNs ≤ 0 then (.idle, s)
  else
    let (t, s) := s.now
    if s.awaitingPong then
      if 0 < s.cfg.pongTimeoutNs ∧ s.pongDeadlineNs ≤ t then
        (.stale, ((s.note (.pongLate s.state)).note .timedOut).mark (.lapse t))
      else (.idle, s)
    else if s.nextPingAtNs ≤ t then
      (.due t, (s.note (.pingDue s.state)).mark (.ping t (s.queueFrame .ping [] true).1))
    else (.idle, s)

def pinged (s : WsSession) (t : Int) : WsSession :=
  { s with
    awaitingPong := true
    pongDeadlineNs := t + s.cfg.pongTimeoutNs
    nextPingAtNs := t + s.cfg.pingIntervalNs }

def checkKeepalive (cb : Callbacks) (s : WsSession) : WsSession :=
  match s.keepaliveTurn with
  | (.idle, s) => s
  | (.stale, s) => teardown cb s .failed
  | (.due t, s) => (enqueueFrame cb s .ping [] true).2.pinged t

/-- The test of `check_timeouts`. -/
def deadlinePassed (s : WsSession) : Bool × WsSession :=
  if (s.state = .connecting ∨ s.state = .upgrading) ∧ 0 < s.connectDeadlineNs then
    let (t, s) := s.now
    if s.connectDeadlineNs ≤ t then (true, s.note .timedOut) else (false, s)
  else (false, s)

def checkTimeouts (cb : Callbacks) (s : WsSession) : WsSession :=
  match s.deadlinePassed with
  | (true, s) => teardown cb s .failed
  | (false, s) => s

def connect (cb : Callbacks) (s : WsSession) : WsSession := startConnect cb s

def send (cb : Callbacks) (s : WsSession) (payload : List UInt8) (binary : Bool) : SendStatus × WsSession :=
  if s.state ≠ .opened then (.notOpen, s)
  else enqueueFrame cb s (if binary then .binary else .text) payload true

/-- `close` in Open, up to the state change: the Close frame is queued and flushed. -/
def sendClose (cb : Callbacks) (s : WsSession) (code : UInt16) : WsSession :=
  let body := [(code >>> 8).toUInt8, code.toUInt8]
  let s' := (enqueueFrame cb { s with autoReconnect := false, inClose := true } .close body true).2
  { s' with
    inClose := s.inClose
    log := .closing code (s.env.acquires.head? ≠ some none) s.pending.count
      (s'.wire.take (s'.wire.length - s.wire.length)) :: s'.log }

def close (cb : Callbacks) (s : WsSession) (code : UInt16) : WsSession :=
  if s.state = .opened then setState cb (sendClose cb s code) .closing
  else teardown cb { s with autoReconnect := false } .disconnected

/-- The part of `on_ready` for a connection that is up. -/
def drive (cb : Callbacks) (s : WsSession) : WsSession :=
  if s.state = .upgrading then driveUpgradeRead cb s
  else if s.state = .opened ∨ s.state = .closing then checkKeepalive cb (driveFrameRead cb s)
  else s

def onReady (cb : Callbacks) (s : WsSession) : WsSession :=
  let s := checkTimeouts cb s
  if s.state = .disconnected ∨ s.state = .failed then maybeReconnect cb s
  else if s.state = .connecting then
    match s.transportPollOpen with
    | (.connecting, s) => s
    | (.opened, s) => sendUpgradeRequest cb s
    | (.failed, s) => teardown cb s .failed
    | (.closed, s) => teardown cb s .failed
  else drive cb (flushPending cb s)

/-- History: a message that `send` takes. -/
def tells (s : WsSession) (payload : List UInt8) (binary : Bool) : WsSession :=
  { s with said := s.said ++ [(payload, binary)] }

/-- A call of the user. The arguments of a `send` that returns Ok are recorded. -/
def act (cb : Callbacks) (s : WsSession) : Act → WsSession
  | .connect => connect cb s
  | .send payload binary =>
    (send cb (if (send cb s payload binary).1 = .ok then s.tells payload binary else s) payload binary).2
  | .close code => close cb s code

/-- A public call. -/
def api (cb : Callbacks) (s : WsSession) : Api → WsSession
  | .act a => act cb s a
  | .onReady => onReady cb s
  | .checkTimeouts => checkTimeouts cb s

/-- A callback: the next script. -/
def script (cb : Callbacks) (s : WsSession) : WsSession :=
  match s.env.scripts with
  | [] => s
  | acts :: rest => acts.foldl (act cb) { s with env := { s.env with scripts := rest } }

/-- Callbacks nested at most `depth` deep. -/
def callbacks : Nat → Callbacks
  | 0 => ⟨id, id⟩
  | depth + 1 => ⟨script (callbacks depth), script (callbacks depth)⟩

/-- A callback whose script makes only the calls in `allowed`. -/
def scriptOf (allowed : Act → Bool) (cb : Callbacks) (s : WsSession) : WsSession :=
  match s.env.scripts with
  | [] => s
  | acts :: rest => (acts.filter allowed).foldl (act cb) { s with env := { s.env with scripts := rest } }

/-- Callbacks nested at most `depth` deep that make only the calls in `allowed`. -/
def callbacksOf (allowed : Act → Bool) : Nat → Callbacks
  | 0 => ⟨id, id⟩
  | depth + 1 => ⟨scriptOf allowed (callbacksOf allowed depth), scriptOf allowed (callbacksOf allowed depth)⟩

/-- A callback that makes any public calls: the next of them. -/
def reenter (cb : Callbacks) (s : WsSession) : WsSession :=
  match s.env.reentries with
  | [] => s
  | calls :: rest => calls.foldl (api cb) { s with env := { s.env with reentries := rest } }

/-- Callbacks nested at most `depth` deep that make any public calls. -/
def reentrant : Nat → Callbacks
  | 0 => ⟨id, id⟩
  | depth + 1 => ⟨reenter (reentrant depth), reenter (reentrant depth)⟩

/-- A public call with the callbacks `cb`. -/
def callWith (cb : Callbacks) (s : WsSession) (c : Api × Env) : WsSession := api cb { s with env := c.2 } c.1

def runWith (cb : Callbacks) (s : WsSession) (calls : List (Api × Env)) : WsSession := calls.foldl (callWith cb) s

/-- An outermost public call, during which the outside world answers from `env`. -/
def call (depth : Nat) (s : WsSession) (c : Api × Env) : WsSession :=
  api (callbacks depth) { s with env := c.2 } c.1

def run (depth : Nat) (s : WsSession) (calls : List (Api × Env)) : WsSession := calls.foldl (call depth) s

end WsSession

/-- A session before its first connect. -/
def fresh (cfg : Config) (seed : UInt64) (autoReconnect : Bool) : WsSession :=
  { cfg := cfg, maskGen := seed, autoReconnect := autoReconnect }

end Lepton.Ws

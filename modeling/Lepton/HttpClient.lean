import Lepton.Stream
import Lepton.Poller
import Lepton.IoBuffer
import Lepton.HttpResponse
import Lepton.WsUpgrade

/-! The keep-alive HTTP client `HttpClient`, over any transport. As in the model of the WebSocket session, the
transport, the pool, the clock, the poller and the user's callbacks answer from an `Env`, a callback runs a
script of the user's calls, and the fields under "history" are read by nothing. -/

namespace Lepton.Http

open Words

inductive HttpState where
  | disconnected
  | connecting
  | idle
  | sending
  | receiving
  | failed
  deriving DecidableEq, Repr

/-- The states of a connection that has not ended. -/
def HttpState.Live (st : HttpState) : Prop := st ≠ .disconnected ∧ st ≠ .failed

instance : DecidablePred HttpState.Live := fun st => inferInstanceAs (Decidable (st ≠ _ ∧ st ≠ _))

inductive HttpSubmit where
  | ok
  | busy
  | notReady
  | tooLarge
  deriving DecidableEq, Repr

inductive HttpMethod where
  | get
  | post
  | delete
  | put
  deriving DecidableEq, Repr

def httpMethodStr : HttpMethod → List UInt8
  | .get => ascii "GET"
  | .post => ascii "POST"
  | .delete => ascii "DELETE"
  | .put => ascii "PUT"

structure Request where
  method : HttpMethod := .get
  path : List UInt8 := [47]
  headerLines : List (List UInt8) := []
  body : List UInt8 := []
  deriving DecidableEq, Repr

/-- The digits of a number, without leading zeros. -/
def decimal (n : Nat) : List UInt8 := (Nat.toDigits 10 n).map fun c => c.toNat.toUInt8

/-- `build_http_request`: the request, or `none` if it does not fit in `room`. -/
def buildHttpRequest (room : Nat) (host : List UInt8) (r : Request) : Option (List UInt8) :=
  Ws.putAll room []
    ([httpMethodStr r.method, ascii " ", r.path, ascii " HTTP/1.1\r\nHost: ", host, crlf]
      ++ r.headerLines.flatMap (fun h => [h, crlf])
      ++ (if r.body = [] then [] else [ascii "Content-Length: ", decimal r.body.length, crlf])
      ++ [crlf] ++ (if r.body = [] then [] else [r.body]))

/-- What is set before the first connect. -/
structure ClientConfig where
  cap : Nat
  cap_ge : 64 ≤ cap
  cap_lt : cap < 2 ^ 63
  host : List UInt8 := []
  requestTimeoutNs : Int := 0
  connectTimeoutNs : Int := 0
  busyPoll : Bool := false

/-- The calls a user makes, from a callback too. -/
inductive Act where
  | connect
  | request (r : Request)
  | close
  deriving DecidableEq, Repr

/-- The public calls: those of the user and those of the event loop. -/
inductive Api where
  | act (a : Act)
  | onReady
  | checkTimeouts
  deriving DecidableEq, Repr

/-- The answers of the outside world. Past the last answer the transport has nothing to say, the
pool has a buffer, the poller agrees, the clock shows zero and the user does nothing. -/
structure Env where
  /-- The descriptor of the new connection, or a refusal. -/
  connects : List (Option Nat) := []
  opens : List StreamPhase := []
  writes : List WriteResult := []
  reads : List ReadResult := []
  acquires : List (Option Nat) := []
  adds : List Bool := []
  clocks : List Int := []
  scripts : List (List Act) := []
  deriving DecidableEq, Repr

inductive Ev where
  /-- The transport connected, with the client registered or not. -/
  | dialed (registered : Bool)
  | added (ok : Bool)
  /-- A request is accepted, over the bytes in the receive buffer. -/
  | requested (leftover : List UInt8)
  /-- `on_response` has returned on a live client. -/
  | completed (st : HttpState)
  deriving DecidableEq, Repr

/-- What becomes of requests and connections, as the user sees it. -/
inductive Notice where
  /-- `request` returns Ok. -/
  | accepted
  /-- `on_response` is called. -/
  | response
  /-- `on_error` is called. -/
  | error
  /-- `close` is called. -/
  | closed
  /-- `start_connect` is called. -/
  | dial (st : HttpState)
  deriving DecidableEq, Repr

structure HttpClient where
  cfg : ClientConfig
  state : HttpState := .disconnected
  registered : Bool := false
  writeArmed : Bool := false
  send : IoBuffer := {}
  sendOff : Nat := 0
  recv : IoBuffer := {}
  requestDeadlineNs : Int := 0
  connectDeadlineNs : Int := 0
  /-- The transport's descriptor. -/
  fd : Option Nat := none
  /-- The poller's entries for this client: write interest by descriptor. -/
  interest : Interest := fun _ => none
  env : Env := {}
  /-- History: the last connect of the transport succeeded, and it has not been closed since. -/
  linked : Bool := false
  /-- History: the arguments of the calls of `request` on this connection that return Ok. -/
  asked : List Request := []
  /-- History: the requests accepted on this connection, as they are built. -/
  requests : List (List UInt8) := []
  /-- History: the responses delivered on this connection, by status and body. -/
  responses : List (Nat × List UInt8) := []
  /-- History: the bytes the transport has accepted on this connection. -/
  output : List UInt8 := []
  /-- History: the writes that the transport has accepted on this connection, each with the number of responses
  delivered before. -/
  sends : List (List UInt8 × Nat) := []
  /-- History: the bytes received on this connection. -/
  input : List UInt8 := []
  /-- History: the calls of the transport, the latest first. -/
  wire : List StreamCall := []
  /-- History: the number of violated assertions of the buffers. -/
  faults : Nat := 0
  /-- History: the parser has left its buffer or does not return, or a move has left the buffer. -/
  lost : Bool := false
  /-- History: events, the latest first. -/
  log : List Ev := []
  /-- History: what the user has seen, the latest first. -/
  notices : List Notice := []
  /-- History: the calls of the pool, the latest first. -/
  pool : List PoolCall := []

/-- The user's callbacks. -/
structure Callbacks where
  onResponse : HttpClient → HttpClient
  onError : HttpClient → HttpClient

namespace HttpClient

def note (s : HttpClient) (e : Ev) : HttpClient := { s with log := e :: s.log }

/-- One more fault if an assertion does not hold. -/
def tally (faults : Nat) (p : Prop) [Decidable p] : Nat := if p then faults else faults + 1

/-! The outside world. -/

/-- `transport_.close()`. Closing a descriptor removes it from the poller. -/
def transportClose (s : HttpClient) : HttpClient :=
  { s with
    fd := none
    linked := false
    wire := .close :: s.wire
    interest := s.interest.close s.fd }

/-- `transport_.connect(ep_)`. The old descriptor, if any, is closed first. -/
def transportConnect (s : HttpClient) : Bool × HttpClient :=
  match s.env.connects with
  | some fd :: rest =>
    (true, { s.transportClose with
             env := { s.env with connects := rest }
             fd := some fd, linked := true
             asked := [], requests := [], responses := [], output := [], sends := [], input := []
             wire := .connect true :: s.wire
             log := .dialed s.registered :: s.log })
  | other =>
    (false, { s.transportClose with env := { s.env with connects := other.tail }, wire := .connect false :: s.wire })

/-- `transport_.poll_open()`. -/
def transportPollOpen (s : HttpClient) : StreamPhase × HttpClient :=
  match s.env.opens with
  | [] => (.connecting, { s with wire := .pollOpen .connecting :: s.wire })
  | ph :: rest => (ph, { s with env := { s.env with opens := rest }, wire := .pollOpen ph :: s.wire })

/-- `transport_.write(rest)`. -/
def transportWrite (s : HttpClient) (rest : List UInt8) : WriteResult × HttpClient :=
  match s.env.writes with
  | [] => (.again, { s with wire := .write rest .again :: s.wire })
  | r :: answers =>
    let s := { s with env := { s.env with writes := answers }, wire := .write rest r :: s.wire }
    match r with
    | .accepted n =>
      (r, { s with output := s.output ++ rest.take n, sends := s.sends ++ [(rest.take n, s.responses.length)] })
    | _ => (r, s)

/-- `transport_.read(spare)`, which returns no more than fits. -/
def transportRead (s : HttpClient) (spare : Nat) : ReadResult × HttpClient :=
  match s.env.reads with
  | [] => (.again, { s with wire := .read spare .again :: s.wire })
  | r :: rest =>
    let s := { s with env := { s.env with reads := rest } }
    match r with
    | .data bytes =>
      (.data (bytes.take spare),
        { s with input := s.input ++ bytes.take spare, wire := .read spare (.data (bytes.take spare)) :: s.wire })
    | _ => (r, { s with wire := .read spare r :: s.wire })

/-- `pool_.acquire(0)`; the null handle when the pool is empty. -/
def acquire (s : HttpClient) : IoBuffer × HttpClient :=
  match s.env.acquires with
  | [] => (.blank 0 s.cfg.cap 0, { s with pool := .acquired (some 0) :: s.pool })
  | none :: rest => ({}, { s with env := { s.env with acquires := rest }, pool := .acquired none :: s.pool })
  | some id :: rest =>
    (.blank id s.cfg.cap 0,
      { s with env := { s.env with acquires := rest }, pool := .acquired (some id) :: s.pool })

/-- `TscClock::tscns()`. A time is an `int64_t`; here it has no bound, so that the deadlines computed from it are those of
the source as long as the clock and the longest timeout together stay below `2 ^ 63`. -/
def now (s : HttpClient) : Int × HttpClient :=
  (s.env.clocks.headD 0, { s with env := { s.env with clocks := s.env.clocks.tail } })

def wantsWrite (s : HttpClient) : Bool := s.state = .sending || s.state = .connecting

/-- `registered_ = loop_.add(*this)`. -/
def loopAdd (s : HttpClient) : HttpClient :=
  if s.cfg.busyPoll then { s.note (.added true) with registered := true }
  else
    match s.fd, s.env.adds with
    | none, _ => { s.note (.added false) with registered := false }
    | some _, false :: rest =>
      { s.note (.added false) with registered := false, env := { s.env with adds := rest } }
    | some fd, other =>
      { s.note (.added true) with
        registered := true
        env := { s.env with adds := other.tail }
        interest := s.interest.add fd s.wantsWrite }

/-- `loop_.notify_write_interest(*this, wants)`. -/
def notifyWriteInterest (s : HttpClient) (wants : Bool) : HttpClient :=
  { s with interest := if s.cfg.busyPoll then s.interest else s.interest.modify s.fd wants }

/-! The client. -/

def releaseBuffers (s : HttpClient) : HttpClient :=
  { s with send := s.send.release, recv := s.recv.release, pool := s.recv.released ++ s.send.released ++ s.pool }

/-- `fail` before the callback. -/
def shutDown (s : HttpClient) : HttpClient :=
  { s.transportClose with state := .failed, writeArmed := false, notices := .error :: s.notices }

def fail (cb : Callbacks) (s : HttpClient) : HttpClient := cb.onError s.shutDown

/-- The two buffers of `start_connect`; false when the pool has too few. -/
def takeBuffers (s : HttpClient) : Bool × HttpClient :=
  let (send, s) := s.releaseBuffers.acquire
  let (recv, s) := { s with send := send }.acquire
  (send.base.isSome && recv.base.isSome, { s with recv := recv })

def armConnect (s : HttpClient) : HttpClient :=
  if 0 < s.cfg.connectTimeoutNs then
    let (t, s) := s.now
    { s with connectDeadlineNs := t + s.cfg.connectTimeoutNs }
  else { s with connectDeadlineNs := 0 }

/-- `start_connect` up to the state change; false when it fails. -/
def tryDial (s : HttpClient) : Bool × HttpClient :=
  match { s with notices := .dial s.state :: s.notices }.takeBuffers with
  | (false, s) => (false, s)
  | (true, s) => { s.armConnect with writeArmed := true }.transportConnect

def register (s : HttpClient) : HttpClient := if s.registered then s else s.loopAdd

def startConnect (cb : Callbacks) (s : HttpClient) : HttpClient :=
  match s.tryDial with
  | (false, s) => fail cb s
  | (true, s) => { s with state := .connecting }.register

def connect (cb : Callbacks) (s : HttpClient) : HttpClient :=
  if s.state = .idle ∨ s.state = .connecting then s else startConnect cb s

/-- The change of `write_armed_`, told to the poller. -/
def arm (s : HttpClient) (wants : Bool) : HttpClient :=
  if s.writeArmed = wants then s else { s.notifyWriteInterest wants with writeArmed := wants }

/-- How the loop of `flush_send` ends: the transport is full, it has failed, or all is sent. -/
inductive Sending where
  | blocked
  | broken
  | sent
  deriving DecidableEq, Repr

/-- The loop of `flush_send`. Every turn but the last takes an answer of the transport. -/
def flushLoop : Nat → HttpClient → Sending × HttpClient
  | 0, s => (.blocked, s)
  | fuel + 1, s =>
    if s.sendOff < s.send.len then
      match s.transportWrite (s.send.bytes.drop s.sendOff) with
      | (.again, s) => (.blocked, s.arm true)
      | (.error, s) => (.broken, s)
      | (.accepted n, s) => flushLoop fuel { s with sendOff := s.sendOff + n }
    else (.sent, { s with state := .receiving }.arm false)

/-- What `parse_http_response` makes of the receive buffer, which it may rewrite. -/
inductive Parsed where
  | waiting
  | lost
  | complete (r : HttpResponseView)
  deriving DecidableEq, Repr

def parse (s : HttpClient) : Parsed × HttpClient :=
  match parseHttpResponse (s.recv.bytes.length + 1) s.recv.bytes with
  | .ret r buf =>
    let s := { s with recv := s.recv.rewrite fun _ => buf }
    (if r.complete then .complete r else .waiting, s)
  | .fault | .spinning => (.lost, { s with lost := true })

/-- `compact_recv`, from which a `memmove` beyond the buffer does not return. -/
def compactRecv (s : HttpClient) : Option HttpClient :=
  if s.recv.len = 0 then some { s with recv := s.recv.reset 0 }
  else if s.recv.head = 0 then some s
  else if s.recv.len ≤ (s.recv.reset 0).tailroom then some { s with recv := s.recv.moveToFront }
  else none

/-- History: a response is handed to `on_response`. -/
def deliver (s : HttpClient) (r : HttpResponseView) : HttpClient :=
  { s with responses := s.responses ++ [(r.status, r.bodyBytes s.recv.bytes)], notices := .response :: s.notices }

/-- The consumed response is dropped, and the client is ready for the next request. -/
def rest (s : HttpClient) (consumed : Nat) : HttpClient :=
  let faults := tally s.faults (consumed ≤ s.recv.len)
  match { s with recv := s.recv.consume consumed, faults := faults }.compactRecv with
  | some s => { s with send := s.send.reset 0, sendOff := 0, state := .idle }
  -- the process ends in `memmove`
  | none => { s with faults := faults, lost := true }

/-- `try_complete` on a complete response. -/
def complete (cb : Callbacks) (s : HttpClient) (r : HttpResponseView) : HttpClient :=
  let s := cb.onResponse (s.deliver r)
  if s.state = .failed ∨ s.state = .disconnected then s
  else (s.note (.completed s.state)).rest r.consumed

/-- How a turn of the loop of `drive_recv` ends: the loop is left, the connection has failed, a response is
complete, or there is more to read. -/
inductive RecvTurn where
  | stop
  | broken
  | complete (r : HttpResponseView)
  | more
  deriving DecidableEq, Repr

def appendRecv (s : HttpClient) (bytes : List UInt8) : HttpClient :=
  { s with recv := s.recv.append bytes, faults := tally s.faults (bytes.length ≤ s.recv.tailroom) }

/-- `try_complete` up to the callback. -/
def recvParse (s : HttpClient) (eof : Bool) : RecvTurn × HttpClient :=
  match s.parse with
  | (.waiting, s) => (if eof then .broken else .more, s)
  | (.lost, s) => (.stop, s)
  | (.complete r, s) => (.complete r, s)

def recvTurn (s : HttpClient) : RecvTurn × HttpClient :=
  if s.recv.tailroom = 0 then (.broken, s)
  else
    match s.transportRead s.recv.tailroom with
    | (.again, s) => (.stop, s)
    | (.error, s) => (.broken, s)
    | (.data bytes, s) => if bytes = [] then s.recvParse true else (s.appendRecv bytes).recvParse false

/-- The loop of `drive_recv`. Every turn but the last takes an answer of the transport. -/
def recvLoop (cb : Callbacks) : Nat → HttpClient → HttpClient
  | 0, s => s
  | fuel + 1, s =>
    match s.recvTurn with
    | (.stop, s) => s
    | (.broken, s) => fail cb s
    | (.complete r, s) => complete cb s r
    | (.more, s) => recvLoop cb fuel s

def driveRecv (cb : Callbacks) (s : HttpClient) : HttpClient := recvLoop cb (s.env.reads.length + 1) s

def flushSend (cb : Callbacks) (s : HttpClient) : HttpClient :=
  match flushLoop (s.env.writes.length + 1) s with
  | (.blocked, s) => s
  | (.broken, s) => fail cb s
  | (.sent, s) => driveRecv cb s

def armRequest (s : HttpClient) : HttpClient :=
  if 0 < s.cfg.requestTimeoutNs then
    let (t, s) := s.now
    { s with requestDeadlineNs := t + s.cfg.requestTimeoutNs }
  else { s with requestDeadlineNs := 0 }

/-- `request` up to the flush, for a request that fits. -/
def submit (s : HttpClient) (text : List UInt8) : HttpClient :=
  { s.note (.requested s.recv.bytes) with
    send := s.send.append text
    faults := tally s.faults (text.length ≤ s.send.tailroom)
    sendOff := 0
    recv := s.recv.reset 0
    state := .sending
    requests := s.requests ++ [text]
    notices := .accepted :: s.notices }.armRequest

def request (cb : Callbacks) (s : HttpClient) (r : Request) : HttpSubmit × HttpClient :=
  if s.state ≠ .idle then (if s.state = .sending ∨ s.state = .receiving then .busy else .notReady, s)
  else
    match buildHttpRequest s.send.tailroom s.cfg.host r with
    | none => (.tooLarge, s)
    | some text => (.ok, flushSend cb (s.submit text))

def close (s : HttpClient) : HttpClient :=
  { s.transportClose.releaseBuffers with
    state := .disconnected, writeArmed := false, notices := .closed :: s.notices }

/-- The test of `check_timeouts`. -/
def deadlinePassed (s : HttpClient) : Bool × HttpClient :=
  if s.state = .connecting ∧ 0 < s.connectDeadlineNs then
    let (t, s) := s.now
    (s.connectDeadlineNs ≤ t, s)
  else if (s.state = .sending ∨ s.state = .receiving) ∧ 0 < s.requestDeadlineNs then
    let (t, s) := s.now
    (s.requestDeadlineNs ≤ t, s)
  else (false, s)

def checkTimeouts (cb : Callbacks) (s : HttpClient) : HttpClient :=
  match s.deadlinePassed with
  | (true, s) => fail cb s
  | (false, s) => s

def onReady (cb : Callbacks) (s : HttpClient) : HttpClient :=
  let s := checkTimeouts cb s
  match s.state with
  | .connecting =>
    match s.transportPollOpen with
    | (.connecting, s) => s
    | (.opened, s) => { s with state := .idle }.arm false
    | (.failed, s) => fail cb s
    | (.closed, s) => fail cb s
  | .sending => flushSend cb s
  | .receiving => driveRecv cb s
  | _ => s

/-- History: the user has called `request` and got Ok. -/
def asks (s : HttpClient) (r : Request) : HttpClient := { s with asked := s.asked ++ [r] }

def act (cb : Callbacks) (s : HttpClient) : Act → HttpClient
  | .connect => connect cb s
  | .request r => (request cb (if (request cb s r).1 = .ok then s.asks r else s) r).2
  | .close => close s

/-- A public call. -/
def api (cb : Callbacks) (s : HttpClient) : Api → HttpClient
  | .act a => act cb s a
  | .onReady => onReady cb s
  | .checkTimeouts => checkTimeouts cb s

/-- A callback: the next script. -/
def script (cb : Callbacks) (s : HttpClient) : HttpClient :=
  match s.env.scripts with
  | [] => s
  | acts :: rest => acts.foldl (act cb) { s with env := { s.env with scripts := rest } }

/-- Callbacks nested at most `depth` deep. -/
def callbacks : Nat → Callbacks
  | 0 => ⟨id, id⟩
  | depth + 1 => ⟨script (callbacks depth), script (callbacks depth)⟩

/-- An outermost public call, during which the outside world answers from `env`. -/
def call (depth : Nat) (s : HttpClient) (c : Api × Env) : HttpClient :=
  api (callbacks depth) { s with env := c.2 } c.1

def run (depth : Nat) (s : HttpClient) (calls : List (Api × Env)) : HttpClient := calls.foldl (call depth) s

end HttpClient

/-- A client before its first connect. -/
def freshClient (cfg : ClientConfig) : HttpClient := { cfg := cfg }

end Lepton.Http

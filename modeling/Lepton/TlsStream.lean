import Lepton.Stream

/-! `TlsStream`: OpenSSL between two memory BIOs, and the pumps that carry ciphertext between the BIOs
and the socket. Everything outside the class answers from an `Env`: the socket, the allocator and
OpenSSL itself. Each call of the outside world takes the next answer of its kind; past the last one
the socket has no room and no data, and OpenSSL wants to read. A call that returns needs finitely
many answers, so every behaviour of the outside world during a call is some `Env`. -/

namespace Lepton.Tls

/-- One TLS record and slack. -/
def kCipherChunk : Nat := 16384 + 64

inductive TlsPhase where
  | idle
  | connectingTcp
  | handshaking
  | established
  | closed
  | error
  deriving DecidableEq, Repr

inductive SslResult where
  | ok
  | wantRead
  | wantWrite
  | zeroReturn
  | error
  deriving DecidableEq, Repr

/-- What one call of OpenSSL does: its result, the plaintext moved by a successful `SSL_read` or
`SSL_write`, the ciphertext appended to the output BIO, the ciphertext taken from the input BIO, and
`SSL_pending` afterwards. -/
structure SslAnswer where
  result : SslResult
  plain : List UInt8 := []
  produced : List UInt8 := []
  consumed : Nat := 0
  pending : Nat := 0
  deriving DecidableEq, Repr

structure Env where
  connects : List Bool := []
  opens : List StreamPhase := []
  sends : List WriteResult := []
  recvs : List ReadResult := []
  allocs : List Bool := []
  ssl : List SslAnswer := []
  deriving DecidableEq, Repr

/-- What happened at the boundary of the class. -/
inductive Io where
  /-- A socket write, with `behind` bytes queued in the output BIO behind the chunk. -/
  | send (behind : Nat) (answer : WriteResult)
  | recv (answer : ReadResult)
  | sslNew
  /-- An OpenSSL operation, with what it leaves in the input BIO. -/
  | ssl (left : List UInt8) (answer : SslAnswer)
  /-- `SSL_free`, with `backlog` bytes in the output BIO it frees. -/
  | sslFree (backlog : Nat)
  /-- An OpenSSL operation on a null handle. -/
  | nullUse
  deriving DecidableEq, Repr

/-- History of the handles: the `SSL` objects are numbered in the order `SSL_new` makes them. -/
structure Heap where
  made : Nat := 0
  /-- The objects given to `SSL_free`, the latest first. -/
  freed : List Nat := []
  /-- How often a null handle was used. A loop that goes on with the same null handle counts once. -/
  nullUses : Nat := 0
  deriving DecidableEq, Repr

namespace Heap

/-- An operation on a handle. -/
def use (h : Heap) (present : Bool) : Heap := { h with nullUses := h.nullUses + if present then 0 else 1 }

def make (h : Heap) : Heap := { h with made := h.made + 1 }

def free (h : Heap) (object : Nat) : Heap := { h with freed := object :: h.freed }

end Heap

structure TlsStream where
  /-- `ctx_ != nullptr && ctx_->valid()`. -/
  ctx : Bool := true
  /-- `ssl_ != nullptr`. -/
  ssl : Bool := false
  /-- The object `ssl_` points to, when it is not null. -/
  handle : Nat := 0
  rbio : Option (List UInt8) := none
  wbio : Option (List UInt8) := none
  pending : Nat := 0
  phase : TlsPhase := .idle
  env : Env := {}
  /-- History: the ciphertext OpenSSL has produced. -/
  produced : List UInt8 := []
  /-- History: the ciphertext the socket has accepted. -/
  accepted : List UInt8 := []
  /-- History: the boundary events, the latest first. -/
  log : List Io := []
  /-- History: the handles, of this stream and all others. -/
  heap : Heap := {}
  deriving DecidableEq, Repr

namespace TlsStream

/-- The bytes in the output BIO. -/
def queued (s : TlsStream) : List UInt8 := s.wbio.getD []

/-- `BIO_ctrl_pending(rbio_)`. -/
def waiting (s : TlsStream) : Nat := (s.rbio.getD []).length

def note (s : TlsStream) (io : Io) : TlsStream := { s with log := io :: s.log }

/-- An operation on a handle that may be null. On a null BIO, `BIO_read` and `BIO_ctrl_pending` find
nothing. -/
def use (s : TlsStream) (present : Bool) : TlsStream := { s with heap := s.heap.use present }

/-- `SSL_do_handshake`, `SSL_read`, `SSL_write` or `SSL_shutdown`, followed by `SSL_get_error`. -/
def sslCall (s : TlsStream) : SslAnswer × TlsStream :=
  if s.ssl then
    match s.env.ssl with
    | [] =>
      let a : SslAnswer := { result := .wantRead, pending := s.pending }
      (a, s.note (.ssl (s.rbio.getD []) a))
    | a :: rest =>
      let rbio := s.rbio.map (·.drop a.consumed)
      (a, { s.note (.ssl (rbio.getD []) a) with
            env := { s.env with ssl := rest }
            wbio := s.wbio.map (· ++ a.produced)
            rbio := rbio
            pending := a.pending
            produced := s.produced ++ if s.wbio.isSome then a.produced else [] })
  else ({ result := .error }, (s.note .nullUse).use false)

/-- `ssl_ = SSL_new(..)`, with a new object. -/
def sslNew (s : TlsStream) : TlsStream :=
  { s.note .sslNew with ssl := true, handle := s.heap.made, heap := s.heap.make }

/-- `SSL_free`, which frees the attached BIOs too, and the three pointers set to null. -/
def sslFree (s : TlsStream) : TlsStream :=
  if s.ssl then
    { s.note (.sslFree s.queued.length) with
      ssl := false, rbio := none, wbio := none, pending := 0, heap := s.heap.free s.handle }
  else s

/-- `fail`; the socket is closed with it. -/
def fail (s : TlsStream) : TlsStream := { s.sslFree with phase := .error }

def nextAlloc (s : TlsStream) : Bool × TlsStream :=
  match s.env.allocs with
  | [] => (true, s)
  | a :: rest => (a, { s with env := { s.env with allocs := rest } })

def beginHandshake (s : TlsStream) : TlsStream :=
  let (sslOk, s) := s.nextAlloc
  if sslOk = false then { s with ssl := false }.fail
  else
    let s := s.sslNew
    let (rbioOk, s) := s.nextAlloc
    let (wbioOk, s) := s.nextAlloc
    let s := { s with rbio := if rbioOk then some [] else none, wbio := if wbioOk then some [] else none }
    if rbioOk = false ∨ wbioOk = false then s.fail else { s with phase := .handshaking }

theorem nextAlloc_eq (s : TlsStream) : ∃ ok env, s.nextAlloc = (ok, { s with env := env }) ∧
    (∀ a ∈ env.allocs, a ∈ s.env.allocs) ∧ (ok = false → false ∈ s.env.allocs) := by
  unfold nextAlloc
  split
  · exact ⟨true, s.env, rfl, fun _ h => h, nofun⟩
  · next a rest hallocs =>
    refine ⟨a, _, rfl, fun b hb => ?_, ?_⟩
    · rw [hallocs]
      exact List.mem_cons_of_mem a hb
    · rintro rfl
      rw [hallocs]
      exact List.mem_cons_self

/-- The stream fails after a failed allocation, or it has all of its handles. -/
theorem beginHandshake_cases (s : TlsStream) :
    ∃ env, (s.beginHandshake = fail { s with env := env, ssl := false } ∧ false ∈ s.env.allocs) ∨
      (∃ rbio wbio, s.beginHandshake = fail { s.sslNew with env := env, rbio := rbio, wbio := wbio } ∧
        false ∈ s.env.allocs) ∨
      s.beginHandshake = { s.sslNew with env := env, rbio := some [], wbio := some [], phase := .handshaking } := by
  unfold beginHandshake
  obtain ⟨sslOk, env, h, hsub, hssl⟩ := s.nextAlloc_eq
  rw [h]
  dsimp only
  split
  · next hfalse => exact ⟨env, Or.inl ⟨rfl, hssl hfalse⟩⟩
  · obtain ⟨rbioOk, env', h', hsub', hrbio⟩ := nextAlloc_eq (sslNew { s with env := env })
    rw [h']
    dsimp only
    obtain ⟨wbioOk, env'', h'', -, hwbio⟩ := nextAlloc_eq { sslNew { s with env := env } with env := env' }
    rw [h'']
    dsimp only
    refine ⟨env'', Or.inr ?_⟩
    split
    · next hfailed =>
      refine Or.inl ⟨_, _, rfl, hsub _ ?_⟩
      exact hfailed.elim hrbio fun h => hsub' _ (hwbio h)
    · next hok =>
      rw [not_or, Bool.not_eq_false, Bool.not_eq_false] at hok
      rw [hok.1, hok.2]
      exact Or.inr rfl

/-- The sending loops of `pump_out`, with `buf` the unsent rest of the chunk in hand. -/
def pumpOutLoop : List WriteResult → List UInt8 → TlsStream → Bool × TlsStream
  | [], buf, s =>
    (true, { s.note (.send s.queued.length .again) with wbio := s.wbio.map (· ++ buf) })
  | .again :: rest, buf, s =>
    (true, { s.note (.send s.queued.length .again) with
             env := { s.env with sends := rest }, wbio := s.wbio.map (· ++ buf) })
  | .error :: rest, _, s =>
    (false, { s.note (.send s.queued.length .error) with env := { s.env with sends := rest } })
  | .accepted n :: rest, buf, s =>
    let s := { s.note (.send s.queued.length (.accepted n)) with
               env := { s.env with sends := rest }, accepted := s.accepted ++ buf.take n }
    if buf.drop n ≠ [] then pumpOutLoop rest (buf.drop n) s
    else if s.queued = [] then (true, s)
    else
      pumpOutLoop rest (s.queued.take kCipherChunk) { s with wbio := s.wbio.map (·.drop kCipherChunk) }

def pumpOut (s : TlsStream) : Bool × TlsStream :=
  if s.queued = [] then (true, s.use s.wbio.isSome)
  else
    pumpOutLoop s.env.sends (s.queued.take kCipherChunk) { s with wbio := s.wbio.map (·.drop kCipherChunk) }

/-- The reading loop of `pump_in`: success, whether anything was read, and the stream. -/
def pumpInLoop : List ReadResult → Bool → TlsStream → Bool × Bool × TlsStream
  | [], readAny, s => if 65536 ≤ s.waiting then (true, readAny, s) else (true, readAny, s.note (.recv .again))
  | a :: rest, readAny, s =>
    if 65536 ≤ s.waiting then (true, readAny, s)
    else
      let s := { s.note (.recv a) with env := { s.env with recvs := rest } }
      match a with
      | .again => (true, readAny, s)
      | .error => (false, readAny, s)
      | .data bytes =>
        if bytes = [] then (true, readAny, s)
        else pumpInLoop rest true { s with rbio := s.rbio.map (· ++ bytes.take kCipherChunk) }

def pumpIn (s : TlsStream) : Bool × Bool × TlsStream := pumpInLoop s.env.recvs false (s.use s.rbio.isSome)

def pump (s : TlsStream) : Bool × TlsStream :=
  let (ok, s) := s.pumpOut
  if ok then
    let (ok, _, s) := s.pumpIn
    (ok, s)
  else (false, s)

/-- The handshake loop. Every turn but the last takes an answer of OpenSSL or of the socket, so their
number bounds the turns. -/
def handshakeLoop : Nat → TlsStream → StreamPhase × TlsStream
  | 0, s => (.connecting, s)
  | fuel + 1, s =>
    let (a, s) := s.sslCall
    match a.result with
    | .ok =>
      let (ok, s) := s.pump
      if ok then (.opened, { s with phase := .established }) else (.failed, s)
    | .wantRead =>
      let (inOk, readAny, s) := s.pumpIn
      if inOk = false then (.failed, s)
      else
        let (outOk, s) := s.pumpOut
        if outOk = false then (.failed, s)
        else if readAny then handshakeLoop fuel s
        else (.connecting, s)
    | .wantWrite =>
      let (outOk, s) := s.pumpOut
      if outOk = false then (.failed, s) else handshakeLoop fuel s
    | _ => (.failed, s.fail)

def handshake (s : TlsStream) : StreamPhase × TlsStream :=
  handshakeLoop (s.env.ssl.length + s.env.recvs.length + 1) s

def connect (s : TlsStream) : Bool × TlsStream :=
  if s.ctx then
    match s.env.connects with
    | false :: rest => (false, { s with env := { s.env with connects := rest }, phase := .error })
    | other => (true, { s with env := { s.env with connects := other.tail }, phase := .connectingTcp })
  else (false, { s with phase := .error })

def pollOpen (s : TlsStream) : StreamPhase × TlsStream :=
  match s.phase with
  | .connectingTcp =>
    let (tp, rest) : StreamPhase × List StreamPhase :=
      match s.env.opens with
      | [] => (.connecting, [])
      | a :: rest => (a, rest)
    let s := { s with env := { s.env with opens := rest } }
    match tp with
    | .connecting => (.connecting, s)
    | .opened => s.beginHandshake.handshake
    | _ => (.failed, s.fail)
  | .handshaking => s.handshake
  | .established => (.opened, s)
  | .closed => (.closed, s)
  | _ => (.failed, s)

/-- The pump of `read`: the socket is read only when OpenSSL has nothing left. -/
def readPump (s : TlsStream) : Bool × TlsStream :=
  let s := s.use s.ssl
  if s.pending = 0 ∧ s.waiting = 0 then (s.use s.rbio.isSome).pump else s.pumpOut

/-- The last part of `read`, once OpenSSL has nothing to return. -/
def readAgain (s : TlsStream) : ReadResult × TlsStream :=
  let (ok, s) := s.readPump
  if ok = false then (.error, s.fail) else (.again, s)

def read (s : TlsStream) : ReadResult × TlsStream :=
  if s.phase ≠ .established then (.again, s)
  else
    let (ok, s) := s.readPump
    if ok = false then (.error, s.fail)
    else
      let (a, s) := s.sslCall
      match a.result with
      | .ok => (.data a.plain, s)
      | .wantRead =>
        if 0 < s.pending then
          let (a, s) := s.sslCall
          if a.result = .ok then (.data a.plain, s) else s.readAgain
        else s.readAgain
      | .wantWrite => s.readAgain
      | .zeroReturn => (.data [], s)
      | .error => (.error, s)

def write (s : TlsStream) (src : List UInt8) : WriteResult × TlsStream :=
  if s.phase ≠ .established then (.again, s)
  else if src = [] then (.accepted 0, s)
  else
    let (a, s) := s.sslCall
    match a.result with
    | .ok =>
      let (ok, s) := s.pump
      if ok = false then (.error, s.fail) else (.accepted a.plain.length, s)
    | .wantRead | .wantWrite =>
      let (ok, s) := s.pump
      if ok = false then (.error, s.fail) else (.again, s)
    | _ => (.error, s)

/-- `close`: a best-effort close_notify, then everything is freed. -/
def close (s : TlsStream) : TlsStream :=
  let s :=
    if s.ssl then
      let s := if s.phase = .established then s.sslCall.2.pump.2 else s
      s.sslFree
    else s
  { s with phase := .closed }

end TlsStream

inductive Call where
  | connect
  | pollOpen
  | read
  | write (src : List UInt8)
  | close
  deriving DecidableEq, Repr

/-- A public call during which the outside world answers from `env`. -/
def call (s : TlsStream) (c : Call) (env : Env) : TlsStream :=
  let s := { s with env := env }
  match c with
  | .connect => s.connect.2
  | .pollOpen => s.pollOpen.2
  | .read => s.read.2
  | .write src => (s.write src).2
  | .close => s.close

def run (s : TlsStream) (calls : List (Call × Env)) : TlsStream :=
  calls.foldl (fun s c => call s c.1 c.2) s

/-- A new stream whose connect has begun. -/
def dialing : TlsStream := { phase := .connectingTcp }

end Lepton.Tls

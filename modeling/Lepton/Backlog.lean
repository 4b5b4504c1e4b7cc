import Lepton.TlsFlush
import Lepton.WsEdge
import Lepton.WsLink
import Lepton.HttpFlow

/-! The clients over a TLS stream. Each client closes the transport as soon as a call of it fails, so whenever a public
call has returned, the output BIO of a stream underneath is empty unless the socket has refused its last write; then
it is not, whatever the client takes the return values of its writes for. -/

namespace Lepton

namespace Ws

/-- Failures of the transport stay attended to. -/
def Attends (s s' : WsSession) : Prop := Attended s.wire → Attended s'.wire

namespace WsSession

variable {s s' : WsSession} {cb : Callbacks}

theorem attends_same (h : s'.wire = s.wire) : Attends s s' := fun hs => h ▸ hs

theorem attends_call {c : StreamCall} (h : s'.wire = c :: s.wire) (hc : ¬ c.Failing) : Attends s s' := fun hs => h ▸ hs.cons hc

/-- A connection ends, at most one call of the transport after `s₀`. -/
theorem attends_down {s₀ : WsSession} (h : s.wire = s₀.wire ∨ ∃ c, s.wire = c :: s₀.wire) (next : WsState) :
    Attends s₀ ((s.shutDown next).enter next) := by
  intro hs
  obtain ⟨clocks, t, hdown⟩ := s.shutDown_eq next
  obtain ⟨log, henter, -⟩ := (s.shutDown next).enter_eq next
  rw [henter, hdown]
  change Attended (.close :: s.wire)
  rcases h with h | ⟨c, h⟩
  · rw [h]
    exact hs.cons nofun
  · rw [h]
    exact .closed c hs

theorem attends_enter (s : WsSession) (st : WsState) : Attends s (s.enter st) := by
  obtain ⟨log, h, -⟩ := s.enter_eq st
  rw [h]
  exact attends_same rfl

/-- A turn of the flush makes at most one call, which fails only in a fatal turn. -/
theorem flushTurn_wire {turn : FlushTurn} (h : s.flushTurn = (turn, s')) :
    s'.wire = s.wire ∨ ∃ r, s'.wire = .write s.unsentFront r :: s.wire ∧ (r = .error → turn = .fatal) := by
  rcases flushTurn_cases h with ⟨-, -, rfl⟩ | ⟨-, r, writes, h⟩
  · exact Or.inl rfl
  · right
    rcases h with ⟨rfl, -, rfl⟩ | ⟨rfl, rfl, rfl⟩ | ⟨n, rfl, -, -, rfl⟩ | ⟨n, rfl, -, -, rfl⟩
    · exact ⟨.again, rfl, nofun⟩
    · exact ⟨.error, rfl, fun _ => rfl⟩
    · exact ⟨.accepted n, rfl, nofun⟩
    · exact ⟨.accepted n, rfl, nofun⟩

theorem attends_flushTurn_down {turn : FlushTurn} (h : s.flushTurn = (turn, s')) (next : WsState) :
    Attends s ((s'.shutDown next).enter next) := by
  refine attends_down ?_ next
  rcases flushTurn_wire h with h | ⟨r, h, -⟩
  · exact Or.inl h
  · exact Or.inr ⟨_, h⟩

theorem attends_queueFrame (s : WsSession) (opcode : WsOpcode) (payload : List UInt8) (fin : Bool) :
    Attends s (s.queueFrame opcode payload fin).2 := by
  obtain ⟨status, s', hqueue⟩ : ∃ status s', s.queueFrame opcode payload fin = (status, s') := ⟨_, _, rfl⟩
  rw [hqueue]
  obtain ⟨acquires, gen, faults, ⟨-, rfl⟩ | ⟨-, id, key, ring, -, -, rfl⟩⟩ := queueFrame_cases hqueue
  · exact attends_same rfl
  · exact attends_same rfl

theorem blocks_attends : Blocks Attends where
  refl _ := id
  trans h h' := fun hs => h' (h hs)
  down _ _ _ := attends_down (Or.inl rfl) _
  flushTurn {_ _ turn} h hturn := by
    rcases flushTurn_wire h with h | ⟨r, h, hfatal⟩
    · exact attends_same h
    · refine attends_call h fun hr => ?_
      rw [hfatal hr] at hturn
      exact hturn.elim nofun nofun
  flushFatal h := attends_flushTurn_down h _
  flushFinished h := attends_flushTurn_down h _
  queueSend := keeps_queueSend (fun h h' hs => h' (h hs)) (fun s _ _ => attends_same rfl)
    fun s opcode payload fin _ _ => s.attends_queueFrame opcode payload fin
  deadlinePassed s := attends_same s.silent_deadlinePassed.wire

theorem takes_attends : Takes Attends :=
  Takes.of_silent blocks_attends (fun h => attends_same h.wire) attends_queueFrame

theorem dials_attends : Dials Attends where
  starved {s s'} h := by
    obtain ⟨acquires, recv, hs⟩ := tryDial_starved h
    have hwire : s'.wire = s.wire := by rw [hs]
    exact fun hatt => s'.attends_enter .failed (attends_same hwire hatt)
  refused {s s'} h := by
    obtain ⟨env, recv, deadline, -, hs⟩ := tryDial_refused h
    exact attends_down (Or.inr ⟨.connect false, by rw [hs]⟩) _
  dialed {s s'} h := by
    obtain ⟨env, deadline, fd, -, hs⟩ := tryDial_dialed h
    have hwire : s'.wire = .connect true :: s.wire := by rw [hs]
    exact fun hatt => s'.attends_enter .connecting (attends_call hwire nofun hatt)
  register := keeps_register (fun _ => id) fun _ _ _ _ => attends_same rfl

theorem attends_act (hcb : Keeping Attends cb) (s : WsSession) (a : Act) : Attends s (act cb s a) := by
  cases a with
  | connect => exact keeps_startConnect blocks_attends dials_attends hcb s
  | send payload binary => exact keeps_send blocks_attends.toFlushes hcb s payload binary
  | close code =>
    apply keeps_close blocks_attends hcb s code (attends_same rfl)
    intro _ hs
    have hsend : Attends s (sendClose cb s code) :=
      keeps_sendClose blocks_attends.toFlushes hcb (attends_same rfl) (attends_queueFrame _ .close _ true)
        fun _ _ _ _ _ => attends_same rfl
    exact attends_enter _ .closing (hsend hs)

theorem attends_callbacks (depth : Nat) : Keeping Attends (callbacks depth) :=
  keeping_callbacks (fun _ => id) (fun h h' hs => h' (h hs)) (fun _ _ => attends_same rfl) (fun _ hcb => attends_act hcb) depth

theorem attends_parseFrames (hcb : Keeping Attends cb) (hbasic : Keeping Basic cb) (s : WsSession)
    (hs : s.state ≠ .upgrading) : Attends s (parseFrames cb s) :=
  takes_attends.parseFrames blocks_attends.above (fun h => attends_same h.wire) hcb hbasic s hs

/-- The upgrade response: a read that fails rejects it. -/
theorem attends_readResponse {v : Verdict} (h : s.readResponse = (v, s')) (hv : v ≠ .reject) : Attends s s' := by
  rcases (readResponse_calls h).2 with hreject | ⟨-, hwire⟩ | ⟨bytes, hwire, -⟩
  · exact absurd hreject hv
  · exact attends_call hwire nofun
  · exact attends_call hwire nofun

theorem attends_request {s'' : WsSession} {ok : Bool} (hset : Attends (s.enter .upgrading) s')
    (h : s'.queueRequest = (ok, s'')) : Attends s s'' := by
  obtain ⟨acquires, faults, pending, interest, request, marks, rfl, -⟩ := queueRequest_snd h
  exact fun hs => attends_same rfl (hset (s.attends_enter .upgrading hs))

theorem polls_attends : Polls Attends Attends where
  le := id
  trans h h' := fun hs => h' (h hs)
  toConnects := dials_attends.lift blocks_attends.above
  reconnectDue s _ := attends_same s.silent_reconnectDue.wire
  polled {s s' ph} h hph := by
    obtain ⟨opens, heq⟩ := s.transportPollOpen_snd
    rw [h] at heq
    change s' = _ at heq
    refine attends_call (by rw [heq]) fun hfail => ?_
    rcases hph with rfl | rfl
    · exact hfail.elim nofun nofun
    · exact hfail.elim nofun nofun
  unopened {s s' ph} h _ := by
    obtain ⟨opens, heq⟩ := s.transportPollOpen_snd
    rw [h] at heq
    change s' = _ at heq
    exact attends_down (Or.inr ⟨.pollOpen ph, by rw [heq]⟩) _
  request _ hset h := attends_request hset h
  refuse _ hset h := fun hs => attends_down (Or.inl rfl) _ (attends_request hset h hs)
  wait _ h := attends_readResponse h nofun
  reject {s s'} _ h := by
    obtain ⟨reads, input, recv, wire, faults, log, rfl, hwire, -⟩ := readResponse_snd h
    exact attends_down (hwire.imp id fun ⟨r, hr⟩ => ⟨_, hr⟩) _
  opens := blocks_attends.above.opens
    (fun {_ s'} _ h => fun hs => s'.attends_enter .opened (attends_readResponse h nofun hs))
    fun s => attends_same s.silent_armPing.wire
  parse hcb hbasic s hs := attends_parseFrames hcb hbasic s (WsState.Up.not_upgrading hs)
  resume {cb} hcb hbasic s hne _ hs := by
    generalize (setState cb s .opened).armPing = s at hs hne ⊢
    exact attends_parseFrames hcb hbasic (s.note (.resumed s.state)) hne hs
  keepalive hcb _ _ _ := keeps_checkKeepalive takes_attends hcb _
  reads {s} _ := by
    have hdown {s' : WsSession} {r : Reading} (h : s.readFrames = (r, s')) (next : WsState) :
        Attends s ((s'.shutDown next).enter next) := by
      obtain ⟨reads, input, recv, wire, faults, heq, hwire⟩ := s.readFrames_snd
      rw [h] at heq
      change s' = _ at heq
      rw [heq]
      exact attends_down (hwire.imp id fun ⟨r, hr⟩ => ⟨_, hr⟩) next
    refine ⟨fun {s' r} h hr => ?_, fun h => hdown h _, fun h => hdown h _⟩
    obtain ⟨-, hwait, hgot⟩ := readFrames_calls h
    rcases hr with rfl | rfl
    · exact attends_call (hwait rfl) nofun
    · obtain ⟨bytes, hwire, -⟩ := hgot rfl
      exact attends_call hwire nofun

theorem attended_run (cfg : Config) (seed : UInt64) (autoReconnect : Bool) (depth : Nat) (calls : List (Api × Env)) :
    Attended (run depth (fresh cfg seed autoReconnect) calls).wire :=
  keeps_polling blocks_attends polls_attends (attends_callbacks depth) (basic_callbacks depth)
    (fun _ _ => attends_same rfl) (attends_act (attends_callbacks depth)) (fresh cfg seed autoReconnect) calls .nil

end WsSession

end Ws

namespace Http

/-- Failures of the transport stay attended to. -/
def Attends (s s' : HttpClient) : Prop := Attended s.wire → Attended s'.wire

namespace HttpClient

variable {s s' : HttpClient}

theorem attends_same (h : s'.wire = s.wire) : Attends s s' := fun hs => h ▸ hs

/-- A connection fails, at most one call of the transport after `s₀`. -/
theorem attends_shutDown {s₀ : HttpClient} (h : s.wire = s₀.wire ∨ ∃ c, s.wire = c :: s₀.wire) : Attends s₀ s.shutDown := by
  intro hs
  change Attended (.close :: s.wire)
  rcases h with h | ⟨c, h⟩
  · rw [h]
    exact hs.cons nofun
  · rw [h]
    exact .closed c hs

theorem dialed_wire {s₁ : HttpClient} (h : s.tryDial = (true, s₁)) :
    ({ s₁ with state := .connecting } : HttpClient).register.wire = .connect true :: s.wire := by
  obtain ⟨env, send, recv, deadline, fd, pool, heq⟩ := tryDial_true h
  rcases register_cases ({ s₁ with state := .connecting } : HttpClient) with ⟨-, hreg⟩ | ⟨ok, adds, interest, hreg, -⟩
  · rw [hreg, heq]
  · rw [hreg, heq]

theorem arm_wire (s : HttpClient) (wants : Bool) : (s.arm wants).wire = s.wire := by
  obtain ⟨interest, armed, h, -⟩ := s.arm_eq wants
  rw [h]

/-- The loop of `flush_send` ends with a write that fails, or without one. -/
theorem attends_flushLoop {n : Nat} {how : Sending} (h : flushLoop n s = (how, s')) (hs : Attended s.wire) :
    (how ≠ .broken → Attended s'.wire) ∧ (how = .broken → Attended s'.shutDown.wire) := by
  induction n generalizing s with
  | zero =>
    cases h
    exact ⟨fun _ => hs, fun h => by cases h⟩
  | succ n ih =>
    rw [flushLoop] at h
    split at h
    · split at h
      · next s₁ hwrite =>
        obtain ⟨writes, output, sends, rfl⟩ := transportWrite_eq hwrite
        cases h
        refine ⟨fun _ => ?_, fun h => by cases h⟩
        rw [arm_wire]
        exact hs.cons (fun h => by cases h)
      · next s₁ hwrite =>
        obtain ⟨writes, output, sends, rfl⟩ := transportWrite_eq hwrite
        cases h
        exact ⟨fun hne => absurd rfl hne, fun _ => attends_shutDown (Or.inr ⟨_, rfl⟩) hs⟩
      · next k s₁ hwrite =>
        obtain ⟨writes, output, sends, rfl⟩ := transportWrite_eq hwrite
        exact ih h (hs.cons (fun h => by cases h))
    · cases h
      refine ⟨fun _ => ?_, fun h => by cases h⟩
      rw [arm_wire]
      exact hs

theorem parse_wire (s : HttpClient) (eof : Bool) : (s.recvParse eof).2.wire = s.wire := by
  obtain ⟨recv, lost, h⟩ := s.parse_snd
  rw [recvParse_snd, h]

/-- A turn of the receiving loop makes at most one call, which fails only in a turn that breaks the loop. -/
theorem recvTurn_wire {t : RecvTurn} (h : s.recvTurn = (t, s')) :
    s'.wire = s.wire ∨ ∃ r, s'.wire = .read s.recv.tailroom r :: s.wire ∧ (r = .error → t = .broken) := by
  unfold recvTurn at h
  split at h
  · cases h
    exact Or.inl rfl
  · right
    obtain ⟨reads, ⟨bytes, -, hread⟩ | ⟨r, hr, hread⟩⟩ := s.transportRead_cases s.recv.tailroom
    · rw [hread] at h
      dsimp only at h
      refine ⟨.data bytes, ?_, nofun⟩
      split at h
      · have hwire := parse_wire { s with env := { s.env with reads := reads }, input := s.input ++ bytes,
                                          wire := .read s.recv.tailroom (.data bytes) :: s.wire } true
        rw [h] at hwire
        exact hwire
      · have hwire := parse_wire (({ s with env := { s.env with reads := reads }, input := s.input ++ bytes,
                                            wire := .read s.recv.tailroom (.data bytes) :: s.wire } : HttpClient).appendRecv bytes) false
        rw [h] at hwire
        exact hwire
    · rw [hread] at h
      rcases hr with rfl | rfl
      · cases h
        exact ⟨.again, rfl, nofun⟩
      · cases h
        exact ⟨.error, rfl, fun _ => rfl⟩

theorem attends_recvTurn {t : RecvTurn} (h : s.recvTurn = (t, s')) (ht : t ≠ .broken) : Attends s s' := by
  rcases recvTurn_wire h with hwire | ⟨r, hwire, hbroken⟩
  · exact attends_same hwire
  · intro hs
    rw [hwire]
    exact hs.cons fun hr => ht (hbroken hr)

theorem steps_attends : Steps Attends Attends where
  refl _ := id
  trans h h' := fun hs => h' (h hs)
  expired h h' := by
    obtain ⟨⟨clocks, rfl⟩, -⟩ := deadlinePassed_eq h
    exact fun hs => h' (attends_shutDown (Or.inl rfl) hs)
  unexpired h := by
    obtain ⟨⟨clocks, rfl⟩, -⟩ := deadlinePassed_eq h
    exact attends_same rfl
  refused h h' := by
    obtain ⟨env, send, recv, deadline, armed, fd, linked, wire, interest, pool, heq, -, hwire⟩ := tryDial_false h
    refine fun hs => h' (attends_shutDown ?_ hs)
    rw [heq]
    exact hwire.imp id fun hrefused => ⟨_, hrefused⟩
  dialed h hs := by
    rw [dialed_wire h]
    exact hs.cons nofun
  submit {s r text} _ _ := by
    obtain ⟨clocks, t, heq⟩ := (s.asks r).submit_eq text
    rw [heq]
    exact attends_same rfl
  blocked _ h := fun hs => (attends_flushLoop h hs).1 nofun
  sent _ h := fun hs => (attends_flushLoop h hs).1 nofun
  unsent _ h h' := fun hs => h' ((attends_flushLoop h hs).2 rfl)
  stop _ h := attends_recvTurn h nofun
  more _ h := attends_recvTurn h nofun
  broken _ h h' := by
    refine fun hs => h' (attends_shutDown ?_ hs)
    exact (recvTurn_wire h).imp id fun ⟨r, hwire, _⟩ => ⟨_, hwire⟩
  answered {s s₁ _ _} _ h h' _ := by
    have hturn : Attends s s₁ := attends_recvTurn h nofun
    exact fun hs => h' (hturn hs)
  rested {s s₁ s' r} _ h h' _ := by
    have hturn : Attends s s₁ := attends_recvTurn h nofun
    rcases (s'.note (.completed s'.state)).rest_cases r.consumed with ⟨recv, faults, heq, -⟩ | ⟨faults, heq⟩
    · rw [heq]
      exact fun hs => h' (hturn hs)
    · rw [heq]
      exact fun hs => h' (hturn hs)
  polled h := by
    obtain ⟨opens, heq⟩ := transportPollOpen_eq h
    intro hs
    rw [heq]
    exact hs.cons fun hfail => hfail.elim nofun nofun
  unopened _ h _ h' := by
    obtain ⟨opens, heq⟩ := transportPollOpen_eq h
    exact fun hs => h' (attends_shutDown (Or.inr ⟨_, by rw [heq]⟩) hs)
  opened {s s'} _ h := by
    obtain ⟨opens, heq⟩ := transportPollOpen_eq h
    intro hs
    rw [arm_wire, heq]
    exact hs.cons fun hfail => hfail.elim nofun nofun
  close _ := fun hs => hs.cons nofun

theorem attended_run (cfg : ClientConfig) (depth : Nat) (calls : List (Api × Env)) :
    Attended (run depth (freshClient cfg) calls).wire :=
  keeps_run steps_attends (keeping_callbacks steps_attends (fun _ _ => attends_same rfl) depth)
    (fun _ _ => attends_same rfl) (freshClient cfg) calls .nil

end HttpClient

end Http

open Tls

/-- A client of either kind. -/
inductive Client where
  | ws (s : Ws.WsSession)
  | http (s : Http.HttpClient)

namespace Client

/-- The calls of the transport, the latest first. -/
def wire : Client → List StreamCall
  | ws s => s.wire
  | http s => s.wire

def Live : Client → Prop
  | ws s => s.state.Live
  | http s => s.state.Live

/-- Nothing is left to send, as far as the client knows. -/
def Disarmed : Client → Prop
  | ws s => s.pending.count = 0
  | http s => s.writeArmed = false

instance : DecidablePred Live
  | ws s => inferInstanceAs (Decidable s.state.Live)
  | http s => inferInstanceAs (Decidable s.state.Live)

instance : DecidablePred Disarmed
  | ws s => inferInstanceAs (Decidable (s.pending.count = 0))
  | http s => inferInstanceAs (Decidable (s.writeArmed = false))

/-- The client between two public calls of a run. -/
inductive Reached : Client → Prop where
  | ws (cfg : Ws.Config) (seed : UInt64) (autoReconnect : Bool) (depth : Nat) (calls : List (Ws.Api × Ws.Env)) :
      Reached (.ws (Ws.WsSession.run depth (Ws.fresh cfg seed autoReconnect) calls))
  | http (cfg : Http.ClientConfig) (depth : Nat) (calls : List (Http.Api × Http.Env)) :
      Reached (.http (Http.HttpClient.run depth (Http.freshClient cfg) calls))

/-- The client over a TLS stream: its calls of the transport, made on the stream, have had the answers that the
client has had. -/
structure Over (k : Client) (trace : List (StreamCall × Tls.Env)) (t : TlsStream) : Prop where
  reached : k.Reached
  calls : k.wire = trace.map Prod.fst
  replayed : replay trace = some t

theorem Reached.attended {k : Client} (h : k.Reached) : Attended k.wire := by
  cases h with
  | ws cfg seed autoReconnect depth calls => exact Ws.WsSession.attended_run cfg seed autoReconnect depth calls
  | http cfg depth calls => exact Http.HttpClient.attended_run cfg depth calls

/-- **What is left to send.** If OpenSSL produces nothing in reads that return data, then between two public calls, and so
when the client is live and has no write interest, the output BIO under it is empty exactly if the socket has not refused
its last write on the connection. -/
theorem disarmed_flushed (k : Client) (trace : List (StreamCall × Tls.Env)) (t : TlsStream) (hover : k.Over trace t)
    (hquiet : ∀ c ∈ trace, QuietRead c) : t.queued = [] ↔ lastSend t.log ≠ some .again := by
  obtain ⟨-, hflushed⟩ := replay_flushed hover.replayed (hover.calls ▸ hover.reached.attended) hquiet
  exact ⟨fun hempty hlast => replay_owes hover.replayed hlast hempty, fun hlast => hflushed.resolve_right hlast⟩

/-- An upgrade request, written in full. -/
def requesting : Ws.WsSession :=
  Ws.WsSession.run 0 (Ws.fresh Ws.plainConfig 1 false)
    [(.act .connect, { connects := [some 7] }), (.onReady, { opens := [.opened], writes := [.accepted 115] })]

/-- A request, written in full. -/
def asking : Http.HttpClient :=
  Http.HttpClient.run 0 (Http.freshClient { cap := 256, cap_ge := Ws.plainCap_ge, cap_lt := Ws.plainCap_lt })
    [(.act .connect, { connects := [some 7] }), (.onReady, { opens := [.opened] }),
     (.act (.request {}), { writes := [.accepted 26] })]

/-- The record of `n` bytes: a header of five, the type and a tag of sixteen more. -/
def sealed (n : Nat) : List UInt8 := List.replicate (n + 22) 23

/-- OpenSSL under `requesting` and `asking`: the handshake is done at once, and the write becomes one record. -/
def beneath (n : Nat) (sends : List WriteResult) : List Tls.Env :=
  [{ ssl := [{ result := .ok, plain := List.replicate n 0, produced := sealed n }], sends := sends },
   { opens := [.opened], ssl := [{ result := .ok }] }, { ssl := [] }]

/-- A socket that takes the record in two parts. -/
theorem partial_flushed :
    ∃ t, (ws requesting).Over (requesting.wire.zip (beneath 115 [.accepted 100, .accepted 37])) t ∧
      (ws requesting).Live ∧ (ws requesting).Disarmed ∧ t.accepted = sealed 115 ∧ t.queued = [] := by
  have hrun : (ws requesting).Live ∧ (ws requesting).Disarmed ∧
      requesting.wire = (requesting.wire.zip (beneath 115 [.accepted 100, .accepted 37])).map Prod.fst ∧
      (∀ c ∈ requesting.wire.zip (beneath 115 [.accepted 100, .accepted 37]), QuietRead c) ∧
      (replay (requesting.wire.zip (beneath 115 [.accepted 100, .accepted 37]))).map (fun t => (t.accepted, lastSend t.log))
        = some (sealed 115, some (.accepted 37)) := by decide +kernel
  obtain ⟨hlive, hdisarmed, hcalls, hquiet, hreplay⟩ := hrun
  obtain ⟨t, ht, heq⟩ := Option.map_eq_some_iff.mp hreplay
  injection heq with haccepted hlast
  have hover : (ws requesting).Over _ t := ⟨.ws _ _ _ _ _, hcalls, ht⟩
  exact ⟨t, hover, hlive, hdisarmed, haccepted, (disarmed_flushed _ _ t hover hquiet).mpr (by rw [hlast]; nofun)⟩

/-- A socket that is full: either client takes its request for sent, and none of it is. -/
theorem refused_not_flushed :
    (∃ trace t, (ws requesting).Over trace t ∧ (∀ c ∈ trace, QuietRead c) ∧ (ws requesting).Live ∧
      (ws requesting).Disarmed ∧ t.accepted = [] ∧ t.queued = sealed 115) ∧
    ∃ trace t, (http asking).Over trace t ∧ (∀ c ∈ trace, QuietRead c) ∧ (http asking).Live ∧
      (http asking).Disarmed ∧ t.accepted = [] ∧ t.queued = sealed 26 := by
  have hws : (ws requesting).Live ∧ (ws requesting).Disarmed ∧
      requesting.wire = (requesting.wire.zip (beneath 115 [.again])).map Prod.fst ∧
      (∀ c ∈ requesting.wire.zip (beneath 115 [.again]), QuietRead c) ∧
      (replay (requesting.wire.zip (beneath 115 [.again]))).map (fun t => (t.accepted, t.queued))
        = some ([], sealed 115) := by decide +kernel
  have hhttp : (http asking).Live ∧ (http asking).Disarmed ∧
      asking.wire = (asking.wire.zip ({ sends := [.again] } :: beneath 26 [.again])).map Prod.fst ∧
      (∀ c ∈ asking.wire.zip ({ sends := [.again] } :: beneath 26 [.again]), QuietRead c) ∧
      (replay (asking.wire.zip ({ sends := [.again] } :: beneath 26 [.again]))).map (fun t => (t.accepted, t.queued))
        = some ([], sealed 26) := by decide +kernel
  obtain ⟨hlive, hdisarmed, hcalls, hquiet, hreplay⟩ := hws
  obtain ⟨hlive', hdisarmed', hcalls', hquiet', hreplay'⟩ := hhttp
  obtain ⟨t, ht, heq⟩ := Option.map_eq_some_iff.mp hreplay
  obtain ⟨t', ht', heq'⟩ := Option.map_eq_some_iff.mp hreplay'
  injection heq with haccepted hqueued
  injection heq' with haccepted' hqueued'
  exact ⟨⟨_, t, ⟨.ws _ _ _ _ _, hcalls, ht⟩, hquiet, hlive, hdisarmed, haccepted, hqueued⟩,
    ⟨_, t', ⟨.http _ _ _, hcalls', ht'⟩, hquiet', hlive', hdisarmed', haccepted', hqueued'⟩⟩

end Client

end Lepton

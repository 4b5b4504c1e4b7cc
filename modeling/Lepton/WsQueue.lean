import Lepton.WsLink

/-! When frames are queued. On a session that reaches its keepalive check, its parse loop and its upgrade
request in the states they are meant for, `enqueue_frame` is called in Open and Closing only, so the
ring is empty over a dead connection and the upgrade request is the first thing queued on a new one. -/

namespace Lepton.Ws

variable {s s' s'' : WsSession} {cb : Callbacks}

/-- A ping is due, and the bytes behind the response are parsed, on an upgraded connection, and the request is built
while upgrading. -/
def Ev.Timely : Ev → Prop
  | .pingDue st => st.Up
  | .resumed st => st.Up
  | .requested st _ => st = .upgrading
  | _ => True

instance : DecidablePred Ev.Timely
  | .pingDue st => inferInstanceAs (Decidable st.Up)
  | .resumed st => inferInstanceAs (Decidable st.Up)
  | .requested st _ => inferInstanceAs (Decidable (st = .upgrading))
  | .changed _ | .response _ | .dialed _ | .added _ | .written _ _ | .starved _ | .timedOut | .enqueued _ | .pongLate _
  | .closing _ _ _ _ => isTrue trivial

def Timely (s : WsSession) : Prop := ∀ e ∈ s.log, e.Timely

instance : DecidablePred Timely := fun s => inferInstanceAs (Decidable (∀ e ∈ s.log, e.Timely))

theorem Timely.of_suffix (h : Timely s') (hlog : s.log <:+ s'.log) : Timely s :=
  fun e he => h e (hlog.subset he)

/-- What is queued in a session on its way to the state `st`. -/
structure QueuedIn (st : WsState) (s : WsSession) : Prop where
  enqueued : ∀ st, .enqueued st ∈ s.log → st.Up
  dead : ¬ st.Live → s.pending.count = 0
  connecting : st = .connecting → s.pending.count = 0 ∧ s.frames = []
  upgrading : st = .upgrading → s.frames = []

/-- Frames are queued on an upgraded connection only: no other state has called `enqueue_frame`, a dead
session has an empty ring, and so has a connecting one, on which no frame is accepted until it is
upgraded. -/
def Queued (s : WsSession) : Prop := QueuedIn s.state s

/-- `s'` continues `s`, and a timely continuation keeps the queue in order. -/
structure Queues (s s' : WsSession) : Prop where
  log : s.log <:+ s'.log
  queued : Timely s' → Queued s → Queued s'

theorem Queues.refl (s : WsSession) : Queues s s := ⟨List.suffix_rfl, fun _ h => h⟩

theorem Queues.trans (h : Queues s s') (h' : Queues s' s'') : Queues s s'' :=
  ⟨h.log.trans h'.log, fun htimely hs => h'.queued htimely (h.queued (htimely.of_suffix h'.log) hs)⟩

/-- A step beside the queue. -/
theorem Queues.quiet {new : List Ev} (hlog : s'.log = new ++ s.log)
    (hnew : ∀ st, .enqueued st ∉ new) (hstate : s'.state = s.state) (hpending : s'.pending = s.pending)
    (hframes : s'.frames = s.frames) : Queues s s' := by
  refine ⟨⟨new, hlog.symm⟩, fun _ hs => ?_⟩
  unfold Queued
  rw [hstate]
  refine ⟨fun st hmem => ?_, ?_, ?_, ?_⟩
  · rw [hlog, List.mem_append] at hmem
    exact hs.enqueued st (hmem.resolve_left (hnew st))
  · rw [hpending]
    exact hs.dead
  · rw [hpending, hframes]
    exact hs.connecting
  · rw [hframes]
    exact hs.upgrading

theorem Queues.event {e : Ev} (hlog : s'.log = e :: s.log) (he : ∀ st, e ≠ .enqueued st)
    (hstate : s'.state = s.state) (hpending : s'.pending = s.pending) (hframes : s'.frames = s.frames) : Queues s s' :=
  Queues.quiet (hlog.trans List.singleton_append.symm) (fun st hmem => he st (List.mem_singleton.mp hmem).symm) hstate
    hpending hframes

theorem Queues.same (hlog : s'.log = s.log) (hstate : s'.state = s.state)
    (hpending : s'.pending = s.pending) (hframes : s'.frames = s.frames) : Queues s s' :=
  Queues.quiet (hlog.trans (List.nil_append _).symm) nofun hstate hpending hframes

theorem Queues.of_inward (h : WsSession.Inward s s') : Queues s s' := by
  obtain ⟨new, hlog, hnew⟩ := h.log
  exact Queues.quiet hlog (fun _ hmem => hnew _ hmem) h.state h.pending h.frames

namespace WsSession

theorem queued_enter {st : WsState} (h : QueuedIn st s) : Queued (s.enter st) := by
  obtain ⟨log, heq, hlog⟩ := s.enter_eq st
  rw [heq]
  refine ⟨fun st' hmem => ?_, h.dead, h.connecting, h.upgrading⟩
  rcases hlog with ⟨rfl, -⟩ | rfl
  · exact h.enqueued st' hmem
  · exact h.enqueued st' ((List.mem_cons.mp hmem).resolve_left nofun)

theorem queues_enter {s₀ : WsSession} {st : WsState} (hlog : s₀.log <:+ s.log)
    (h : Timely s → Queued s₀ → QueuedIn st s) : Queues s₀ (s.enter st) :=
  ⟨hlog.trans (s.enter_log st), fun htimely hs => queued_enter (h (htimely.of_suffix (s.enter_log st)) hs)⟩

theorem queues_down {s₀ : WsSession} (hlog : s₀.log <:+ s.log) {next : WsState} (hnext : ¬ next.Live)
    (h : Queued s₀ → ∀ st, .enqueued st ∈ s.log → st.Up) : Queues s₀ ((s.shutDown next).enter next) := by
  obtain ⟨clocks, t, heq⟩ := s.shutDown_eq next
  rw [heq]
  refine queues_enter hlog fun _ hs => ⟨h hs, fun _ => s.pending.count_drain, ?_, ?_⟩
  · exact fun hc => absurd (hc ▸ by decide : next.Live) hnext
  · exact fun hc => absurd (hc ▸ by decide : next.Live) hnext

theorem queues_flushTurn (s : WsSession) : Queues s s.flushTurn.2 := by
  rcases s.flushTurn_snd with ⟨interest, h, -⟩ | ⟨hcount, r, writes, pending, h⟩
  · rw [h]
    exact Queues.same rfl rfl rfl rfl
  · rw [h]
    -- the ring is not empty, so the session is neither dead nor connecting
    refine ⟨List.suffix_cons _ _, fun _ hs => ⟨fun st hmem => ?_, ?_, ?_, hs.upgrading⟩⟩
    · exact hs.enqueued st ((List.mem_cons.mp hmem).resolve_left nofun)
    · exact fun hdead => absurd (hs.dead hdead) hcount
    · exact fun hc => absurd (hs.connecting hc).1 hcount

theorem queues_queueFrame (s : WsSession) (opcode : WsOpcode) (payload : List UInt8) (fin : Bool) (hs : s.state.Up) :
    Queues s (s.queueFrame opcode payload fin).2 := by
  obtain ⟨_, _, _, _, _, _, h, -⟩ := s.queueFrame_snd opcode payload fin
  rw [h]
  refine ⟨List.suffix_cons _ _, fun _ hq => ⟨fun st hmem => ?_, ?_, ?_, ?_⟩⟩
  · rcases List.mem_cons.mp hmem with heq | hmem
    · exact (Ev.enqueued.inj heq) ▸ hs
    · exact hq.enqueued st hmem
  · exact fun hdead => absurd (hs.elim (fun h => h ▸ by decide) fun h => h ▸ by decide : s.state.Live) hdead
  · exact fun hc => absurd hs (by rw [show s.state = .connecting from hc]; decide)
  · exact fun hc => absurd hs (by rw [show s.state = .upgrading from hc]; decide)

theorem blocks_queues : Blocks Queues :=
  Blocks.of_turn Queues.refl Queues.trans (fun _ _ hnext => queues_down List.suffix_rfl hnext fun hs => hs.enqueued)
    queues_flushTurn (fun s opcode payload fin _ hs => queues_queueFrame s opcode payload fin (Or.inl hs))
    (fun _ _ _ => Queues.same rfl rfl rfl rfl) fun s => .of_inward s.silent_deadlinePassed.toInward

theorem dials_queues : Dials Queues where
  starved {s s'} h := by
    obtain ⟨acquires, recv, hs⟩ := tryDial_starved h
    rw [hs]
    refine queues_enter (List.suffix_cons _ _) fun _ hq => ⟨fun st hmem => ?_, fun _ => s.pending.count_drain, nofun, nofun⟩
    exact hq.enqueued st ((List.mem_cons.mp hmem).resolve_left nofun)
  refused {s s'} h := by
    obtain ⟨env, recv, deadline, -, hs⟩ := tryDial_refused h
    rw [hs]
    refine queues_down ?_ not_live_failed ?_
    · exact List.suffix_rfl
    · exact fun hq => hq.enqueued
  dialed {s s'} h := by
    obtain ⟨env, deadline, fd, -, hs⟩ := tryDial_dialed h
    rw [hs]
    refine queues_enter (List.suffix_cons _ _) fun _ hq => ⟨fun st hmem => ?_, ?_, ?_, nofun⟩
    · exact hq.enqueued st ((List.mem_cons.mp hmem).resolve_left nofun)
    · exact fun hdead => absurd (by decide) hdead
    · exact fun _ => ⟨s.pending.count_drain, rfl⟩
  register := keeps_register Queues.refl fun _ ok _ _ => Queues.event (e := .added ok) rfl nofun rfl rfl rfl

theorem queues_act (hcb : Keeping Queues cb) (s : WsSession) (a : Act) : Queues s (act cb s a) := by
  cases a with
  | connect => exact keeps_startConnect blocks_queues dials_queues hcb s
  | send payload binary => exact keeps_send blocks_queues.toFlushes hcb s payload binary
  | close code =>
    apply keeps_close blocks_queues hcb s code (Queues.same rfl rfl rfl rfl)
    intro hopen
    have hset : Queues s { s with autoReconnect := false, inClose := true } := Queues.same rfl rfl rfl rfl
    have henqueue := hset.trans (keeps_enqueueFrame blocks_queues.toFlushes hcb
      (queues_queueFrame _ .close [(code >>> 8).toUInt8, code.toUInt8] true (Or.inl hopen)))
    refine queues_enter (henqueue.log.trans (List.suffix_cons _ _)) fun htimely hq => ?_
    have hsent := henqueue.queued (fun e he => htimely e (List.mem_cons_of_mem _ he)) hq
    refine ⟨fun st hmem => ?_, fun hdead => absurd (by decide) hdead, nofun, nofun⟩
    exact hsent.enqueued st ((List.mem_cons.mp hmem).resolve_left nofun)

theorem queues_callbacks (depth : Nat) : Keeping Queues (callbacks depth) :=
  keeping_callbacks Queues.refl Queues.trans (fun _ _ => Queues.same rfl rfl rfl rfl) (fun _ hcb => queues_act hcb) depth

theorem queues_parseFrames (hcb : Keeping Queues cb) (hbasic : Keeping Basic cb) (s : WsSession)
    (hs : s.state.Up) : Queues s (parseFrames cb s) :=
  keeps_parseFrames (P := WsState.Up) (fun _ h => h.not_upgrading) (fun _ h => h)
    (Receives.of_silent blocks_queues fun h => .of_inward h.toInward) blocks_queues.above
    (fun s payload hs => queues_queueFrame s .pong payload true hs) (fun _ _ _ => Queues.same rfl rfl rfl rfl)
    (fun s _ => .of_inward s.silent_compactRecv.toInward) hcb hbasic s hs

/-- A step that starts with a log entry which a timely run cannot have is in order. -/
theorem queues_unless {s₁ : WsSession} {e : Ev} (hlog : s₁.log = e :: s.log) (hbasic : Basic s₁ s')
    (h : e.Timely → Queues s s') : Queues s s' := by
  by_cases he : e.Timely
  · exact h he
  · refine ⟨(List.suffix_cons e s.log).trans (hlog ▸ hbasic.log), fun htimely _ => absurd (htimely e ?_) he⟩
    exact hbasic.log.subset (hlog ▸ List.mem_cons_self)

theorem queues_checkKeepalive (hcb : Keeping Queues cb) (hbasic : Keeping Basic cb) (s : WsSession) :
    Queues s (checkKeepalive cb s) := by
  have hturn := Queues.of_inward s.silent_keepaliveTurn.toInward
  unfold checkKeepalive
  split
  · next h =>
    rw [h] at hturn
    exact hturn
  · next h =>
    rw [h] at hturn
    exact hturn.trans (keeps_teardown blocks_queues hcb _ not_live_failed)
  · next t s₁ h =>
    rw [h] at hturn
    obtain ⟨clocks, hs₁⟩ := keepaliveTurn_due h
    have hping : Basic s₁ ((enqueueFrame cb s₁ .ping [] true).2.pinged t) :=
      blocks_basic.trans (keeps_enqueueFrame blocks_basic.toFlushes hbasic (takes_basic.queueFrame ..)) (takes_basic.pinged ..)
    refine queues_unless (e := .pingDue s.state) (by rw [hs₁]) hping fun hup => ?_
    have hqueue := queues_queueFrame s₁ .ping [] true (by rw [hs₁]; exact hup)
    exact hturn.trans ((keeps_enqueueFrame blocks_queues.toFlushes hcb hqueue).trans (Queues.same rfl rfl rfl rfl))

theorem queues_request {ok : Bool} (hs : s.state = .connecting) (hset : Queues (s.enter .upgrading) s')
    (hrequest : s'.queueRequest = (ok, s'')) : Queues s s'' := by
  have hup : Queues s (s.enter .upgrading) := queues_enter List.suffix_rfl fun _ hq =>
    ⟨hq.enqueued, fun hdead => absurd (by decide) hdead, nofun, fun _ => (hq.connecting hs).2⟩
  refine hup.trans (hset.trans ?_)
  obtain ⟨acquires, faults, pending, interest, request, marks, rfl, -⟩ := queueRequest_snd hrequest
  refine ⟨List.suffix_cons _ _, fun htimely hq => ?_⟩
  have hstate : s'.state = .upgrading := htimely _ List.mem_cons_self
  refine ⟨fun st hmem => hq.enqueued st ((List.mem_cons.mp hmem).resolve_left nofun), ?_, ?_, hq.upgrading⟩
  · exact fun hdead => absurd (hstate ▸ by decide : s'.state.Live) hdead
  · exact fun hc => absurd (hstate.symm.trans hc) nofun

theorem drives_queues : Drives Queues Queues where
  toAbove := blocks_queues.above
  toConnects := dials_queues.connects blocks_queues.above
  reconnectDue s _ := .of_inward s.silent_reconnectDue.toInward
  pollOpen s := .of_inward s.inward_transportPollOpen
  request := queues_request
  refuse hs hset h := (queues_request hs hset h).trans (blocks_queues.down _ not_live_failed)
  wait _ h := .of_inward (inward_readResponse h)
  reject _ h := (Queues.of_inward (inward_readResponse h)).trans (blocks_queues.down _ not_live_failed)
  opens := blocks_queues.above.opens
    (fun _ h => (Queues.of_inward (inward_readResponse h)).trans (queues_enter List.suffix_rfl fun _ hq =>
      ⟨hq.enqueued, fun hdead => absurd (by decide) hdead, nofun, nofun⟩))
    fun s => .of_inward s.silent_armPing.toInward
  readFrames {s} _ := .of_inward s.inward_readFrames
  parse hcb hbasic := queues_parseFrames hcb hbasic
  resume {cb} hcb hbasic s hs _ := by
    generalize (setState cb s .opened).armPing = s at hs ⊢
    have hbase := basic_parseFrames hbasic (s.note (.resumed s.state)) hs
    refine queues_unless rfl hbase fun hup => ?_
    have hevent : Queues s (s.note (.resumed s.state)) := Queues.event rfl nofun rfl rfl rfl
    exact hevent.trans (queues_parseFrames hcb hbasic _ hup)
  keepalive hcb hbasic _ _ := queues_checkKeepalive hcb hbasic _

theorem queues_run (depth : Nat) (s : WsSession) (calls : List (Api × Env)) : Queues s (run depth s calls) :=
  keeps_run blocks_queues drives_queues (queues_callbacks depth) (fun _ _ => Queues.same rfl rfl rfl rfl)
    (queues_act (queues_callbacks depth)) s calls

end WsSession

/-- **Frames are queued on an upgraded connection only.** In every run whose pings are due, and whose bytes behind the
response are parsed, on an upgraded connection, and whose upgrade requests are built while upgrading, `enqueue_frame`
has been called in Open and Closing only, a dead session has an empty ring, and until it is upgraded a new connection has
accepted no frame, with an empty ring before its request. -/
theorem frames_queued_only_when_up (cfg : Config) (seed : UInt64) (autoReconnect : Bool) (depth : Nat)
    (calls : List (Api × Env)) (htimely : Timely (WsSession.run depth (fresh cfg seed autoReconnect) calls)) :
    Queued (WsSession.run depth (fresh cfg seed autoReconnect) calls) :=
  (WsSession.queues_run depth _ calls).queued htimely ⟨nofun, fun _ => rfl, nofun, nofun⟩

/-- A session that answers a ping, pings its peer and is closed. -/
theorem pingPong_queued :
    let cfg : Config := { plainConfig with pingIntervalNs := 5 }
    let calls := opening ++ [(.onReady, { reads := [.data [0x89, 0x00]], clocks := [9], writes := [.accepted 99] }),
      (.act (.close 1000), { writes := [.accepted 99] })]
    Queued (WsSession.run 2 (fresh cfg 1 false) calls) :=
  frames_queued_only_when_up _ 1 false 2 _ (by decide +kernel)

/-- The peer closes the connection while a ping is due: the ping is queued on the dead session, and stays
in its ring. -/
theorem pingAfterClose_not_queued :
    let cfg : Config := { plainConfig with pingIntervalNs := 5 }
    let s := WsSession.run 0 (fresh cfg 1 false) (opening ++ [(.onReady, { reads := [.data []], clocks := [9] })])
    s.state = .disconnected ∧ .enqueued .disconnected ∈ s.log ∧ s.pending.count = 1 ∧ ¬ Queued s := by
  intro cfg s
  have hrun : s.state = .disconnected ∧ .enqueued .disconnected ∈ s.log ∧ s.pending.count = 1 := by decide
  exact ⟨hrun.1, hrun.2.1, hrun.2.2, fun h => absurd (h.enqueued _ hrun.2.1) (by decide)⟩

end Lepton.Ws

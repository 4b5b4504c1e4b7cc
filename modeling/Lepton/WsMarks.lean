import Lepton.WsLink

/-! Invariants of the marks. Most steps of a session are quiet: they change neither the state nor the timers, and mark
calls of the pool only. An invariant that quiet steps keep is an invariant of whole runs if the few other steps keep
it, each under a condition on what the run has logged and marked. -/

namespace Lepton.Ws

variable {s s' s'' : WsSession}

namespace WsSession

/-- A step that keeps the state, the connection and the timers, and marks calls of the pool only. -/
structure Quiet (s s' : WsSession) : Prop where
  cfg : s'.cfg = s.cfg
  state : s'.state = s.state
  linked : s'.linked = s.linked
  autoReconnect : s'.autoReconnect = s.autoReconnect
  awaitingPong : s'.awaitingPong = s.awaitingPong
  pongDeadlineNs : s'.pongDeadlineNs = s.pongDeadlineNs
  nextPingAtNs : s'.nextPingAtNs = s.nextPingAtNs
  reconnectDelayNs : s'.reconnectDelayNs = s.reconnectDelayNs
  reconnectAtNs : s'.reconnectAtNs = s.reconnectAtNs
  log : s.log <:+ s'.log
  marks : Pooled s.marks s'.marks

theorem Quiet.refl (s : WsSession) : Quiet s s :=
  ⟨rfl, rfl, rfl, rfl, rfl, rfl, rfl, rfl, rfl, List.suffix_rfl, Pooled.refl _⟩

theorem quiet_flushTurn (s : WsSession) : Quiet s s.flushTurn.2 := by
  have hmarks := s.pooled_flushTurn
  rcases s.flushTurn_snd with ⟨interest, hs, -⟩ | ⟨-, r, writes, pending, hs⟩
  · rw [hs]
    exact { Quiet.refl s with }
  · rw [hs]
    exact { Quiet.refl s with log := List.suffix_cons _ _, marks := hmarks }

theorem quiet_queueFrame (s : WsSession) (opcode : WsOpcode) (payload : List UInt8) (fin : Bool) :
    Quiet s (s.queueFrame opcode payload fin).2 := by
  have hmarks := s.pooled_queueFrame opcode payload fin
  obtain ⟨acquires, gen, faults, pending, interest, frames, h, -⟩ := s.queueFrame_snd opcode payload fin
  rw [h]
  exact { Quiet.refl s with log := List.suffix_cons _ _, marks := hmarks }

theorem quiet_deadlinePassed (s : WsSession) : Quiet s s.deadlinePassed.2 := by
  obtain ⟨clocks, log, h, hlog⟩ := s.deadlinePassed_snd
  rw [h]
  refine { Quiet.refl s with log := ?_ }
  rcases hlog with rfl | rfl
  · exact List.suffix_rfl
  · exact List.suffix_cons _ _

theorem quiet_storeFragment (s : WsSession) (chunk : List UInt8) : Quiet s (s.storeFragment chunk).2 := by
  obtain ⟨frag, faults, h⟩ := s.storeFragment_snd chunk
  rw [h]
  exact { Quiet.refl s with }

theorem quiet_openFragment (s : WsSession) (op : WsOpcode) : Quiet s (s.openFragment op).2 := by
  have hmarks := s.pooled_openFragment op
  obtain ⟨acquires, frag, fragOpcode, h⟩ := s.openFragment_snd op
  rw [h]
  exact { Quiet.refl s with marks := hmarks }

theorem quiet_compactRecv (s : WsSession) : Quiet s s.compactRecv := by
  obtain ⟨recv, faults, h⟩ := s.compactRecv_eq
  rw [h]
  exact { Quiet.refl s with }

theorem quiet_register : ∀ s, Quiet s s.register :=
  keeps_register Quiet.refl fun s _ _ _ => { Quiet.refl s with log := List.suffix_cons _ _ }

theorem quiet_pollOpen (s : WsSession) : Quiet s s.transportPollOpen.2 := by
  obtain ⟨opens, h⟩ := s.transportPollOpen_snd
  rw [h]
  exact { Quiet.refl s with }

theorem quiet_queueRequest {ok : Bool} (h : s.queueRequest = (ok, s')) : Quiet s s' := by
  have hmarks := s.pooled_queueRequest
  rw [h] at hmarks
  obtain ⟨acquires, faults, pending, interest, request, marks, rfl, -⟩ := queueRequest_snd h
  exact { Quiet.refl s with log := List.suffix_cons _ _, marks := hmarks }

theorem quiet_readFrames (s : WsSession) : Quiet s s.readFrames.2 := by
  obtain ⟨reads, input, recv, wire, faults, h, -⟩ := s.readFrames_snd
  rw [h]
  exact { Quiet.refl s with }

theorem quiet_keepaliveTurn (h : s.keepaliveTurn = (.idle, s')) : Quiet s s' := by
  have hlog := s.frame_keepaliveTurn.suffix
  have hmarks : s'.marks = s.marks := by
    rcases marks_keepaliveTurn h with ⟨-, hmarks⟩ | ⟨t, hfound, -⟩ | ⟨t, answer, hfound, -⟩
    · exact hmarks
    · exact absurd hfound nofun
    · exact absurd hfound nofun
  obtain ⟨clocks, log, hs, -⟩ := s.keepaliveTurn_snd
  rw [h] at hlog hs
  change s' = _ at hs
  rw [hs] at hlog ⊢
  exact { Quiet.refl s with log := hlog, marks := hmarks ▸ Pooled.refl _ }

theorem quiet_readResponse {v : Verdict} (h : s.readResponse = (v, s')) (hv : v ≠ .accept) :
    Quiet s s' := by
  have hlog := (readResponse_fields h).1
  obtain ⟨reads, input, recv, wire, faults, log, heq, -, -⟩ := readResponse_snd h
  rw [if_neg hv, if_neg hv] at heq
  rw [heq] at hlog ⊢
  exact { Quiet.refl s with log := hlog }

/-- `s'` continues `s`, and under the condition `C` the invariant `I` survives. -/
structure Holds (C I : WsSession → Prop) (s s' : WsSession) : Prop where
  log : s.log <:+ s'.log
  marks : s.marks <:+ s'.marks
  inv : C s' → I s → I s'

/-- An invariant `I` of what the user's calls do, under a condition `C` on the past. -/
structure Calling (C I : WsSession → Prop) : Prop where
  past : ∀ {s s'}, s.log <:+ s'.log → s.marks <:+ s'.marks → C s' → C s
  quiet : ∀ {s s'}, Quiet s s' → I s → I s'
  down : ∀ s {next : WsState}, ¬ next.Live → C ((s.shutDown next).enter next) → I s → I ((s.shutDown next).enter next)
  starved : ∀ {s s'}, s.tryDial = (.starved, s') → C (s'.enter .failed) → I s → I (s'.enter .failed)
  refused : ∀ {s s'}, s.tryDial = (.refused, s') → C ((s'.shutDown .failed).enter .failed) → I s →
    I ((s'.shutDown .failed).enter .failed)
  dialed : ∀ {s s'}, s.tryDial = (.dialed, s') → C (s'.enter .connecting) → I s → I (s'.enter .connecting)
  auto : ∀ s, I s → I { s with autoReconnect := false }
  closing : ∀ {cb s code}, Keeping Basic cb → s.state = .opened → C (sendClose cb s code) → I s →
    I (sendClose cb s code) → I ((sendClose cb s code).enter .closing)

/-- What the user's code does to a session, as far as the invariants of its calls go. -/
def Undergoes (C : WsSession → Prop) (s s' : WsSession) : Prop := ∀ I, Calling C I → Holds C I s s'

namespace Calling

variable {C I : WsSession → Prop} {cb : Callbacks}

theorem refl (s : WsSession) : Holds C I s s := ⟨List.suffix_rfl, List.suffix_rfl, fun _ h => h⟩

theorem trans (hM : Calling C I) (h : Holds C I s s') (h' : Holds C I s' s'') :
    Holds C I s s'' :=
  ⟨h.log.trans h'.log, h.marks.trans h'.marks, fun hC hs => h'.inv hC (h.inv (hM.past h'.log h'.marks hC) hs)⟩

theorem still (hM : Calling C I) (h : Quiet s s') : Holds C I s s' :=
  ⟨h.log, h.marks.suffix, fun _ => hM.quiet h⟩

theorem enter (s : WsSession) (st : WsState) (h : C (s.enter st) → I s → I (s.enter st)) :
    Holds C I s (s.enter st) :=
  ⟨s.enter_log st, by rw [enter_marks], h⟩

theorem downs (hM : Calling C I) (s : WsSession) {next : WsState} (hnext : ¬ next.Live) :
    Holds C I s ((s.shutDown next).enter next) := by
  have hbase := basic_down s hnext List.suffix_rfl List.suffix_rfl List.suffix_rfl rfl
  exact ⟨hbase.log, hbase.marks, hM.down s hnext⟩

theorem blocks (hM : Calling C I) : Blocks (Holds C I) :=
  Blocks.of_turn refl hM.trans hM.downs (fun s => hM.still s.quiet_flushTurn)
    (fun s opcode payload fin _ _ => hM.still (s.quiet_queueFrame opcode payload fin))
    (fun s _ _ => hM.still { Quiet.refl s with }) fun s => hM.still s.quiet_deadlinePassed

theorem dials (hM : Calling C I) : Dials (Holds C I) where
  starved h :=
    have hbase := dials_basic.starved h
    ⟨hbase.log, hbase.marks, hM.starved h⟩
  refused h :=
    have hbase := dials_basic.refused h
    ⟨hbase.log, hbase.marks, hM.refused h⟩
  dialed h :=
    have hbase := dials_basic.dialed h
    ⟨hbase.log, hbase.marks, hM.dialed h⟩
  register s := hM.still s.quiet_register

theorem sendsClose (hM : Calling C I) (hcb : Keeping (Holds C I) cb) (s : WsSession) (code : UInt16) :
    Holds C I s (sendClose cb s code) := by
  have hauto : Holds C I s { s with autoReconnect := false } :=
    ⟨List.suffix_rfl, List.suffix_rfl, fun _ => hM.auto s⟩
  have hinside : Holds C I { s with autoReconnect := false } { s with autoReconnect := false, inClose := true } :=
    hM.still { Quiet.refl { s with autoReconnect := false } with }
  have hqueue := hM.still (quiet_queueFrame { s with autoReconnect := false, inClose := true } .close
    [(code >>> 8).toUInt8, code.toUInt8] true)
  exact keeps_sendClose hM.blocks.toFlushes hcb (hM.trans hauto hinside) hqueue
    fun s _ _ _ _ => hM.still { Quiet.refl s with log := List.suffix_cons _ _ }

theorem acts (hM : Calling C I) (hcb : Keeping (Holds C I) cb) (hbasic : Keeping Basic cb) (s : WsSession) (a : Act) :
    Holds C I s (act cb s a) := by
  cases a with
  | connect => exact keeps_startConnect hM.blocks hM.dials hcb s
  | send payload binary => exact keeps_send hM.blocks.toFlushes hcb s payload binary
  | close code =>
    apply keeps_close hM.blocks hcb s code ⟨List.suffix_rfl, List.suffix_rfl, fun _ => hM.auto s⟩
    intro hopen
    have hsend := hM.sendsClose hcb s code
    have hlog := (sendClose cb s code).enter_log .closing
    have hmarks : (sendClose cb s code).marks <:+ ((sendClose cb s code).enter .closing).marks := by rw [enter_marks]
    refine ⟨hsend.log.trans hlog, hsend.marks.trans hmarks, fun hC hs => ?_⟩
    have hC' : C (sendClose cb s code) := hM.past hlog hmarks hC
    exact hM.closing hbasic hopen hC' hs (hsend.inv hC' hs)

theorem callbacks (hM : Calling C I) (depth : Nat) : Keeping (Holds C I) (callbacks depth) :=
  keeping_callbacks refl hM.trans (fun s _ => hM.still { Quiet.refl s with }) (fun depth hcb => hM.acts hcb (basic_callbacks depth)) depth

theorem and {J : WsSession → Prop} (hM : Calling C I) (hJ : Calling C J) : Calling C fun s => I s ∧ J s where
  past := hM.past
  quiet h hs := ⟨hM.quiet h hs.1, hJ.quiet h hs.2⟩
  down s _ hnext hC hs := ⟨hM.down s hnext hC hs.1, hJ.down s hnext hC hs.2⟩
  starved h hC hs := ⟨hM.starved h hC hs.1, hJ.starved h hC hs.2⟩
  refused h hC hs := ⟨hM.refused h hC hs.1, hJ.refused h hC hs.2⟩
  dialed h hC hs := ⟨hM.dialed h hC hs.1, hJ.dialed h hC hs.2⟩
  auto s hs := ⟨hM.auto s hs.1, hJ.auto s hs.2⟩
  closing hbasic hopen hC hs hsent := ⟨hM.closing hbasic hopen hC hs.1 hsent.1, hJ.closing hbasic hopen hC hs.2 hsent.2⟩

/-- An invariant of the marks alone. -/
theorem of_marks {K : List Mark → Prop} (hpast : ∀ {s s'}, s.log <:+ s'.log → s.marks <:+ s'.marks → C s' → C s)
    (hpool : ∀ call l, K l → K (.pool call :: l)) (hdial : ∀ l, K l → K (.dial :: l))
    (hended : ∀ t l, K l → K (.ended t :: l)) : Calling C fun s => K s.marks := by
  have hpooled {old new : List Mark} (h : Pooled old new) (hold : K old) : K new := by
    obtain ⟨calls, rfl⟩ := h
    induction calls with
    | nil => exact hold
    | cons call calls ih => exact hpool call _ ih
  have hdown (s : WsSession) (next : WsState) (hs : K s.marks) : K ((s.shutDown next).enter next).marks := by
    rw [enter_marks]
    obtain ⟨marks, hmarks, ⟨h, -⟩ | ⟨t, h, -⟩⟩ := s.marks_shutDown next
    · rw [h]
      exact hpooled hmarks hs
    · rw [h]
      exact hended t _ (hpooled hmarks hs)
  have htry {s s' : WsSession} {how : Dialing} (h : s.tryDial = (how, s')) (hs : K s.marks) : K s'.marks := by
    have hmarks := s.marks_tryDial
    rw [h] at hmarks
    exact hpooled hmarks (hdial _ hs)
  have henter (s : WsSession) (st : WsState) (hs : K s.marks) : K (s.enter st).marks := by
    rw [enter_marks]
    exact hs
  exact {
    past := hpast
    quiet := fun h hs => hpooled h.marks hs
    down := fun s next _ _ hs => hdown s next hs
    starved := fun h _ hs => henter _ _ (htry h hs)
    refused := fun h _ hs => hdown _ _ (htry h hs)
    dialed := fun h _ hs => henter _ _ (htry h hs)
    auto := fun _ hs => hs
    closing := fun _ _ _ _ hsent => henter _ _ hsent }

/-- An invariant of upgraded connections: the user's calls end one, but they do not open one. -/
theorem of_up {K : WsSession → Prop} (hpast : ∀ {s s'}, s.log <:+ s'.log → s.marks <:+ s'.marks → C s' → C s)
    (hcalm : ∀ {s}, C s → .written true .error ∉ s.log) (hquiet : ∀ {s s'}, Quiet s s' → K s → K s')
    (hauto : ∀ s, K s → K { s with autoReconnect := false }) (henter : ∀ s st, K s → K (s.enter st)) :
    Calling C fun s => s.state.Up → K s := by
  have hdown (s : WsSession) {st : WsState} (hst : ¬ st.Up) (hup : (s.enter st).state.Up) : K (s.enter st) := by
    rw [enter_state] at hup
    exact absurd hup hst
  exact {
    past := hpast
    quiet := fun h hs hup => hquiet h (hs (h.state ▸ hup))
    down := fun _ _ hnext _ _ => hdown _ fun hup => hnext hup.live
    starved := fun _ _ _ => hdown _ (by decide)
    refused := fun _ _ _ => hdown _ (by decide)
    dialed := fun _ _ _ => hdown _ (by decide)
    auto := fun s hs hup => hauto s (hs hup)
    closing := fun hbasic hopen hC _ hsent _ =>
      henter _ _ (hsent (Or.inl (sendClose_kept hbasic hopen (hcalm hC)).1)) }

theorem of_cfg (cfg : Config) (hpast : ∀ {s s'}, s.log <:+ s'.log → s.marks <:+ s'.marks → C s' → C s) :
    Calling C fun s => s.cfg = cfg where
  past := hpast
  quiet h hs := h.cfg.trans hs
  down s _ hnext _ hs := (basic_down s hnext List.suffix_rfl List.suffix_rfl List.suffix_rfl rfl).cfg.trans hs
  starved h _ hs := (dials_basic.starved h).cfg.trans hs
  refused h _ hs := (dials_basic.refused h).cfg.trans hs
  dialed h _ hs := (dials_basic.dialed h).cfg.trans hs
  auto _ hs := hs
  closing {cb s code} _ _ _ _ hsent := by
    obtain ⟨log, h, -⟩ := (sendClose cb s code).enter_eq .closing
    rw [h]
    exact hsent

theorem keeping (hM : Calling C I) (hcb : Keeping (Undergoes C) cb) : Keeping (Holds C I) cb :=
  ⟨fun s => hcb.onState s I hM, fun s => hcb.onMessage s I hM⟩

end Calling

theorem undergoes_still {C : WsSession → Prop} (h : Quiet s s') : Undergoes C s s' :=
  fun _ hM => hM.still h

theorem blocks_undergoes (C : WsSession → Prop) : Blocks (Undergoes C) :=
  Blocks.of_turn (fun s _ _ => Calling.refl s) (fun h h' I hM => hM.trans (h I hM) (h' I hM))
    (fun s _ hnext _ hM => hM.downs s hnext) (fun s => undergoes_still s.quiet_flushTurn)
    (fun s opcode payload fin _ _ => undergoes_still (s.quiet_queueFrame opcode payload fin))
    (fun s _ _ => undergoes_still { Quiet.refl s with }) fun s => undergoes_still s.quiet_deadlinePassed

theorem undergoes_callbacks (C : WsSession → Prop) (depth : Nat) : Keeping (Undergoes C) (callbacks depth) :=
  ⟨fun s _ hM => (hM.callbacks depth).onState s, fun s _ hM => (hM.callbacks depth).onMessage s⟩

/-- An invariant of receiving too, for frames that are dispatched in the states `P`. -/
structure Marking (P : WsState → Prop) (C I : WsSession → Prop) : Prop extends Calling C I where
  settled : ∀ st, P st → st ≠ .upgrading
  up : ∀ st, st.Up → P st
  addMessage : ∀ s m, P s.state → I s → I (s.addMessage m)
  countFrame : ∀ s hdr payload, P s.state → I s → I (s.countFrame hdr payload)
  takePong : ∀ s, I s → I s.takePong
  consume : ∀ s n, I s → I (s.consumeRecv n)

namespace Marking

variable {P : WsState → Prop} {C I : WsSession → Prop} {cb : Callbacks}

theorem receives (hM : Marking P C I) : Receives P (Holds C I) where
  toBlocks := hM.blocks
  addMessage s m hs := ⟨List.suffix_rfl, List.suffix_cons _ _, fun _ => hM.addMessage s m hs⟩
  storeFragment s chunk _ := hM.still (s.quiet_storeFragment chunk)
  dropFragment s := hM.still { Quiet.refl s with marks := ⟨_, rfl⟩ }
  openFragment s op _ := hM.still (s.quiet_openFragment op)
  takePong s := ⟨List.suffix_rfl, List.suffix_cons _ _, fun _ => hM.takePong s⟩
  countHeader s := hM.still { Quiet.refl s with }
  countFrame s hdr payload hs := ⟨List.suffix_rfl, List.suffix_cons _ _, fun _ => hM.countFrame s hdr payload hs⟩
  exhausted s _ := hM.still { Quiet.refl s with }

theorem parseFrames (hM : Marking P C I) (hcb : Keeping (Holds C I) cb) (hbasic : Keeping Basic cb) (s : WsSession)
    (hs : P s.state) : Holds C I s (parseFrames cb s) :=
  keeps_parseFrames hM.settled hM.up hM.receives hM.blocks.above
    (fun s payload _ => hM.still (s.quiet_queueFrame .pong payload true))
    (fun s n _ => ⟨List.suffix_rfl, List.suffix_cons _ _, fun _ => hM.consume s n⟩)
    (fun s _ => hM.still s.quiet_compactRecv) hcb hbasic s hs

/-- A check of the keepalive, for an invariant that does not read the timer of the pong. -/
theorem checks (hM : Marking P C I) (hcb : Keeping (Undergoes C) cb) (hturn : ∀ s, I s → I s.keepaliveTurn.2)
    (hpinged : ∀ s t, I s → I (s.pinged t)) (s : WsSession) : Holds C I s (checkKeepalive cb s) := by
  have hframe := s.frame_keepaliveTurn
  exact keeps_keepalive hM.blocks (hM.keeping hcb) ⟨hframe.suffix, hframe.marks, fun _ => hturn s⟩
    (fun s _ => hM.still (s.quiet_queueFrame .ping [] true))
    fun s t => ⟨List.suffix_rfl, List.suffix_rfl, fun _ => hpinged s t⟩

end Marking

/-- The steps of `on_ready` for an invariant of the marks. -/
structure Timing (P : WsState → Prop) (C I : WsSession → Prop) : Prop extends Marking P C I where
  resumed : ∀ s : WsSession, s.state ≠ .upgrading → C (s.note (.resumed s.state)) → P s.state
  reconnectDue : ∀ s : WsSession, ¬ s.state.Live → I s → I s.reconnectDue.2
  upgrade : ∀ s : WsSession, s.state = .connecting → I s → I (s.enter .upgrading)
  opens : ∀ {s s' s'' : WsSession}, s.state = .upgrading → s.readResponse = (.accept, s') →
    Undergoes C (s'.enter .opened) s'' → C s''.armPing → I s → I s''.armPing
  keepalive : ∀ {cb : Callbacks}, Keeping (Undergoes C) cb → ∀ s : WsSession, Holds C I s (checkKeepalive cb s)

namespace Timing

variable {P : WsState → Prop} {C I : WsSession → Prop} {cb : Callbacks}

theorem above (hT : Timing P C I) : Above (Undergoes C) (Holds C I) := ⟨fun h => h I hT.toCalling, hT.trans⟩

theorem request (hT : Timing P C I) {ok : Bool} (hs : s.state = .connecting)
    (hset : Undergoes C (s.enter .upgrading) s') (h : s'.queueRequest = (ok, s'')) : Holds C I s s'' :=
  hT.trans (Calling.enter s .upgrading fun _ => hT.upgrade s hs)
    (hT.trans (hT.above.le hset) (hT.still (quiet_queueRequest h)))

theorem drives (hT : Timing P C I) : Drives (Undergoes C) (Holds C I) where
  toAbove := hT.above
  toConnects := hT.dials.connects hT.above
  reconnectDue s hdead := by
    have hframe := s.frame_reconnectDue
    exact ⟨hframe.suffix, hframe.marks, fun _ => hT.reconnectDue s hdead⟩
  pollOpen s := hT.still s.quiet_pollOpen
  request := hT.request
  refuse hs hset h := hT.trans (hT.request hs hset h) (hT.downs _ not_live_failed)
  wait _ h := hT.still (quiet_readResponse h nofun)
  reject _ h := hT.trans (hT.still (quiet_readResponse h nofun)) (hT.downs _ not_live_failed)
  opens {s s' s''} hs h hset := by
    have harm := s''.frame_armPing
    have hread := (readResponse_fields h).1.trans (s'.enter_log .opened)
    have hmarks : s.marks <:+ (s'.enter .opened).marks := by
      rw [enter_marks]
      exact suffix_readResponse h
    have huser := hT.above.le hset
    exact ⟨hread.trans (huser.log.trans harm.suffix), hmarks.trans (huser.marks.trans harm.marks), hT.opens hs h hset⟩
  readFrames {s} _ := hT.still s.quiet_readFrames
  parse hcb hbasic s hs := hT.parseFrames (hT.keeping hcb) hbasic s (hT.up _ hs)
  resume {cb} hcb hbasic s hne _ := by
    generalize (setState cb s .opened).armPing = s at hne ⊢
    have hbase := basic_parseFrames hbasic (s.note (.resumed s.state)) hne
    refine ⟨(List.suffix_cons _ _).trans hbase.log, hbase.marks, fun hC hs => ?_⟩
    -- the condition on the past tells in which state the rest is parsed
    have hP : P s.state := hT.resumed s hne (hT.past hbase.log hbase.marks hC)
    have hnote : Quiet s (s.note (.resumed s.state)) := { Quiet.refl s with log := List.suffix_cons _ _ }
    exact (hT.parseFrames (hT.keeping hcb) hbasic (s.note (.resumed s.state)) hP).inv hC (hT.quiet hnote hs)
  keepalive hcb _ _ _ := hT.keepalive hcb _

/-- **The rule for runs.** -/
theorem runs (hT : Timing P C I) (depth : Nat) (s : WsSession) (calls : List (Api × Env)) :
    Holds C I s (run depth s calls) :=
  keeps_run (blocks_undergoes C) hT.drives (undergoes_callbacks C depth) (fun s _ => hT.still { Quiet.refl s with })
    (hT.acts (hT.callbacks depth) (basic_callbacks depth)) s calls

end Timing

end WsSession

end Lepton.Ws

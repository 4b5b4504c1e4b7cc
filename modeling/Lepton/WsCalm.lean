import Lepton.History
import Lepton.WsEverywhere

/-! A stretch of a session's life that nothing disturbs: the transport neither fails nor ends, no deadline passes and
the pool is never empty. In it, sending and time keeping leave a connection that is upgrading or open as it is. -/

namespace Lepton.Ws

variable {s s' s'' : WsSession} {cb : Callbacks}

def Act.isSend : Act → Bool
  | .send _ _ => true
  | .connect | .close _ => false

/-- The histories go on. -/
structure Grows (s s' : WsSession) : Prop where
  log : s.log <:+ s'.log
  marks : s.marks <:+ s'.marks
  wire : s.wire <:+ s'.wire

theorem Grows.refl (s : WsSession) : Grows s s := ⟨List.suffix_rfl, List.suffix_rfl, List.suffix_rfl⟩

theorem Grows.trans (h : Grows s s') (h' : Grows s' s'') : Grows s s'' :=
  ⟨h.log.trans h'.log, h.marks.trans h'.marks, h.wire.trans h'.wire⟩

/-- From `s` to `s'` no call of the transport fails or finds the end of the stream, no deadline passes and the pool has
a buffer whenever it is asked for one. -/
structure Calm (s s' : WsSession) : Prop where
  wire : ∀ c ∈ since s.wire s'.wire, ¬ c.Failing ∧ ¬ c.AtEnd
  deadlines : .timedOut ∉ since s.log s'.log
  pool : .pool (.acquired none) ∉ since s.marks s'.marks

namespace Calm

theorem left (h : Calm s s'') (hg : Grows s s') (hg' : Grows s' s'') : Calm s s' := by
  obtain ⟨hwire, hdeadlines, hpool⟩ := h
  rw [since_trans hg.wire hg'.wire] at hwire
  rw [since_trans hg.log hg'.log] at hdeadlines
  rw [since_trans hg.marks hg'.marks] at hpool
  exact ⟨fun c hc => hwire c (List.mem_append_right _ hc), fun h => hdeadlines (List.mem_append_right _ h),
    fun h => hpool (List.mem_append_right _ h)⟩

theorem right (h : Calm s s'') (hg : Grows s s') (hg' : Grows s' s'') : Calm s' s'' := by
  obtain ⟨hwire, hdeadlines, hpool⟩ := h
  rw [since_trans hg.wire hg'.wire] at hwire
  rw [since_trans hg.log hg'.log] at hdeadlines
  rw [since_trans hg.marks hg'.marks] at hpool
  exact ⟨fun c hc => hwire c (List.mem_append_left _ hc), fun h => hdeadlines (List.mem_append_left _ h),
    fun h => hpool (List.mem_append_left _ h)⟩

end Calm

/-- The bytes read from `s` to `s'`. -/
def readBetween (s s' : WsSession) : List UInt8 := bytesRead (since s.wire s'.wire)

theorem readBetween_same (h : s'.wire = s.wire) : readBetween s s' = [] := by
  rw [readBetween, h, since_self]
  rfl

theorem readBetween_cons {c : StreamCall} (h : s'.wire = c :: s.wire) :
    readBetween s s' = bytesRead [c] := by
  rw [readBetween, h]
  exact congrArg bytesRead (since_append [c] s.wire)

theorem readBetween_trans (hg : Grows s s') (hg' : Grows s' s'') :
    readBetween s s'' = readBetween s s' ++ readBetween s' s'' := by
  rw [readBetween, since_trans hg.wire hg'.wire, bytesRead_append]
  rfl

/-- What a connection has received, and its state, are as they were, and nothing was read. -/
structure Kept (s s' : WsSession) : Prop where
  cfg : s'.cfg = s.cfg
  state : s'.state = s.state
  recv : s'.recv = s.recv
  input : s'.input = s.input
  received : s'.received = s.received
  messages : s'.messages = s.messages
  frag : s'.frag = s.frag
  fragOpcode : s'.fragOpcode = s.fragOpcode
  silent : readBetween s s' = []

theorem Kept.refl (s : WsSession) : Kept s s :=
  ⟨rfl, rfl, rfl, rfl, rfl, rfl, rfl, rfl, readBetween_same rfl⟩

theorem Kept.trans (hg : Grows s s') (hg' : Grows s' s'') (h : Kept s s') (h' : Kept s' s'') :
    Kept s s'' where
  cfg := h'.cfg.trans h.cfg
  state := h'.state.trans h.state
  recv := h'.recv.trans h.recv
  input := h'.input.trans h.input
  received := h'.received.trans h.received
  messages := h'.messages.trans h.messages
  frag := h'.frag.trans h.frag
  fragOpcode := h'.fragOpcode.trans h.fragOpcode
  silent := by rw [readBetween_trans hg hg', h.silent, h'.silent, List.append_nil]

/-- A connection on which data may arrive. -/
def WsState.Receiving (st : WsState) : Prop := st = .upgrading ∨ st = .opened

/-- Left alone unless disturbed. -/
structure Stays (s s' : WsSession) : Prop where
  grows : Grows s s'
  kept : Calm s s' → s.state.Receiving → Kept s s'

theorem Stays.trans (h : Stays s s') (h' : Stays s' s'') : Stays s s'' := by
  refine ⟨h.grows.trans h'.grows, fun hcalm hs => ?_⟩
  have hfirst := h.kept (hcalm.left h.grows h'.grows) hs
  have hsecond := h'.kept (hcalm.right h.grows h'.grows) (hfirst.state ▸ hs)
  exact hfirst.trans h.grows h'.grows hsecond

theorem Stays.of_kept (hg : Grows s s') (h : Kept s s') : Stays s s' := ⟨hg, fun _ _ => h⟩

namespace WsSession

theorem Basic.grows (h : Basic s s') : Grows s s' := ⟨h.log, h.marks, h.wire⟩

theorem takes_grows : Takes Grows :=
  Takes.of_frame Grows.refl Grows.trans (fun h => ⟨h.suffix, h.marks, h.wire⟩)
    (fun s _ hnext => (takes_basic.toBlocks.down s hnext).grows)

theorem grows_readResponse (s : WsSession) : Grows s s.readResponse.2 := by
  obtain ⟨v, s', h⟩ : ∃ v s', s.readResponse = (v, s') := ⟨_, _, rfl⟩
  rw [h]
  exact ⟨(readResponse_fields h).1, suffix_readResponse h, (readResponse_fields h).2.1⟩

/-- Nothing a session does takes back what it has done. -/
theorem everywhere_grows : Everywhere Grows where
  toTakes := takes_grows
  toDials := dials_basic.mono ⟨Basic.grows, Grows.trans⟩
  enter s st := by
    refine ⟨s.enter_log st, ?_, ?_⟩
    · rw [enter_marks]
    · obtain ⟨log, h, -⟩ := s.enter_eq st
      rw [h]
  note s _ := { Grows.refl s with log := List.suffix_cons _ _ }
  flags s _ _ := { Grows.refl s with }
  env s _ := { Grows.refl s with }
  settings s _ _ := { Grows.refl s with }
  consumeRecv s _ := { Grows.refl s with marks := List.suffix_cons _ _ }
  compactRecv s := by
    obtain ⟨recv, faults, h⟩ := s.compactRecv_eq
    rw [h]
    exact { Grows.refl s with }
  reconnectDue s := by
    have hmarks := s.suffix_reconnectDue
    obtain ⟨clocks, delay, h⟩ := s.reconnectDue_snd
    rw [h]
    exact { Grows.refl s with marks := hmarks }
  pollOpen s := by
    obtain ⟨opens, h⟩ := s.transportPollOpen_snd
    rw [h]
    exact { Grows.refl s with wire := List.suffix_cons _ _ }
  queueRequest s := by
    have hmarks := s.pooled_queueRequest.suffix
    obtain ⟨acquires, faults, pending, interest, request, marks, h, -⟩ := @queueRequest_snd s s.queueRequest.2 s.queueRequest.1 rfl
    rw [h] at hmarks ⊢
    exact { Grows.refl s with log := List.suffix_cons _ _, marks := hmarks }
  readResponse := grows_readResponse
  armPing s := by
    obtain ⟨clocks, t, h⟩ := s.armPing_eq
    rw [h]
    exact { Grows.refl s with }
  readFrames s := by
    obtain ⟨reads, input, recv, wire, faults, h, hwire⟩ := s.readFrames_snd
    rw [h]
    exact { Grows.refl s with wire := wire_grown hwire }

theorem kept_queueFrame (s : WsSession) (opcode : WsOpcode) (payload : List UInt8) (fin : Bool) :
    Kept s (s.queueFrame opcode payload fin).2 := by
  obtain ⟨acquires, gen, faults, pending, interest, frames, h, -⟩ := s.queueFrame_snd opcode payload fin
  rw [h]
  exact { Kept.refl s with }

theorem stays_queueFrame (s : WsSession) (opcode : WsOpcode) (payload : List UInt8) (fin : Bool) :
    Stays s (s.queueFrame opcode payload fin).2 :=
  .of_kept (takes_grows.queueFrame s opcode payload fin) (s.kept_queueFrame opcode payload fin)

theorem flushes_stays : Flushes Stays where
  refl s := .of_kept (Grows.refl s) (Kept.refl s)
  trans := Stays.trans
  flushTurn {s s' turn} h hturn := by
    refine .of_kept (takes_grows.flushTurn h hturn) ?_
    obtain rfl : s.flushTurn.2 = s' := congrArg Prod.snd h
    rcases s.flushTurn_snd with ⟨interest, hs, -⟩ | ⟨-, r, writes, pending, hs⟩
    · rw [hs]
      exact { Kept.refl s with }
    · rw [hs]
      exact { Kept.refl s with silent := readBetween_cons (c := .write s.unsentFront r) rfl }
  flushFatal {s s'} h := by
    -- The failed write is in the history.
    have hgrows := takes_grows.flushFatal h
    refine ⟨hgrows, fun hcalm _ => ?_⟩
    have hdown : Grows s' ((s'.shutDown .failed).enter .failed) := takes_grows.down s' not_live_failed
    have hwrite : .write s.unsentFront .error :: s.wire <:+ ((s'.shutDown .failed).enter .failed).wire :=
      (flushTurn_fatal h).2 ▸ hdown.wire
    exact absurd rfl (hcalm.wire _ (mem_since List.suffix_rfl hwrite)).1
  flushFinished {s s'} h := by
    refine ⟨takes_grows.flushFinished h, fun _ hs => ?_⟩
    rw [flushTurn_finished h] at hs
    rcases hs with hs | hs
    · cases hs
    · cases hs
  queueSend := keeps_queueSend Stays.trans (fun s _ _ => .of_kept { Grows.refl s with } { Kept.refl s with })
    fun s opcode payload fin _ _ => s.stays_queueFrame opcode payload fin

theorem stays_send (hcb : Keeping Stays cb) (s : WsSession) {a : Act} (ha : a.isSend = true) :
    Stays s (act cb s a) := by
  cases a with
  | send payload binary => exact keeps_send flushes_stays hcb s payload binary
  | connect => cases ha
  | close code => cases ha

theorem stays_callbacksOf (depth : Nat) : Keeping Stays (callbacksOf Act.isSend depth) :=
  keeping_callbacksOf flushes_stays.refl Stays.trans (fun s _ => .of_kept { Grows.refl s with } { Kept.refl s with })
    (fun _ hcb s _ ha => stays_send hcb s ha) depth

theorem Keeping.grows (hcb : Keeping Stays cb) : Keeping Grows cb :=
  ⟨fun s => (hcb.onState s).grows, fun s => (hcb.onMessage s).grows⟩

theorem stays_checkTimeouts (hcb : Keeping Stays cb) (s : WsSession) : Stays s (checkTimeouts cb s) := by
  have hgrows := keeps_checkTimeouts takes_grows.toBlocks hcb.grows s
  refine ⟨hgrows, fun hcalm _ => ?_⟩
  obtain ⟨late, s', h⟩ : ∃ late s', s.deadlinePassed = (late, s') := ⟨_, _, rfl⟩
  cases late with
  | false =>
    have hsame : checkTimeouts cb s = s' := by rw [checkTimeouts, h]
    obtain ⟨clocks, log, hs, -⟩ := s.deadlinePassed_snd
    rw [h] at hs
    change s' = _ at hs
    rw [hsame, hs]
    exact { Kept.refl s with }
  | true =>
    have hdown : checkTimeouts cb s = teardown cb s' .failed := by rw [checkTimeouts, h]
    have hnoted : .timedOut :: s.log <:+ (checkTimeouts cb s).log := by
      have hlog : s'.log = .timedOut :: s.log := by
        unfold deadlinePassed at h
        split at h
        · obtain ⟨clocks, hnow⟩ := s.now_snd
          dsimp only at h
          split at h
          · cases h
            rw [hnow]
            rfl
          · cases h
        · cases h
      rw [hdown, ← hlog]
      exact (keeps_teardown takes_grows.toBlocks hcb.grows s' not_live_failed).log
    exact absurd (mem_since List.suffix_rfl hnoted) hcalm.deadlines

theorem stays_armPing (s : WsSession) : Stays s s.armPing := by
  obtain ⟨clocks, t, h⟩ := s.armPing_eq
  rw [h]
  exact .of_kept { Grows.refl s with } { Kept.refl s with }

/-- A missing pong is noted. -/
theorem keepaliveTurn_stale (h : s.keepaliveTurn = (.stale, s')) :
    s'.log = .timedOut :: .pongLate s.state :: s.log := by
  obtain ⟨clocks, hnow⟩ := s.now_snd
  unfold keepaliveTurn at h
  dsimp only at h
  split at h
  · cases h
  · split at h
    · split at h
      · cases h
        rw [hnow]
        rfl
      · cases h
    · split at h
      · cases h
      · cases h

theorem stays_checkKeepalive (hcb : Keeping Stays cb) (s : WsSession) : Stays s (checkKeepalive cb s) := by
  obtain ⟨turn, s', h⟩ : ∃ turn s', s.keepaliveTurn = (turn, s') := ⟨_, _, rfl⟩
  have hgrows := takes_grows.keepaliveTurn s
  have hturn : Stays s s' := by
    obtain ⟨clocks, log, hs, -⟩ := s.keepaliveTurn_snd
    rw [h] at hs hgrows
    change s' = _ at hs
    refine .of_kept hgrows ?_
    rw [hs]
    exact { Kept.refl s with }
  cases turn with
  | idle =>
    rw [checkKeepalive, h]
    exact hturn
  | due t =>
    rw [checkKeepalive, h]
    have hping := keeps_enqueueFrame flushes_stays hcb (s'.stays_queueFrame .ping [] true)
    have hpinged (s : WsSession) : Stays s (s.pinged t) := .of_kept { Grows.refl s with } { Kept.refl s with }
    exact hturn.trans (hping.trans (hpinged _))
  | stale =>
    have hdown : checkKeepalive cb s = teardown cb s' .failed := by rw [checkKeepalive, h]
    have hend := keeps_teardown takes_grows.toBlocks hcb.grows s' not_live_failed
    rw [hdown]
    refine ⟨hturn.grows.trans hend, fun hcalm _ => ?_⟩
    have hnoted : .timedOut :: .pongLate s.state :: s.log <:+ (teardown cb s' .failed).log := by
      rw [← keepaliveTurn_stale h]
      exact hend.log
    exact absurd (mem_since (List.suffix_cons _ _) hnoted) hcalm.deadlines

end WsSession

end Lepton.Ws

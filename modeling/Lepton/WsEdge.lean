import Lepton.WsOutput

/-! The edge-triggered poller. A call of `on_ready` that is given no new data, and none of whose writes is
cut short, leaves nothing behind: its last read, and with a ring that is not empty its last write, was
pushed back. -/

namespace Lepton.Ws

variable {s s' s'' : WsSession} {cb : Callbacks}

/-- The states in which `on_ready` sends and receives. -/
def WsState.Wired (st : WsState) : Prop := st = .upgrading ∨ st.Up

instance : DecidablePred WsState.Wired := fun st => inferInstanceAs (Decidable (st = _ ∨ st.Up))

/-- A call that does not open the transport, a read that brings no data, and a write of all or nothing. -/
def Dry : StreamCall → Prop
  | .pollOpen ph => ph ≠ .opened
  | .read _ (.data bytes) => bytes = []
  | .write src (.accepted n) => src.length ≤ n
  | _ => True

instance : DecidablePred Dry
  | .pollOpen ph => inferInstanceAs (Decidable (ph ≠ .opened))
  | .read _ (.data bytes) => inferInstanceAs (Decidable (bytes = []))
  | .write src (.accepted n) => inferInstanceAs (Decidable (src.length ≤ n))
  | .read _ .again | .read _ .error | .write _ .again | .write _ .error | .connect _ | .close => isTrue trivial

/-- The answer of the last read, in a list of calls with the latest first. -/
def lastRead : List StreamCall → Option ReadResult
  | [] => none
  | .read _ r :: _ => some r
  | _ :: calls => lastRead calls

/-- The answer of the last write. -/
def lastWrite : List StreamCall → Option WriteResult
  | [] => none
  | .write _ r :: _ => some r
  | _ :: calls => lastWrite calls

/-- `s'` is reached from `s` without a read, and with well-formed buffers if `s` had them. A connection that
sends and receives has done so before. -/
structure Deaf (s s' : WsSession) : Prop where
  calls : ∃ new, s'.wire = new ++ s.wire ∧ ∀ older, lastRead (new ++ older) = lastRead older
  wired : s'.state.Wired → s.state.Wired
  stowed : Stowed s → Stowed s'

theorem Deaf.refl (s : WsSession) : Deaf s s := ⟨⟨[], rfl, fun _ => rfl⟩, id, id⟩

theorem Deaf.trans (h : Deaf s s') (h' : Deaf s' s'') : Deaf s s'' := by
  obtain ⟨new, hnew, hread⟩ := h.calls
  obtain ⟨new', hnew', hread'⟩ := h'.calls
  refine ⟨⟨new' ++ new, ?_, fun older => ?_⟩, fun hs => h.wired (h'.wired hs), fun hs => h'.stowed (h.stowed hs)⟩
  · rw [hnew', hnew, List.append_assoc]
  · rw [List.append_assoc, hread', hread]

theorem Deaf.same (hwire : s'.wire = s.wire) (hstate : s'.state = s.state)
    (hpending : s'.pending = s.pending) : Deaf s s' :=
  ⟨⟨[], hwire, fun _ => rfl⟩, fun h => hstate ▸ h, fun h => h.of_eq hpending⟩

theorem Deaf.of_silent (h : WsSession.Silent s s') : Deaf s s' := Deaf.same h.wire h.state h.pending

/-- A step with one call of the transport. -/
theorem Deaf.step {c : StreamCall} (hwire : s'.wire = c :: s.wire)
    (hc : ∀ older, lastRead (c :: older) = lastRead older) (hwired : s'.state.Wired → s.state.Wired)
    (hstowed : Stowed s → Stowed s') : Deaf s s' := ⟨⟨[c], hwire, hc⟩, hwired, hstowed⟩

/-- A connection that is gone, or on its way. -/
theorem Deaf.away (new : List StreamCall) (st : WsState) (hstate : s'.state = st) (hst : ¬ st.Wired)
    (hwire : s'.wire = new ++ s.wire) (hnew : ∀ older, lastRead (new ++ older) = lastRead older)
    (hempty : s'.pending.toList = []) : Deaf s s' :=
  ⟨⟨new, hwire, hnew⟩, fun h => absurd (hstate ▸ h) hst, fun _ => stowed_of_empty hempty⟩

namespace WsSession

theorem not_wired_of_not_live {st : WsState} (h : ¬ st.Live) : ¬ st.Wired := by
  rintro (rfl | rfl | rfl)
  · exact h (by decide)
  · exact h (by decide)
  · exact h (by decide)

theorem deaf_down (s : WsSession) {next : WsState} (hnext : ¬ next.Live) : Deaf s ((s.shutDown next).enter next) := by
  obtain ⟨clocks, t, hdown⟩ := s.shutDown_eq next
  obtain ⟨log, h, -⟩ := (s.shutDown next).enter_eq next
  rw [h, hdown]
  exact Deaf.away [.close] next rfl (not_wired_of_not_live hnext) rfl (fun _ => rfl) (Ring.toList_drain _)

theorem deaf_flushTurn {turn : FlushTurn} (h : s.flushTurn = (turn, s')) : Deaf s s' := by
  rcases flushTurn_cases h with ⟨-, -, rfl⟩ | ⟨hcount, r, writes, h⟩
  · exact Deaf.same rfl rfl rfl
  · have hwrite (older : List StreamCall) : lastRead (.write s.unsentFront r :: older) = lastRead older := rfl
    rcases h with ⟨-, -, rfl⟩ | ⟨-, -, rfl⟩ | ⟨n, -, -, -, rfl⟩ | ⟨n, -, -, -, rfl⟩
    · exact Deaf.step rfl hwrite id fun hs => hs.of_eq rfl
    · exact Deaf.step rfl hwrite id fun hs => hs.of_eq rfl
    · exact Deaf.step rfl hwrite id fun hs => hs.pop hcount rfl
    · exact Deaf.step rfl hwrite id fun hs => hs.setFront hcount rfl

theorem deaf_queueFrame (s : WsSession) (opcode : WsOpcode) (payload : List UInt8) (fin : Bool) :
    Deaf s (s.queueFrame opcode payload fin).2 := by
  obtain ⟨status, s', hqueue⟩ : ∃ status s', s.queueFrame opcode payload fin = (status, s') := ⟨_, _, rfl⟩
  rw [hqueue]
  obtain ⟨acquires, gen, faults, ⟨-, rfl⟩ | ⟨-, id, key, ring, hroom, hpush, rfl⟩⟩ := queueFrame_cases hqueue
  · exact Deaf.same rfl rfl rfl
  · obtain ⟨hfits, -⟩ := bytes_frameBuffer s.cfg.cap_lt s.cfg.cap_ge opcode key fin hroom
    exact ⟨⟨[], rfl, fun _ => rfl⟩, fun h => h, fun hs => hs.push hfits hpush⟩

theorem blocks_deaf : Blocks Deaf where
  refl := Deaf.refl
  trans := Deaf.trans
  down s _ := s.deaf_down
  flushTurn h _ := deaf_flushTurn h
  flushFatal h := (deaf_flushTurn h).trans (deaf_down _ not_live_failed)
  flushFinished h := (deaf_flushTurn h).trans (deaf_down _ not_live_disconnected)
  queueSend := keeps_queueSend Deaf.trans (fun _ _ _ => Deaf.same rfl rfl rfl)
    fun s opcode payload fin _ _ => s.deaf_queueFrame opcode payload fin
  deadlinePassed s := .of_silent s.silent_deadlinePassed

theorem takes_deaf : Takes Deaf := Takes.of_silent blocks_deaf Deaf.of_silent deaf_queueFrame

theorem dials_deaf : Dials Deaf where
  starved {s s'} h := by
    obtain ⟨acquires, recv, hs⟩ := tryDial_starved h
    obtain ⟨log, heq, -⟩ := s'.enter_eq .failed
    rw [heq, hs]
    exact Deaf.away [] .failed rfl (by decide) rfl (fun _ => rfl) (Ring.toList_drain _)
  refused {s s'} h := by
    obtain ⟨env, recv, deadline, -, hs⟩ := tryDial_refused h
    obtain ⟨clocks, t, hdown⟩ := s'.shutDown_eq .failed
    obtain ⟨log, heq, -⟩ := (s'.shutDown .failed).enter_eq .failed
    rw [heq, hdown, hs]
    exact Deaf.away [.close, .connect false] .failed rfl (by decide) rfl (fun _ => rfl) (Ring.toList_drain _)
  dialed {s s'} h := by
    obtain ⟨env, deadline, fd, -, hs⟩ := tryDial_dialed h
    obtain ⟨log, heq, -⟩ := s'.enter_eq .connecting
    rw [heq, hs]
    exact Deaf.away [.connect true] .connecting rfl (by decide) rfl (fun _ => rfl) (Ring.toList_drain _)
  register := keeps_register Deaf.refl fun _ _ _ _ => Deaf.same rfl rfl rfl

theorem deaf_act (hcb : Keeping Deaf cb) (s : WsSession) (a : Act) : Deaf s (act cb s a) := by
  cases a with
  | connect => exact keeps_startConnect blocks_deaf dials_deaf hcb s
  | send payload binary => exact keeps_send blocks_deaf.toFlushes hcb s payload binary
  | close code =>
    apply keeps_close blocks_deaf hcb s code (Deaf.same rfl rfl rfl)
    intro hopen
    have hsend : Deaf s (sendClose cb s code) :=
      keeps_sendClose blocks_deaf.toFlushes hcb (Deaf.same rfl rfl rfl) (deaf_queueFrame ..)
        fun _ _ _ _ _ => Deaf.same rfl rfl rfl
    obtain ⟨log, h, -⟩ := (sendClose cb s code).enter_eq .closing
    rw [h]
    exact ⟨hsend.calls, fun _ => Or.inr (Or.inl hopen), hsend.stowed⟩

theorem deaf_callbacks (depth : Nat) : Keeping Deaf (callbacks depth) :=
  keeping_callbacks Deaf.refl Deaf.trans (fun _ _ => Deaf.same rfl rfl rfl) (fun _ hcb => deaf_act hcb) depth

/-! The buffers of the ring are well formed throughout. -/

end WsSession

/-- `s'` has well-formed buffers if `s` has. -/
def Stows (s s' : WsSession) : Prop := Stowed s → Stowed s'

namespace WsSession

theorem stows_enter (s : WsSession) (st : WsState) : Stows s (s.enter st) := by
  obtain ⟨log, h, -⟩ := s.enter_eq st
  rw [h]
  exact fun hs => hs.of_eq rfl

theorem stows_request {ok : Bool} (hset : Deaf (s.enter .upgrading) s')
    (hrequest : s'.queueRequest = (ok, s'')) : Stows s s'' := by
  intro hs
  have hs' := hset.stowed (s.stows_enter .upgrading hs)
  obtain ⟨acquires, faults, ⟨rfl, -⟩ | ⟨-, id, text, ring, htext, hpush, rfl⟩⟩ := queueRequest_cases hrequest
  · exact hs'.of_eq rfl
  · have hblank : (IoBuffer.blank id s'.cfg.cap 0).Fits := IoBuffer.fits_blank (Nat.zero_le _) s'.cfg.cap_lt
    exact hs'.push (hblank.append (length_buildWsUpgrade htext)).1 hpush

theorem above_stows : Above Deaf Stows := ⟨Deaf.stowed, fun h h' hs => h' (h hs)⟩

theorem drives_stows : Drives Deaf Stows :=
  takes_deaf.drives above_stows (dials_deaf.lift above_stows) (fun h hs => hs.of_eq h.pending)
    (fun _ hset h => stows_request hset h) fun {s} _ => s.stows_enter .opened

theorem stows_run (depth : Nat) (s : WsSession) (calls : List (Api × Env)) : Stows s (run depth s calls) :=
  keeps_run blocks_deaf drives_stows (deaf_callbacks depth) (fun _ _ hs => hs.of_eq rfl)
    (fun s a => (deaf_act (deaf_callbacks depth) s a).stowed) s calls

end WsSession

/-- Since `w`, if all calls were dry: the ring is empty, or the last write was pushed back. -/
def Tidy (w : List StreamCall) (s : WsSession) : Prop :=
  ∃ new, s.wire = new ++ w ∧ ((∀ c ∈ new, Dry c) → s.pending.count = 0 ∨ lastWrite new = some .again)

/-- `s'` is reached without a read and is tidy if `s` is. -/
structure Tidies (w : List StreamCall) (s s' : WsSession) : Prop extends Deaf s s' where
  tidy : Stowed s → Tidy w s → Tidy w s'

theorem Deaf.suffix (h : Deaf s s') : s.wire <:+ s'.wire := by
  obtain ⟨new, hnew, -⟩ := h.calls
  exact ⟨new, hnew.symm⟩

theorem Tidy.suffix {w : List StreamCall} (h : Tidy w s) : w <:+ s.wire := by
  obtain ⟨new, hnew, -⟩ := h
  exact ⟨new, hnew.symm⟩

theorem tidy_of_empty {w : List StreamCall} (hw : w <:+ s.wire) (hempty : s.pending.count = 0) :
    Tidy w s := by
  obtain ⟨new, hnew⟩ := hw
  exact ⟨new, hnew.symm, fun _ => Or.inl hempty⟩

namespace WsSession

section Tidy

variable {w : List StreamCall}

theorem tidies_refl (s : WsSession) : Tidies w s s := ⟨Deaf.refl s, fun _ h => h⟩

theorem tidies_trans (h : Tidies w s s') (h' : Tidies w s' s'') : Tidies w s s'' :=
  ⟨h.toDeaf.trans h'.toDeaf, fun hs ht => h'.tidy (h.stowed hs) (h.tidy hs ht)⟩

theorem Tidies.same (hwire : s'.wire = s.wire) (hstate : s'.state = s.state)
    (hpending : s'.pending = s.pending) : Tidies w s s' := by
  refine ⟨Deaf.same hwire hstate hpending, fun _ ⟨new, hnew, htidy⟩ => ⟨new, hwire.trans hnew, fun hdry => ?_⟩⟩
  rw [hpending]
  exact htidy hdry

theorem Keeping.deaf (hcb : Keeping (Tidies w) cb) : Keeping Deaf cb :=
  ⟨fun s => (hcb.onState s).toDeaf, fun s => (hcb.onMessage s).toDeaf⟩

/-- The user hears of a state change in a tidy session. -/
theorem tidy_setState (hcb : Keeping (Tidies w) cb) {st : WsState} (hs : Stowed (s.enter st))
    (ht : Tidy w (s.enter st)) : Tidy w (setState cb s st) := by
  unfold setState
  split
  · next heq =>
    rw [enter, if_pos heq] at ht
    exact ht
  · exact (hcb.onState _).tidy hs ht

theorem tidy_setState_of_empty (hcb : Keeping (Tidies w) cb) (hw : w <:+ s.wire)
    (hempty : s.pending.count = 0) (st : WsState) : Tidy w (setState cb s st) := by
  obtain ⟨log, h, -⟩ := s.enter_eq st
  apply tidy_setState hcb
  · rw [h]
    exact stowed_of_empty (Ring.toList_of_count_zero hempty)
  · rw [h]
    exact tidy_of_empty hw hempty

theorem tidy_teardown (hcb : Keeping (Tidies w) cb) (hw : w <:+ s.wire) (next : WsState) :
    Tidy w (teardown cb s next) := by
  obtain ⟨clocks, t, hdown⟩ := s.shutDown_eq next
  apply tidy_setState_of_empty hcb
  · rw [hdown]
    exact hw.trans (List.suffix_cons _ _)
  · rw [hdown]
    exact Ring.count_drain _

/-- A flush leaves a tidy session, whatever it found. -/
theorem tidy_flushLoop (hcb : Keeping (Tidies w) cb) {fuel : Nat} (hlen : s.env.writes.length < fuel)
    (hs : Stowed s) (hw : w <:+ s.wire) : Tidy w (flushLoop cb fuel s) := by
  induction fuel generalizing s with
  | zero => exact absurd hlen (Nat.not_lt_zero _)
  | succ fuel ih =>
    rw [flushLoop]
    split
    · next s₁ h =>
      rcases flushTurn_cases h with ⟨hcount, -, rfl⟩ | ⟨hcount, r, writes, h⟩
      · exact tidy_of_empty hw hcount
      · obtain ⟨new, hnew⟩ := hw
        have hwire : StreamCall.write s.unsentFront r :: s.wire = (.write s.unsentFront r :: new) ++ w :=
          congrArg _ hnew.symm
        rcases h with ⟨rfl, -, rfl⟩ | ⟨-, hturn, -⟩ | ⟨n, -, -, hturn, -⟩ | ⟨n, rfl, hpart, -, rfl⟩
        · exact ⟨_, hwire, fun _ => Or.inr rfl⟩
        · cases hturn
        · split at hturn <;> cases hturn
        · -- A write that is cut short is not dry, since the buffer holds as many bytes as it says.
          refine ⟨_, hwire, fun hdry => absurd (hdry _ List.mem_cons_self) ?_⟩
          change ¬ s.unsentFront.length ≤ n
          rw [unsentFront, List.length_drop, (hs.front hcount).length_bytes]
          omega
    · next h => exact tidy_teardown hcb (hw.trans (deaf_flushTurn h).suffix) .failed
    · next h => exact tidy_teardown hcb (hw.trans (deaf_flushTurn h).suffix) .disconnected
    · next h =>
      have hdeaf := deaf_flushTurn h
      have htape := flushTurn_more h
      exact ih (by omega) (hdeaf.stowed hs) (hw.trans hdeaf.suffix)

theorem tidy_flushPending (hcb : Keeping (Tidies w) cb) (hs : Stowed s) (hw : w <:+ s.wire) :
    Tidy w (flushPending cb s) := tidy_flushLoop hcb (Nat.lt_succ_self _) hs hw

theorem tidies_enqueueFrame (hcb : Keeping (Tidies w) cb) (s : WsSession) (opcode : WsOpcode) (payload : List UInt8)
    (fin : Bool) : Tidies w s (enqueueFrame cb s opcode payload fin).2 := by
  have hqueue := s.deaf_queueFrame opcode payload fin
  refine ⟨keeps_enqueueFrame blocks_deaf.toFlushes (Keeping.deaf hcb) hqueue, fun hs ht => ?_⟩
  unfold enqueueFrame
  split
  · next s₁ h =>
    rw [h] at hqueue
    exact tidy_flushPending hcb (hqueue.stowed hs) (ht.suffix.trans hqueue.suffix)
  · next status s₁ hne h =>
    obtain ⟨acquires, gen, faults, ⟨-, rfl⟩ | ⟨rfl, -⟩⟩ := queueFrame_cases h
    · exact ht
    · exact (hne rfl).elim

theorem tidies_register : ∀ s, Tidies w s s.register :=
  keeps_register tidies_refl fun _ _ _ _ => Tidies.same rfl rfl rfl

theorem tidy_startConnect (hcb : Keeping (Tidies w) cb) (hw : w <:+ s.wire) :
    Tidy w (startConnect cb s) := by
  unfold startConnect
  split
  · next h =>
    obtain ⟨acquires, recv, hs⟩ := tryDial_starved h
    rw [hs]
    refine tidy_setState_of_empty hcb ?_ ?_ .failed
    · exact hw
    · exact Ring.count_drain _
  · next h =>
    obtain ⟨env, recv, deadline, -, hs⟩ := tryDial_refused h
    rw [hs]
    exact tidy_teardown hcb (hw.trans (List.suffix_cons _ _)) .failed
  · next s' h =>
    obtain ⟨env, deadline, fd, -, hs⟩ := tryDial_dialed h
    have hempty : s'.pending.count = 0 := by
      rw [hs]
      exact Ring.count_drain _
    have hw' : w <:+ s'.wire := by
      rw [hs]
      exact hw.trans (List.suffix_cons _ _)
    refine (tidies_register _).tidy ?_ (tidy_setState_of_empty hcb hw' hempty .connecting)
    have hset : Deaf (s'.enter .connecting) (setState cb s' .connecting) :=
      keeps_setState blocks_deaf.above (Keeping.deaf hcb) (Deaf.refl _)
    refine hset.stowed ?_
    exact s'.stows_enter .connecting (stowed_of_empty (Ring.toList_of_count_zero hempty))

theorem tidies_act (hcb : Keeping (Tidies w) cb) (s : WsSession) (a : Act) : Tidies w s (act cb s a) := by
  refine ⟨deaf_act (Keeping.deaf hcb) s a, fun hs ht => ?_⟩
  cases a with
  | connect =>
    exact tidy_startConnect hcb ht.suffix
  | send payload binary =>
    obtain ⟨-, h⟩ | ⟨-, h⟩ := act_send cb s payload binary
    · rw [h]
      exact ht
    · have hrecorded : Tidies w s (s.recorded payload binary) := by
        rcases s.recorded_cases payload binary with h | h
        · rw [h]
          exact Tidies.same rfl rfl rfl
        · rw [h]
          exact tidies_refl s
      rw [h]
      exact (tidies_trans hrecorded (tidies_enqueueFrame hcb ..)).tidy hs ht
  | close code =>
    change Tidy w (close cb s code)
    unfold close
    split
    · have hset : Tidies w s { s with autoReconnect := false, inClose := true } := Tidies.same rfl rfl rfl
      have hsend : Tidies w s (sendClose cb s code) :=
        tidies_trans (tidies_trans hset (tidies_enqueueFrame hcb ..)) (Tidies.same rfl rfl rfl)
      obtain ⟨log, h, -⟩ := (sendClose cb s code).enter_eq .closing
      apply tidy_setState hcb
      · rw [h]
        exact (hsend.stowed hs).of_eq rfl
      · rw [h]
        exact hsend.tidy hs ht
    · refine tidy_teardown hcb ?_ .disconnected
      exact ht.suffix

end Tidy

theorem tidies_callbacks (w : List StreamCall) (depth : Nat) : Keeping (Tidies w) (callbacks depth) :=
  keeping_callbacks tidies_refl tidies_trans (fun _ _ => Tidies.same rfl rfl rfl) (fun _ hcb => tidies_act hcb) depth

end WsSession

/-- What is asked of a call of `on_ready` since `w`. -/
def Drained (w : List StreamCall) (s : WsSession) : Prop :=
  ∃ new, s.wire = new ++ w ∧ ((∀ c ∈ new, Dry c) → s.state.Wired →
    lastRead new = some .again ∧ (s.pending.count = 0 ∨ lastWrite new = some .again))

theorem drained_of_not_wired {w : List StreamCall} (hw : w <:+ s.wire) (h : ¬ s.state.Wired) :
    Drained w s := by
  obtain ⟨new, hnew⟩ := hw
  exact ⟨new, hnew.symm, fun _ hs => absurd hs h⟩

/-- A call that was not dry is not forgotten. -/
theorem drained_of_wet {w older : List StreamCall} {c : StreamCall} (hw : w <:+ older)
    (hwire : s.wire = c :: older) (hs : s.wire <:+ s'.wire) (hc : ¬ Dry c) : Drained w s' := by
  obtain ⟨new, rfl⟩ := hw
  obtain ⟨new', hnew'⟩ := hs
  refine ⟨new' ++ c :: new, ?_, fun hdry => absurd (hdry c ?_) hc⟩
  · rw [← hnew', hwire, List.append_assoc, List.cons_append]
  · exact List.mem_append_right _ List.mem_cons_self

namespace WsSession

/-- What a read for frames does to the calls: it is pushed back, or brings data, or the session is at an end. -/
theorem readFrames_calls {r : Reading} (h : s.readFrames = (r, s')) :
    s.wire <:+ s'.wire ∧ (r = .wait → s'.wire = .read s.recv.tailroom .again :: s.wire) ∧
      (r = .got → ∃ bytes, s'.wire = .read s.recv.tailroom (.data bytes) :: s.wire ∧ bytes ≠ []) := by
  rcases readFrames_cases h with ⟨-, rfl, rfl⟩ | ⟨reads, ⟨rfl, rfl⟩ | ⟨rfl, rfl⟩ | ⟨rfl, rfl⟩ | ⟨bytes, hne, -, rfl, rfl⟩⟩
  · exact ⟨List.suffix_rfl, nofun, nofun⟩
  · exact ⟨List.suffix_cons _ _, fun _ => rfl, nofun⟩
  · exact ⟨List.suffix_cons _ _, nofun, nofun⟩
  · exact ⟨List.suffix_cons _ _, nofun, nofun⟩
  · exact ⟨List.suffix_cons _ _, nofun, fun _ => ⟨bytes, rfl, hne⟩⟩

theorem judgeResponse_wire (s : WsSession) : s.judgeResponse.2.wire = s.wire := by
  unfold judgeResponse
  dsimp only
  split
  · rfl
  · split
    · rfl
    · obtain ⟨recv, faults, h⟩ := (((s.note (.response s.input)).mark .opened).consumeRecv
        (validateWsUpgrade s.recv.bytes s.cfg.expectedAccept).headersLen).compactRecv_eq
      rw [h]
      rfl

theorem readResponse_calls {v : Verdict} (h : s.readResponse = (v, s')) :
    s.wire <:+ s'.wire ∧ (v = .reject ∨ v = .wait ∧ s'.wire = .read s.recv.tailroom .again :: s.wire ∨
      ∃ bytes, s'.wire = .read s.recv.tailroom (.data bytes) :: s.wire ∧ bytes ≠ []) := by
  rcases readResponse_turn h with ⟨-, rfl, rfl⟩ | ⟨reads, ⟨rfl, rfl⟩ | ⟨rfl, rfl⟩ | ⟨rfl, rfl⟩ | ⟨bytes, hne, -, hjudge⟩⟩
  · exact ⟨List.suffix_rfl, Or.inl rfl⟩
  · exact ⟨List.suffix_cons _ _, Or.inr (Or.inl ⟨rfl, rfl⟩)⟩
  · exact ⟨List.suffix_cons _ _, Or.inl rfl⟩
  · exact ⟨List.suffix_cons _ _, Or.inl rfl⟩
  · have hwire := ((s.heard (.data bytes) reads (s.input ++ bytes)).appendRecv bytes).judgeResponse_wire
    rw [hjudge] at hwire
    change s'.wire = .read s.recv.tailroom (.data bytes) :: s.wire at hwire
    exact ⟨hwire ▸ List.suffix_cons _ _, Or.inr (Or.inr ⟨bytes, hwire, hne⟩)⟩

section Drained

variable {w : List StreamCall}

theorem not_wired_teardown (hcb : Keeping Deaf cb) (s : WsSession) {next : WsState} (hnext : ¬ next.Live) :
    ¬ (teardown cb s next).state.Wired := by
  have hset : Deaf ((s.shutDown next).enter next) (teardown cb s next) :=
    keeps_setState blocks_deaf.above hcb (Deaf.refl _)
  exact fun h => not_wired_of_not_live hnext (enter_state _ next ▸ hset.wired h)

theorem drained_teardown (hcb : Keeping Deaf cb) (hw : w <:+ s.wire) {next : WsState} (hnext : ¬ next.Live) :
    Drained w (teardown cb s next) :=
  drained_of_not_wired (hw.trans (keeps_teardown blocks_deaf hcb s hnext).suffix) (not_wired_teardown hcb s hnext)

theorem suffix_sendUpgradeRequest (hbasic : Keeping Basic cb) (s : WsSession) : s.wire <:+ (sendUpgradeRequest cb s).wire := by
  have hset : Basic (s.enter .upgrading) (setState cb s .upgrading) :=
    keeps_setState blocks_basic.above hbasic (blocks_basic.refl _)
  have henter : (s.enter .upgrading).wire = s.wire := by
    obtain ⟨log, h, -⟩ := s.enter_eq .upgrading
    rw [h]
  have hrequest {ok : Bool} {s' : WsSession} (h : (setState cb s .upgrading).queueRequest = (ok, s')) :
      s.wire <:+ s'.wire := by
    obtain ⟨acquires, faults, pending, interest, request, marks, rfl, -⟩ := queueRequest_snd h
    exact henter ▸ hset.wire
  unfold sendUpgradeRequest
  split
  · next h => exact (hrequest h).trans (keeps_flushPending blocks_basic.toFlushes hbasic _).wire
  · next h => exact (hrequest h).trans (keeps_teardown blocks_basic hbasic _ not_live_failed).wire

/-- After a read that is pushed back the session is drained if it was tidy. -/
theorem drained_of_tidy {room : Nat} (ht : Tidy w s') (hdeaf : Deaf s s') {older : List StreamCall}
    (hw : w <:+ older) (hread : s.wire = .read room .again :: older) : Drained w s' := by
  obtain ⟨new, hnew, htidy⟩ := ht
  refine ⟨new, hnew, fun hdry _ => ⟨?_, htidy hdry⟩⟩
  obtain ⟨calls, hcalls, hlast⟩ := hdeaf.calls
  obtain ⟨old, rfl⟩ := hw
  have heq : new ++ w = (calls ++ .read room .again :: old) ++ w := by
    rw [← hnew, hcalls, hread, List.append_assoc, List.cons_append]
  rw [List.append_cancel_right heq, hlast]
  rfl

theorem tidies_checkKeepalive (hcb : Keeping (Tidies w) cb) (s : WsSession) : Tidies w s (checkKeepalive cb s) := by
  have hturn : Tidies w s s.keepaliveTurn.2 := by
    obtain ⟨clocks, log, h, -⟩ := s.keepaliveTurn_snd
    rw [h]
    exact Tidies.same rfl rfl rfl
  unfold checkKeepalive
  split
  · next h =>
    rw [h] at hturn
    exact hturn
  · next h =>
    rw [h] at hturn
    refine tidies_trans hturn ⟨keeps_teardown blocks_deaf (Keeping.deaf hcb) _ not_live_failed, fun _ ht => ?_⟩
    exact tidy_teardown hcb ht.suffix .failed
  · next h =>
    rw [h] at hturn
    exact tidies_trans hturn (tidies_trans (tidies_enqueueFrame hcb ..) (Tidies.same rfl rfl rfl))

theorem tidy_read {room : Nat} {r : ReadResult} (hwire : s'.wire = .read room r :: s.wire)
    (hpending : s'.pending = s.pending) (ht : Tidy w s) : Tidy w s' := by
  obtain ⟨new, hnew, htidy⟩ := ht
  refine ⟨.read room r :: new, by rw [hwire, hnew, List.cons_append], fun hdry => ?_⟩
  rw [hpending]
  exact htidy fun c hc => hdry c (List.mem_cons_of_mem _ hc)

theorem suffix_parseRest (hbasic : Keeping Basic cb) (s : WsSession) :
    s.wire <:+ (parseRest cb (setState cb s .opened).armPing).wire := by
  have henter : (s.enter .opened).wire = s.wire := by
    obtain ⟨log, h, -⟩ := s.enter_eq .opened
    rw [h]
  have hset : Basic (s.enter .opened) (setState cb s .opened) :=
    keeps_setState blocks_basic.above hbasic (blocks_basic.refl _)
  have harm : Basic (setState cb s .opened) (setState cb s .opened).armPing := by
    obtain ⟨clocks, t, h⟩ := (setState cb s .opened).armPing_eq
    rw [h]
    exact { Basic.refl (setState cb s .opened) with }
  have hbase := blocks_basic.trans hset harm
  have hsettled : (setState cb s .opened).armPing.state ≠ .upgrading := fun h =>
    absurd ((s.enter_state .opened).symm.trans (hbase.settled h)) nofun
  rw [← henter]
  generalize (setState cb s .opened).armPing = s' at hbase hsettled ⊢
  unfold parseRest
  split
  · exact hbase.wire.trans (basic_parseFrames hbasic (s'.note (.resumed s'.state)) hsettled).wire
  · exact hbase.wire

/-- Reading while upgrading. -/
theorem drained_driveUpgradeRead (hcb : Keeping (Tidies w) cb) (hbasic : Keeping Basic cb)
    (ht : Tidy w s) : Drained w (driveUpgradeRead cb s) := by
  unfold driveUpgradeRead
  split
  · next s₁ h =>
    obtain ⟨-, hreject | ⟨-, hread⟩ | ⟨bytes, hread, hne⟩⟩ := readResponse_calls h
    · cases hreject
    · have hpending : s₁.pending = s.pending := by
        obtain ⟨reads, input, recv, wire, faults, log, rfl, -, -⟩ := readResponse_snd h
        rfl
      exact drained_of_tidy (tidy_read hread hpending ht) (Deaf.refl s₁) ht.suffix hread
    · exact drained_of_wet ht.suffix hread List.suffix_rfl hne
  · next s₁ h =>
    exact drained_teardown (Keeping.deaf hcb) (ht.suffix.trans (readResponse_calls h).1) not_live_failed
  · next s₁ h =>
    obtain ⟨-, hreject | ⟨hwait, -⟩ | ⟨bytes, hread, hne⟩⟩ := readResponse_calls h
    · cases hreject
    · cases hwait
    · exact drained_of_wet ht.suffix hread (suffix_parseRest hbasic s₁) hne

/-- Reading while the connection is up. -/
theorem drained_driveFrameRead (hcb : Keeping (Tidies w) cb) (hbasic : Keeping Basic cb) (hs : Stowed s)
    (hup : s.state.Up) (ht : Tidy w s) : Drained w (checkKeepalive cb (driveFrameRead cb s)) := by
  have hdead {s₁ : WsSession} (hw : s.wire <:+ s₁.wire) {next : WsState} (hnext : ¬ next.Live) :
      Drained w (checkKeepalive cb (teardown cb s₁ next)) := by
    have hdown := keeps_teardown blocks_deaf (Keeping.deaf hcb) s₁ hnext
    have hkeep := keeps_checkKeepalive takes_deaf (Keeping.deaf hcb) (teardown cb s₁ next)
    exact drained_of_not_wired (ht.suffix.trans (hw.trans (hdown.suffix.trans hkeep.suffix)))
      fun h => not_wired_teardown (Keeping.deaf hcb) s₁ hnext (hkeep.wired h)
  unfold driveFrameRead
  split
  · next s₁ h =>
    have hread := (readFrames_calls h).2.1 rfl
    have hpending : s₁.pending = s.pending := by
      obtain ⟨reads, input, recv, wire, faults, hs₁, -⟩ := s.readFrames_snd
      rw [h] at hs₁
      change s₁ = _ at hs₁
      rw [hs₁]
    have hkeep := tidies_checkKeepalive hcb s₁
    exact drained_of_tidy (hkeep.tidy (hs.of_eq hpending) (tidy_read hread hpending ht)) hkeep.toDeaf ht.suffix hread
  · next h => exact hdead (readFrames_calls h).1 not_live_disconnected
  · next h => exact hdead (readFrames_calls h).1 not_live_failed
  · next s₁ h =>
    obtain ⟨bytes, hread, hne⟩ := (readFrames_calls h).2.2 rfl
    have hstate : s₁.state ≠ .upgrading := by
      obtain ⟨reads, input, recv, wire, faults, hs₁, -⟩ := s.readFrames_snd
      rw [h] at hs₁
      change s₁ = _ at hs₁
      rw [hs₁]
      exact hup.late.2
    have hparse := basic_parseFrames hbasic s₁ hstate
    have hkeep := keeps_checkKeepalive takes_basic hbasic (parseFrames cb s₁)
    exact drained_of_wet ht.suffix hread (hparse.wire.trans hkeep.wire) hne

theorem drained_onReady (hcb : Keeping (Tidies w) cb) (hbasic : Keeping Basic cb) (hs : Stowed s)
    (hw : w <:+ s.wire) : Drained w (onReady cb s) := by
  have htimeouts := keeps_checkTimeouts blocks_deaf (Keeping.deaf hcb) s
  have hs₁ := htimeouts.stowed hs
  have hw₁ := hw.trans htimeouts.suffix
  unfold onReady
  generalize checkTimeouts cb s = s₁ at hs₁ hw₁ ⊢
  dsimp only
  split
  · next hdead =>
    have hdue : Deaf s₁ s₁.reconnectDue.2 := by
      obtain ⟨clocks, delay, h⟩ := s₁.reconnectDue_snd
      rw [h]
      exact Deaf.same rfl rfl rfl
    have hreconnect : Deaf s₁ (maybeReconnect cb s₁) := by
      unfold maybeReconnect
      split
      · next h =>
        rw [h] at hdue
        exact hdue.trans (keeps_startConnect blocks_deaf dials_deaf (Keeping.deaf hcb) _)
      · next h =>
        rw [h] at hdue
        exact hdue
    refine drained_of_not_wired (hw₁.trans hreconnect.suffix) fun h => ?_
    have hlive : ¬ s₁.state.Live := fun hlive => hdead.elim hlive.1 hlive.2
    exact not_wired_of_not_live hlive (hreconnect.wired h)
  · split
    · next hconn =>
      obtain ⟨opens, hpoll⟩ := s₁.transportPollOpen_snd
      split
      · next s₂ h =>
        rw [h] at hpoll
        change s₂ = _ at hpoll
        rw [hpoll]
        refine drained_of_not_wired (hw₁.trans (List.suffix_cons _ _)) ?_
        change ¬ s₁.state.Wired
        rw [hconn]
        decide
      · next s₂ h =>
        rw [h] at hpoll
        change s₂ = _ at hpoll
        have hwire : s₂.wire = .pollOpen .opened :: s₁.wire := by rw [hpoll]
        exact drained_of_wet hw₁ hwire (suffix_sendUpgradeRequest hbasic s₂) fun h => h rfl
      · next s₂ h =>
        rw [h] at hpoll
        change s₂ = _ at hpoll
        rw [hpoll]
        refine drained_teardown (Keeping.deaf hcb) ?_ not_live_failed
        exact hw₁.trans (List.suffix_cons _ _)
      · next s₂ h =>
        rw [h] at hpoll
        change s₂ = _ at hpoll
        rw [hpoll]
        refine drained_teardown (Keeping.deaf hcb) ?_ not_live_failed
        exact hw₁.trans (List.suffix_cons _ _)
    · have hflush := keeps_flushPending blocks_deaf.toFlushes (Keeping.deaf hcb) s₁
      have ht := tidy_flushPending hcb hs₁ hw₁
      have hs₂ := hflush.stowed hs₁
      unfold drive
      split
      · exact drained_driveUpgradeRead hcb hbasic ht
      · next hup =>
        split
        · next h => exact drained_driveFrameRead hcb hbasic hs₂ h ht
        · next h => exact drained_of_not_wired ht.suffix (not_or.mpr ⟨hup, h⟩)

end Drained

end WsSession

/-- **`on_ready` honours the edge-triggered poller** if nothing arrives and no write is cut short: at the end of
every call of `on_ready` in every run whose transport calls are all dry, a session that sends and receives
has been pushed back by its last read, and by its last write if there is something left to send. -/
theorem onReady_drains (cfg : Config) (seed : UInt64) (autoReconnect : Bool) (depth : Nat) (calls : List (Api × Env))
    (env : Env) :
    let s := WsSession.run depth (fresh cfg seed autoReconnect) calls
    let s' := WsSession.call depth s (.onReady, env)
    let new := s'.wire.take (s'.wire.length - s.wire.length)
    (∀ c ∈ new, Dry c) → s'.state.Wired →
      lastRead new = some .again ∧ (0 < s'.pending.count → lastWrite new = some .again) := by
  intro s s' new hdry hwired
  have hs : Stowed s := WsSession.stows_run depth _ calls (stowed_of_empty rfl)
  obtain ⟨new', hnew', hdrained⟩ := WsSession.drained_onReady (w := s.wire) (WsSession.tidies_callbacks _ depth)
    (WsSession.basic_callbacks depth) (s := { s with env := env }) (hs.of_eq rfl) List.suffix_rfl
  have hnew : new = new' := by
    change List.take (s'.wire.length - s.wire.length) s'.wire = new'
    rw [show s'.wire = new' ++ s.wire from hnew', List.length_append, Nat.add_sub_cancel, List.take_left]
  rw [hnew] at hdry ⊢
  obtain ⟨hread, hwrite⟩ := hdrained hdry hwired
  exact ⟨hread, fun hpos => hwrite.resolve_left (Nat.pos_iff_ne_zero.mp hpos)⟩

/-- A frame waits in the ring, and the transport has no data and takes none. -/
theorem blockedSend_drained :
    let s := WsSession.run 1 (fresh plainConfig 1 false) (opening ++ [(.act (.send [0x41] false), { writes := [] })])
    let s' := WsSession.call 1 s (.onReady, {})
    let new := s'.wire.take (s'.wire.length - s.wire.length)
    0 < s'.pending.count ∧ lastRead new = some .again ∧ lastWrite new = some .again := by
  have hrun :
      let s := WsSession.run 1 (fresh plainConfig 1 false) (opening ++ [(.act (.send [0x41] false), { writes := [] })])
      let s' := WsSession.call 1 s (.onReady, {})
      let new := s'.wire.take (s'.wire.length - s.wire.length)
      (∀ c ∈ new, Dry c) ∧ s'.state.Wired ∧ 0 < s'.pending.count := by decide +kernel
  have hdrains := onReady_drains plainConfig 1 false 1 _ {} hrun.1 hrun.2.1
  exact ⟨hrun.2.2, hdrains.1, hdrains.2 hrun.2.2⟩

/-- Two messages have arrived. `on_ready` reads once, as much as its buffer takes, and returns without having
been pushed back, with the rest left in the transport. -/
theorem singleRead_not_drained :
    let s := WsSession.run 0 (fresh plainConfig 1 false) opening
    let s' := WsSession.call 0 s (.onReady, { reads := [.data [0x81, 0x01, 0x41], .data [0x81, 0x01, 0x42]] })
    let new := s'.wire.take (s'.wire.length - s.wire.length)
    s'.state = .opened ∧ s'.messages = [⟨.text, [0x41]⟩] ∧ s'.env.reads = [.data [0x81, 0x01, 0x42]] ∧
      ¬ (lastRead new = some .again) := by
  decide +kernel

end Lepton.Ws

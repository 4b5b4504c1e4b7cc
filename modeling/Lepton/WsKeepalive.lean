import Lepton.WsMarks

/-! The pong timeout. `check_keepalive` tears a session down at the time `t` only if a ping has been queued on the
connection `pong_timeout` before `t` and no pong has come since, in runs whose pings are all accepted by the queue:
the source starts to wait also for a ping that was refused. -/

namespace Lepton.Ws

variable {s s' : WsSession} {cb : Callbacks}

/-- The time of the last ping that the queue has accepted on this connection, if no pong has come since. -/
def awaited : List Mark → Option Int
  | [] => none
  | .ping t .ok :: _ => some t
  | .pong :: _ | .dial :: _ => none
  | _ :: marks => awaited marks

/-- If the last mark is a timeout, then that of a ping that was sent and that is not answered. -/
def Excused (timeout : Int) : List Mark → Prop
  | .lapse t :: before => ∃ sent ∈ awaited before, sent + timeout ≤ t
  | _ => True

instance (timeout : Int) : DecidablePred (Excused timeout)
  | [] => isTrue trivial
  | .lapse t :: before => inferInstanceAs (Decidable (∃ sent ∈ awaited before, sent + timeout ≤ t))
  | .dial :: _ | .redial _ :: _ | .ended _ :: _ | .opened :: _ | .ping _ _ :: _ | .pong :: _ | .frame _ _ :: _
  | .message _ _ :: _ | .consumed :: _ | .pool _ :: _ => isTrue trivial

/-- So it is with every timeout of the run. -/
def Justified (timeout : Int) (marks : List Mark) : Prop := ∀ past ∈ marks.tails, Excused timeout past

instance (timeout : Int) : DecidablePred (Justified timeout) :=
  fun marks => inferInstanceAs (Decidable (∀ past ∈ marks.tails, Excused timeout past))

theorem justified_cons {timeout : Int} {m : Mark} {before : List Mark} (hm : Excused timeout (m :: before))
    (hbefore : Justified timeout before) : Justified timeout (m :: before) := by
  unfold Justified
  rw [List.tails_cons]
  exact List.forall_mem_cons.mpr ⟨hm, hbefore⟩

/-- A pong is overdue on an upgraded connection only, and no write fails inside `close`. -/
def Ev.Checked : Ev → Prop
  | .pongLate st => st.Up
  | .written inClose answer => ¬ (inClose = true ∧ answer = .error)
  | _ => True

instance : DecidablePred Ev.Checked
  | .pongLate st => inferInstanceAs (Decidable st.Up)
  | .written inClose answer => inferInstanceAs (Decidable (¬ (inClose = true ∧ answer = .error)))
  | .changed _ | .response _ | .dialed _ | .added _ | .starved _ | .timedOut | .enqueued _ | .pingDue _ | .resumed _
  | .requested _ _ | .closing _ _ _ _ => isTrue trivial

/-- A ping is accepted by the queue. -/
def Mark.Taken : Mark → Prop
  | .ping _ answer => answer = .ok
  | _ => True

instance : DecidablePred Mark.Taken
  | .ping _ answer => inferInstanceAs (Decidable (answer = .ok))
  | .dial | .redial _ | .ended _ | .opened | .pong | .lapse _ | .frame _ _ | .message _ _ | .consumed
  | .pool _ => isTrue trivial

def Checked (s : WsSession) : Prop := (∀ e ∈ s.log, e.Checked) ∧ ∀ m ∈ s.marks, m.Taken

instance : DecidablePred Checked := fun _ => inferInstanceAs (Decidable (_ ∧ _))

/-- A session that waits for a pong has sent the ping, and its timer runs from then. -/
def Waits (s : WsSession) : Prop :=
  s.awaitingPong = true → ∃ sent, awaited s.marks = some sent ∧ s.pongDeadlineNs = sent + s.cfg.pongTimeoutNs

namespace WsSession

theorem checked_past (hlog : s.log <:+ s'.log) (hmarks : s.marks <:+ s'.marks) (h : Checked s') :
    Checked s :=
  ⟨fun e he => h.1 e (hlog.subset he), fun m hm => h.2 m (hmarks.subset hm)⟩

theorem checked_calm (h : Checked s) : .written true .error ∉ s.log :=
  fun he => h.1 _ he ⟨rfl, rfl⟩

theorem awaited_quiet (h : Quiet s s') : awaited s'.marks = awaited s.marks :=
  h.marks.congr fun _ _ => rfl

theorem Quiet.waits (h : Quiet s s') (hs : Waits s) : Waits s' := by
  intro hawaiting
  rw [awaited_quiet h, h.pongDeadlineNs, h.cfg]
  exact hs (h.awaitingPong ▸ hawaiting)

theorem waits_enter (s : WsSession) (st : WsState) (hs : Waits s) : Waits (s.enter st) := by
  obtain ⟨log, h, -⟩ := s.enter_eq st
  rw [h]
  exact hs

theorem calling_waits : Calling Checked fun s => s.state.Up → Waits s :=
  .of_up checked_past checked_calm (fun h hs => h.waits hs) (fun _ hs => hs) waits_enter

/-- A ping of the time `sent` stays unanswered by what the user does. -/
theorem calling_awaited (sent : Int) : Calling Checked fun s => s.state.Up → awaited s.marks = some sent :=
  .of_up checked_past checked_calm (fun h hs => (awaited_quiet h).trans hs) (fun _ hs => hs) fun s st hs => by
    rw [enter_marks]
    exact hs

theorem calling_justified (timeout : Int) : Calling Checked fun s => Justified timeout s.marks :=
  .of_marks (K := Justified timeout) checked_past (fun _ _ h => justified_cons trivial h)
    (fun _ h => justified_cons trivial h) fun _ _ h => justified_cons trivial h

/-- The invariant of the timer. -/
def Keeps (cfg : Config) (s : WsSession) : Prop :=
  (s.cfg = cfg ∧ Justified cfg.pongTimeoutNs s.marks) ∧ (s.state.Up → Waits s)

theorem marking_keeps (cfg : Config) : Marking (· ≠ .upgrading) Checked (Keeps cfg) where
  toCalling := ((Calling.of_cfg cfg checked_past).and (calling_justified cfg.pongTimeoutNs)).and calling_waits
  settled _ h := h
  up _ h := h.not_upgrading
  addMessage _ _ _ hs := ⟨⟨hs.1.1, justified_cons trivial hs.1.2⟩, hs.2⟩
  countFrame _ _ _ _ hs := ⟨⟨hs.1.1, justified_cons trivial hs.1.2⟩, hs.2⟩
  takePong _ hs := ⟨⟨hs.1.1, justified_cons trivial hs.1.2⟩, fun _ => nofun⟩
  consume _ _ hs := ⟨⟨hs.1.1, justified_cons trivial hs.1.2⟩, hs.2⟩

/-- A timeout is that of the ping that the session waits for. -/
theorem keeps_stale {cfg : Config} (h : s.keepaliveTurn = (.stale, s')) (hC : Checked s')
    (hs : Keeps cfg s) : Keeps cfg s' := by
  obtain ⟨clocks, log, heq, hlog⟩ := s.keepaliveTurn_snd
  rw [h] at heq hlog
  change s' = _ at heq
  have hup : s.state.Up := by
    refine hC.1 (.pongLate s.state) ?_
    rw [heq]
    rcases hlog with ⟨-, hfound⟩ | ⟨-, hfound⟩ | rfl
    · exact absurd hfound nofun
    · exact absurd rfl hfound
    · exact List.mem_cons_of_mem _ List.mem_cons_self
  rcases marks_keepaliveTurn h with ⟨hfound, -⟩ | ⟨t, -, hmarks, hawaiting, hlate⟩ | ⟨t, answer, hfound, -⟩
  · exact absurd hfound nofun
  · obtain ⟨⟨hcfg, hjust⟩, hwaits⟩ := hs
    obtain ⟨sent, hsent, hdeadline⟩ := hwaits hup hawaiting
    have hdue : sent + cfg.pongTimeoutNs ≤ t := by
      rw [← hcfg, ← hdeadline]
      exact hlate
    rw [heq, hmarks]
    exact ⟨⟨hcfg, justified_cons ⟨sent, hsent, hdue⟩ hjust⟩, fun _ _ => ⟨sent, hsent, hdeadline⟩⟩
  · exact absurd hfound nofun

/-- A ping that is due is marked with what the queue says to it. -/
theorem awaited_due {t : Int} (h : s.keepaliveTurn = (.due t, s')) (hC : Checked s') :
    awaited s'.marks = some t ∧ ∀ timeout, Justified timeout s.marks → Justified timeout s'.marks := by
  rcases marks_keepaliveTurn h with ⟨hfound, -⟩ | ⟨t', hfound, -⟩ | ⟨t', answer, hfound, hmarks⟩
  · exact absurd hfound nofun
  · exact absurd hfound nofun
  · cases hfound
    obtain rfl : answer = .ok := hC.2 (.ping t answer) (by rw [hmarks]; exact List.mem_cons_self)
    rw [hmarks]
    exact ⟨rfl, fun _ hjust => justified_cons trivial hjust⟩

theorem holds_check (hcb : Keeping (Undergoes Checked) cb) (cfg : Config) (s : WsSession) :
    Holds Checked (Keeps cfg) s (checkKeepalive cb s) := by
  have hM := (marking_keeps cfg).toCalling
  have hframe := s.frame_keepaliveTurn
  unfold checkKeepalive
  split
  · next h => exact hM.still (quiet_keepaliveTurn h)
  · next s₁ h =>
    rw [h] at hframe
    have hstale : Holds Checked (Keeps cfg) s s₁ := ⟨hframe.suffix, hframe.marks, fun hC => keeps_stale h hC⟩
    exact hM.trans hstale (keeps_teardown hM.blocks (hM.keeping hcb) s₁ not_live_failed)
  · next t s₁ h =>
    rw [h] at hframe
    have hsent : Undergoes Checked s₁ (enqueueFrame cb s₁ .ping [] true).2 :=
      keeps_enqueueFrame (blocks_undergoes _).toFlushes hcb (undergoes_still (s₁.quiet_queueFrame .ping [] true))
    generalize (enqueueFrame cb s₁ .ping [] true).2 = s₂ at hsent ⊢
    have hkept := hsent _ ((Calling.of_cfg cfg checked_past).and (calling_justified cfg.pongTimeoutNs))
    have hping := hsent _ (calling_awaited t)
    refine ⟨hframe.suffix.trans hkept.log, hframe.marks.trans hkept.marks, fun hC hs => ?_⟩
    -- the ping may be sent, or fail and take the connection down; it is not answered meanwhile
    obtain ⟨hawaited, hjust⟩ := awaited_due h (checked_past hkept.log hkept.marks hC)
    have hkeeps := hkept.inv hC ⟨hframe.cfg.trans hs.1.1, hjust _ hs.1.2⟩
    exact ⟨hkeeps, fun hup _ => ⟨t, hping.inv hC (fun _ => hawaited) hup, rfl⟩⟩

theorem timing_keeps (cfg : Config) : Timing (· ≠ .upgrading) Checked (Keeps cfg) where
  toMarking := marking_keeps cfg
  resumed _ hne _ := hne
  reconnectDue s _ hs := by
    obtain ⟨clocks, delay, heq⟩ := s.reconnectDue_snd
    rcases s.marks_reconnectDue with ⟨-, hmarks, -⟩ | ⟨t, -, -, hmarks, -⟩
    · rw [heq, hmarks]
      exact hs
    · rw [heq, hmarks]
      exact ⟨⟨hs.1.1, justified_cons trivial hs.1.2⟩, hs.2⟩
  upgrade s _ hs := by
    obtain ⟨log, h, -⟩ := s.enter_eq .upgrading
    rw [h]
    exact ⟨hs.1, fun hup => absurd (show WsState.upgrading.Up from hup) (by decide)⟩
  opens {s s' s''} hs h hset hC ht := by
    have harm := s''.frame_armPing
    have hcalling := (Calling.of_cfg cfg checked_past).and (calling_justified cfg.pongTimeoutNs)
    have haccept : s'.cfg = cfg ∧ Justified cfg.pongTimeoutNs s'.marks := by
      obtain ⟨-, -, -, hcfg, -⟩ := readResponse_fields h
      rw [marks_accepted h]
      exact ⟨hcfg.trans ht.1.1, justified_cons trivial (justified_cons trivial ht.1.2)⟩
    have hentered : (s'.enter .opened).cfg = cfg ∧ Justified cfg.pongTimeoutNs (s'.enter .opened).marks := by
      obtain ⟨log, heq, -⟩ := s'.enter_eq .opened
      rw [heq]
      exact haccept
    have hopened := (hset _ hcalling).inv (checked_past harm.suffix harm.marks hC) hentered
    obtain ⟨clocks, t, heq⟩ := s''.armPing_eq
    rw [heq]
    exact ⟨hopened, fun _ => nofun⟩
  keepalive hcb := holds_check hcb cfg

end WsSession

/-- **A pong timeout follows a ping.** In every run, the keepalive tears the session down at `t` only if a ping was
accepted into the output queue of this connection at a time `sent ≤ t - pong_timeout` and no pong has come since,
provided that every ping is accepted, that the timeout is raised on an upgraded connection and that no write fails
inside `close`. -/
theorem timeouts_justified (cfg : Config) (seed : UInt64) (autoReconnect : Bool) (depth : Nat) (calls : List (Api × Env))
    (hchecked : Checked (WsSession.run depth (fresh cfg seed autoReconnect) calls)) :
    Justified cfg.pongTimeoutNs (WsSession.run depth (fresh cfg seed autoReconnect) calls).marks := by
  have hnone : Justified cfg.pongTimeoutNs [] := List.forall_mem_singleton.mpr trivial
  have hstart : WsSession.Keeps cfg (fresh cfg seed autoReconnect) := ⟨⟨rfl, hnone⟩, fun _ => nofun⟩
  exact ((WsSession.timing_keeps cfg).runs depth _ calls).inv hchecked hstart |>.1.2

/-- Pings every 10 ns, and a pong within 20 ns. -/
def pingConfig : Config :=
  { plainConfig with pingIntervalNs := 10, pongTimeoutNs := 20 }

/-- A ping is due after 10 ns, and its pong is missing 20 ns later. -/
def silence (acquires : List (Option Nat)) : List (Api × Env) :=
  opening ++
    [(.onReady, { reads := [.again], clocks := [10], acquires := acquires, writes := [.accepted 64] }),
     (.onReady, { reads := [.again], clocks := [30] })]

theorem silence_justified :
    let s := WsSession.run 0 (fresh pingConfig 1 false) (silence [])
    s.state = .failed ∧ Mark.lapse 30 ∈ s.marks ∧ Justified pingConfig.pongTimeoutNs s.marks :=
  ⟨by decide +kernel, by decide +kernel, timeouts_justified pingConfig 1 false 0 _ (by decide +kernel)⟩

/-- The pool has no buffer for the ping: it is never queued, and the session times out all the same. -/
theorem starved_ping_not_justified :
    let s := WsSession.run 0 (fresh pingConfig 1 false) (silence [none])
    s.state = .failed ∧ ¬ Justified pingConfig.pongTimeoutNs s.marks := by
  decide +kernel

end Lepton.Ws

import Lepton.WsMarks

/-! The pace of the pings. `check_keepalive` sends a ping only when the one before it since Open has been answered and
`ping_interval` has passed since, in every run: also when a ping is refused by the queue, when sending it takes the
connection down, and when callbacks connect anew meanwhile. -/

namespace Lepton.Ws

variable {s s' : WsSession} {cb : Callbacks}

/-- The time of the last ping since the session last dialed or opened, and whether a pong has come since. -/
def lastPing : List Mark → Option (Int × Bool)
  | [] | .dial :: _ | .opened :: _ => none
  | .ping t _ :: _ => some (t, false)
  | .pong :: before => (lastPing before).map fun p => (p.1, true)
  | _ :: before => lastPing before

/-- If the last mark is a ping, then the one before it is answered and at least `interval` old. -/
def InPace (interval : Int) : List Mark → Prop
  | .ping t _ :: before => ∀ p ∈ lastPing before, p.2 = true ∧ p.1 + interval ≤ t
  | _ => True

/-- So it is with every ping of the run. -/
def Paced (interval : Int) (marks : List Mark) : Prop := ∀ past ∈ marks.tails, InPace interval past

theorem paced_cons {interval : Int} {m : Mark} {before : List Mark} (hm : InPace interval (m :: before))
    (hbefore : Paced interval before) : Paced interval (m :: before) := by
  unfold Paced
  rw [List.tails_cons]
  exact List.forall_mem_cons.mpr ⟨hm, hbefore⟩

/-- The timer runs from the last ping, and a session that does not wait has its answer. -/
def Timed (s : WsSession) : Prop :=
  ∀ p ∈ lastPing s.marks, s.nextPingAtNs = p.1 + s.cfg.pingIntervalNs ∧ (s.awaitingPong = false → p.2 = true)

theorem Timed.congr (hs : Timed s) (hmarks : lastPing s'.marks = lastPing s.marks)
    (hcfg : s'.cfg = s.cfg) (hnext : s'.nextPingAtNs = s.nextPingAtNs) (hawaiting : s'.awaitingPong = s.awaitingPong) :
    Timed s' := by
  intro p hp
  rw [hmarks] at hp
  rw [hcfg, hnext, hawaiting]
  exact hs p hp

namespace WsSession

theorem timed_of_none (h : lastPing s.marks = none) : Timed s := by
  intro p hp
  rw [h] at hp
  cases hp

theorem lastPing_pooled {old new : List Mark} (h : Pooled old new) : lastPing new = lastPing old :=
  h.congr fun _ _ => rfl

theorem timed_shutDown (hs : Timed s) (next : WsState) : Timed (s.shutDown next) := by
  obtain ⟨clocks, due, heq⟩ := s.shutDown_eq next
  have hmarks : lastPing (s.shutDown next).marks = lastPing s.marks := by
    obtain ⟨marks, hpooled, hmarks⟩ := s.marks_shutDown next
    rw [← lastPing_pooled hpooled]
    rcases hmarks with ⟨hmarks, -⟩ | ⟨t, hmarks, -⟩
    · rw [hmarks]
    · rw [hmarks]
      rfl
  refine hs.congr hmarks ?_ ?_ ?_
  · rw [heq]
    rfl
  · rw [heq]
    rfl
  · rw [heq]
    rfl

theorem timed_enter (hs : Timed s) (st : WsState) : Timed (s.enter st) := by
  obtain ⟨log, heq, -⟩ := s.enter_eq st
  rw [heq]
  exact hs

/-- With an attempt to connect the pings start anew. -/
theorem timed_tryDial {how : Dialing} (h : s.tryDial = (how, s')) : Timed s' := by
  have hmarks := s.marks_tryDial
  rw [h] at hmarks
  exact timed_of_none (lastPing_pooled hmarks)

theorem calling_timed : Calling (fun _ => True) Timed where
  past _ _ h := h
  quiet h hs := hs.congr (lastPing_pooled h.marks) h.cfg h.nextPingAtNs h.awaitingPong
  down _ next _ _ hs := timed_enter (timed_shutDown hs next) next
  starved h _ _ := timed_enter (timed_tryDial h) _
  refused h _ _ := timed_enter (timed_shutDown (timed_tryDial h) _) _
  dialed h _ _ := timed_enter (timed_tryDial h) _
  auto _ hs := hs
  closing _ _ _ _ hsent := timed_enter hsent _

theorem calling_paced (interval : Int) : Calling (fun _ => True) fun s => Paced interval s.marks :=
  .of_marks (K := Paced interval) (fun _ _ h => h) (fun _ _ h => paced_cons trivial h) (fun _ h => paced_cons trivial h)
    fun _ _ h => paced_cons trivial h

/-- What the user does sends no ping and answers none. -/
theorem calling_lastPing (Q : Int × Bool → Prop) : Calling (fun _ => True) fun s => ∀ p ∈ lastPing s.marks, Q p :=
  .of_marks (K := fun marks => ∀ p ∈ lastPing marks, Q p) (fun _ _ h => h) (fun _ _ h => h) (fun _ _ => nofun)
    fun _ _ h => h

/-- The invariant of the pace. -/
def InTime (cfg : Config) (s : WsSession) : Prop :=
  (s.cfg = cfg ∧ Paced cfg.pingIntervalNs s.marks) ∧ Timed s

theorem calling_inTime (cfg : Config) : Calling (fun _ => True) (InTime cfg) :=
  ((Calling.of_cfg cfg fun _ _ h => h).and (calling_paced cfg.pingIntervalNs)).and calling_timed

theorem timed_takePong (hs : Timed s) : Timed s.takePong := by
  intro p hp
  obtain ⟨q, hq, rfl⟩ := Option.mem_map.mp (show p ∈ (lastPing s.marks).map _ from hp)
  exact ⟨(hs q hq).1, fun _ => rfl⟩

theorem marking_inTime (cfg : Config) : Marking (· ≠ .upgrading) (fun _ => True) (InTime cfg) where
  toCalling := calling_inTime cfg
  settled _ h := h
  up _ h := h.not_upgrading
  addMessage _ _ _ hs := ⟨⟨hs.1.1, paced_cons trivial hs.1.2⟩, hs.2⟩
  countFrame _ _ _ _ hs := ⟨⟨hs.1.1, paced_cons trivial hs.1.2⟩, hs.2⟩
  takePong _ hs := ⟨⟨hs.1.1, paced_cons trivial hs.1.2⟩, timed_takePong hs.2⟩
  consume _ _ hs := ⟨⟨hs.1.1, paced_cons trivial hs.1.2⟩, hs.2⟩

/-- A ping is due when the timer has run out and no pong is awaited. -/
theorem ping_due {t : Int} (h : s.keepaliveTurn = (.due t, s')) :
    s.awaitingPong = false ∧ s.nextPingAtNs ≤ t ∧ s'.cfg = s.cfg ∧ ∃ answer, s'.marks = .ping t answer :: s.marks := by
  unfold keepaliveTurn at h
  split at h
  · cases h
  · obtain ⟨clocks, hnow⟩ := s.now_snd
    dsimp only at h
    rw [hnow] at h
    split at h
    · split at h <;> cases h
    · next hawaiting =>
      split at h
      · next hdue =>
        cases h
        exact ⟨Bool.eq_false_iff.mpr hawaiting, hdue, rfl, _, rfl⟩
      · cases h

theorem inTime_stale {cfg : Config} (h : s.keepaliveTurn = (.stale, s')) (hs : InTime cfg s) :
    InTime cfg s' := by
  obtain ⟨clocks, log, heq, -⟩ := s.keepaliveTurn_snd
  rw [h] at heq
  change s' = _ at heq
  rcases marks_keepaliveTurn h with ⟨hfound, -⟩ | ⟨t, -, hmarks, -⟩ | ⟨t, answer, hfound, -⟩
  · exact absurd hfound nofun
  · rw [heq, hmarks]
    exact ⟨⟨hs.1.1, paced_cons trivial hs.1.2⟩, hs.2⟩
  · exact absurd hfound nofun

theorem holds_inTime_check (hcb : Keeping (Undergoes fun _ => True) cb) (cfg : Config) (s : WsSession) :
    Holds (fun _ => True) (InTime cfg) s (checkKeepalive cb s) := by
  have hM := calling_inTime cfg
  have hframe := s.frame_keepaliveTurn
  unfold checkKeepalive
  split
  · next h => exact hM.still (quiet_keepaliveTurn h)
  · next s₁ h =>
    rw [h] at hframe
    have hstale : Holds (fun _ => True) (InTime cfg) s s₁ := ⟨hframe.suffix, hframe.marks, fun _ => inTime_stale h⟩
    exact hM.trans hstale (keeps_teardown hM.blocks (hM.keeping hcb) s₁ not_live_failed)
  · next t s₁ h =>
    rw [h] at hframe
    have hsent : Undergoes (fun _ => True) s₁ (enqueueFrame cb s₁ .ping [] true).2 :=
      keeps_enqueueFrame (blocks_undergoes _).toFlushes hcb (undergoes_still (s₁.quiet_queueFrame .ping [] true))
    generalize (enqueueFrame cb s₁ .ping [] true).2 = s₂ at hsent ⊢
    have hkept := hsent _ ((Calling.of_cfg cfg fun _ _ h => h).and (calling_paced cfg.pingIntervalNs))
    have hping := hsent _ (calling_lastPing (· = (t, false)))
    refine ⟨hframe.suffix.trans hkept.log, hframe.marks.trans hkept.marks, fun _ hs => ?_⟩
    obtain ⟨hquiet, hdue, hcfg, answer, hmarks⟩ := ping_due h
    -- the timer tells how old the last ping is
    have hpace : InPace cfg.pingIntervalNs (.ping t answer :: s.marks) := by
      intro p hp
      obtain ⟨hnext, hanswered⟩ := hs.2 p hp
      rw [hs.1.1] at hnext
      exact ⟨hanswered hquiet, by omega⟩
    have hkeeps := hkept.inv trivial ⟨hcfg.trans hs.1.1, by rw [hmarks]; exact paced_cons hpace hs.1.2⟩
    have hlast := hping.inv trivial (by rw [hmarks]; exact fun p hp => (Option.mem_some_iff.mp hp).symm)
    refine ⟨hkeeps, fun p hp => ?_⟩
    rw [hlast p hp]
    exact ⟨rfl, nofun⟩

theorem timing_inTime (cfg : Config) : Timing (· ≠ .upgrading) (fun _ => True) (InTime cfg) where
  toMarking := marking_inTime cfg
  resumed _ hne _ := hne
  reconnectDue s _ hs := by
    obtain ⟨clocks, delay, heq⟩ := s.reconnectDue_snd
    rcases s.marks_reconnectDue with ⟨-, hmarks, -⟩ | ⟨t, -, -, hmarks, -⟩
    · rw [heq, hmarks]
      exact hs
    · rw [heq, hmarks]
      exact ⟨⟨hs.1.1, paced_cons trivial hs.1.2⟩, hs.2⟩
  upgrade s _ hs := by
    obtain ⟨log, h, -⟩ := s.enter_eq .upgrading
    rw [h]
    exact hs
  opens {s s' s''} _ h hset _ hs := by
    have hcalling := (Calling.of_cfg cfg fun _ _ h => h).and (calling_paced cfg.pingIntervalNs)
    obtain ⟨log, hentered, -⟩ := s'.enter_eq .opened
    have hmarks := marks_accepted h
    have haccept : s'.cfg = cfg ∧ Paced cfg.pingIntervalNs s'.marks := by
      obtain ⟨-, -, -, hcfg, -⟩ := readResponse_fields h
      rw [hmarks]
      exact ⟨hcfg.trans hs.1.1, paced_cons trivial (paced_cons trivial hs.1.2)⟩
    have hopened := (hset _ hcalling).inv trivial (by rw [hentered]; exact haccept)
    -- no ping is sent before the timer is set
    have hnone := (hset _ (calling_lastPing fun _ => False)).inv trivial (by rw [hentered]; rw [hmarks]; exact nofun)
    obtain ⟨clocks, t, heq⟩ := s''.armPing_eq
    rw [heq]
    exact ⟨hopened, fun p hp => (hnone p hp).elim⟩
  keepalive hcb := holds_inTime_check hcb cfg

end WsSession

/-- **Pings are paced.** In every run, with callbacks nested to any depth and over any clock, a ping is sent only when the
one before it since the session dialed or opened has been answered, and at least `ping_interval` after it. -/
theorem pings_paced (cfg : Config) (seed : UInt64) (autoReconnect : Bool) (depth : Nat) (calls : List (Api × Env)) :
    Paced cfg.pingIntervalNs (WsSession.run depth (fresh cfg seed autoReconnect) calls).marks := by
  have hnone : Paced cfg.pingIntervalNs [] := List.forall_mem_singleton.mpr trivial
  have hstart : WsSession.InTime cfg (fresh cfg seed autoReconnect) := ⟨⟨rfl, hnone⟩, nofun⟩
  exact ((WsSession.timing_inTime cfg).runs depth _ calls).inv trivial hstart |>.1.2

end Lepton.Ws

import Lepton.WsTimers

/-! No session stalls. A connection that is being set up has its deadline, an upgraded one its pings, and one that has
ended the time of the next attempt. So however the peer, the pool and the callbacks behave, a session that is polled
does not stay as it is for longer than the configuration says. -/

namespace Lepton.Ws

variable {s s' : WsSession}

theorem WsState.Live.early {st : WsState} (h : st.Live) (hup : ¬ st.Up) : st.Early := by
  cases st with
  | connecting => exact Or.inl rfl
  | upgrading => exact Or.inr rfl
  | opened => exact absurd (Or.inl rfl) hup
  | closing => exact absurd (Or.inr rfl) hup
  | disconnected => exact absurd rfl h.1
  | failed => exact absurd rfl h.2

namespace WsSession

section Polls

variable {cfg : Config} {T : Int} {cb : Callbacks}

/-- At the time `t` the timers have run out. -/
structure Due (t : Int) (s : WsSession) : Prop where
  connect : s.connectDeadlineNs ≤ t
  armed : s.state.Live → 0 < s.connectDeadlineNs
  reconnect : s.reconnectAtNs ≤ t
  ping : s.awaitingPong = false → s.nextPingAtNs ≤ t

/-- No time is gained without a turn. -/
theorem Due.unturned {t : Int} (hs : Due t s) (h : Unturned s s') : Due t s' where
  connect := h.connect ▸ hs.connect
  armed hlive := h.connect ▸ hs.armed (h.state ▸ hlive)
  reconnect := h.reconnect ▸ hs.reconnect
  ping hrests := (h.rests hrests).2 ▸ hs.ping (h.rests hrests).1

theorem checkTimeouts_settled (h : ¬ s.state.Early) : checkTimeouts cb s = s := by
  have hpassed : s.deadlinePassed = (false, s) := if_neg fun hdue => h hdue.1
  unfold checkTimeouts
  rw [hpassed]

theorem keepaliveTurn_fst (hping : 0 < s.cfg.pingIntervalNs) :
    s.keepaliveTurn.1 =
      if s.awaitingPong then
        if 0 < s.cfg.pongTimeoutNs ∧ s.pongDeadlineNs ≤ s.env.clocks.headD 0 then .stale else .idle
      else if s.nextPingAtNs ≤ s.env.clocks.headD 0 then .due (s.env.clocks.headD 0) else .idle := by
  unfold keepaliveTurn
  rw [if_neg (Int.not_le.mpr hping), now]
  dsimp only [note]
  split
  · split
    · rfl
    · rfl
  · split
    · rfl
    · rfl

variable (hT : 0 ≤ T) (hcb : Keeping (Untimed cfg T) cb)

include hcb

theorem turns_setState (s : WsSession) (st : WsState) :
    s.turns ≤ (setState cb s st).turns ∧ (st ≠ s.state → s.turns < (setState cb s st).turns) := by
  unfold setState
  split
  · next hst => exact ⟨Nat.le_refl _, fun hne => absurd hst hne⟩
  · next hst =>
    have henter := turns_enter hst
    have hcall := (hcb.onState (s.enter st)).turns
    exact ⟨by omega, fun _ => by omega⟩

include hT

/-- The end of a connection. -/
theorem turns_teardown (s : WsSession) {next : WsState} (hnext : ¬ next.Live) :
    s.turns ≤ (teardown cb s next).turns ∧ (s.state.Live → s.turns < (teardown cb s next).turns) := by
  have hdown : s.turns ≤ (s.shutDown next).turns := (untimed_shutDown (T := T) hT s next : Untimed cfg T _ _).turns
  have hstate : (s.shutDown next).state = s.state := by
    obtain ⟨clocks, t, h⟩ := s.shutDown_eq next
    rw [h]
    rfl
  obtain ⟨hle, hlt⟩ := turns_setState hcb (s.shutDown next) next
  refine ⟨hdown.trans hle, fun hlive => hdown.trans_lt (hlt fun heq => hnext ?_)⟩
  rw [heq, hstate]
  exact hlive

/-- A check when a ping is due: from then on the session waits for a pong. -/
theorem checkKeepalive_waits
    (hping : 0 < s.cfg.pingIntervalNs) (hdue : s.awaitingPong = false → s.nextPingAtNs ≤ s.env.clocks.headD 0)
    (hturns : (checkKeepalive cb s).turns = s.turns) : (checkKeepalive cb s).awaitingPong = true := by
  cases hwaits : s.awaitingPong with
  | true => exact (((ticks_checkKeepalive hT hcb s).unturned hturns).waits hwaits).1
  | false =>
    have hfound := keepaliveTurn_fst hping
    rw [hwaits, if_neg (by decide), if_pos (hdue hwaits)] at hfound
    unfold checkKeepalive
    split
    · next h => cases (congrArg Prod.fst h).symm.trans hfound
    · next h => cases (congrArg Prod.fst h).symm.trans hfound
    · rfl

/-- A check past the deadline of a pong. -/
theorem checkKeepalive_lapses
    (hping : 0 < s.cfg.pingIntervalNs) (hpong : 0 < s.cfg.pongTimeoutNs) (hs : s.state.Live)
    (hwaits : s.awaitingPong = true) (hlate : s.pongDeadlineNs ≤ s.env.clocks.headD 0) :
    s.turns < (checkKeepalive cb s).turns := by
  have hfound := keepaliveTurn_fst hping
  rw [hwaits, if_pos rfl, if_pos ⟨hpong, hlate⟩] at hfound
  have hstate := s.frame_keepaliveTurn.state
  unfold checkKeepalive
  split
  · next h => cases (congrArg Prod.fst h).symm.trans hfound
  · next s₁ h =>
    rw [h] at hstate
    have hturn : Ticks cfg T s s₁ := (ticks_keepaliveTurn h).1
    exact hturn.turns.trans_lt ((turns_teardown hT hcb s₁ not_live_failed).2 (hstate ▸ hs))
  · next h => cases (congrArg Prod.fst h).symm.trans hfound

variable (hconnect : 0 < cfg.connectTimeoutNs)

include hconnect

theorem turns_startConnect (s : WsSession) : s.turns < (startConnect cb s).turns := by
  unfold startConnect
  split
  · next h => exact (untimed_tryDial hT hconnect h).2.1.trans_le (turns_setState hcb _ _).1
  · next h => exact (untimed_tryDial hT hconnect h).2.1.trans_le (turns_teardown hT hcb _ not_live_failed).1
  · next s₁ h =>
    rw [(setState cb s₁ .connecting).lull_register.turns]
    exact (untimed_tryDial hT hconnect h).2.1.trans_le (turns_setState hcb _ _).1

/-- A poll past the time of the next attempt. -/
theorem onReady_reconnect (hs : ¬ s.state.Live) (hauto : s.autoReconnect = true)
    (hdue : s.reconnectAtNs ≤ s.env.clocks.headD 0) : s.turns < (onReady cb s).turns := by
  have hdown : s.state = .disconnected ∨ s.state = .failed := by
    unfold WsState.Live at hs
    tauto
  have hsettled : checkTimeouts cb s = s := checkTimeouts_settled (not_early_of_not_live hs)
  have hgo : s.reconnectDue.1 = true := by
    unfold reconnectDue
    rw [if_neg (by rw [hauto]; decide), now]
    dsimp only
    rw [if_neg (Int.not_lt.mpr hdue)]
  have hturns : s.turns ≤ s.reconnectDue.2.turns := (s.ticks_reconnectDue : Ticks cfg T _ _).turns
  unfold onReady
  rw [hsettled]
  dsimp only
  rw [if_pos hdown]
  unfold maybeReconnect
  generalize s.reconnectDue = due at hgo hturns
  obtain ⟨ok, s₁⟩ := due
  cases hgo
  exact hturns.trans_lt (turns_startConnect hT hcb hconnect s₁)

variable (hbasic : Keeping Basic cb)

include hbasic

/-- A poll past the deadline of a connection that is being set up. -/
theorem onReady_deadline (hs : s.state.Early) (harmed : 0 < s.connectDeadlineNs)
    (hlate : s.connectDeadlineNs ≤ s.env.clocks.headD 0) : s.turns < (onReady cb s).turns := by
  have hB : Blocks (Untimed cfg T) := blocks_untimed hT
  have hrest := keeps_checked hB ((drives_ticks hT hconnect).polls hB) hcb hbasic s
  refine Nat.lt_of_lt_of_le ?_ hrest.turns
  have hpassed : s.deadlinePassed = (true, s.now.2.note .timedOut) := by
    unfold deadlinePassed
    rw [if_pos ⟨hs, harmed⟩, now]
    exact if_pos hlate
  have hlive : (s.now.2.note .timedOut).state.Live := by
    rw [now]
    by_contra hdown
    exact not_early_of_not_live hdown hs
  have hturns : (s.now.2.note .timedOut).turns = s.turns := by
    rw [now]
    rfl
  unfold checkTimeouts
  rw [hpassed, ← hturns]
  exact (turns_teardown hT hcb _ not_live_failed).2 hlive

/-- A poll of an upgraded connection ends with the check of the keepalive, which is the first to look at the clock,
unless the session takes a turn before. -/
theorem onReady_checks (hs : s.state.Up) :
    ∃ s', Untimed cfg T s s' ∧ s'.turns ≤ (onReady cb s).turns ∧
      (s'.turns = s.turns → onReady cb s = checkKeepalive cb s') := by
  have hB : Blocks (Untimed cfg T) := blocks_untimed hT
  have hP := (drives_ticks hT hconnect).polls hB
  have hdrive : onReady cb s = drive cb (flushPending cb s) := by
    have hsettled : checkTimeouts cb s = s := checkTimeouts_settled hs.not_early
    unfold onReady
    rw [hsettled]
    dsimp only
    rw [if_neg fun hdown => hdown.elim hs.live.1 hs.live.2, if_neg fun hearly => hs.not_early (Or.inl hearly)]
  have hflush : Untimed cfg T s (flushPending cb s) := keeps_flushPending hB.toFlushes hcb s
  rw [hdrive]
  generalize flushPending cb s = s₁ at hflush ⊢
  by_cases hturns : s₁.turns = s.turns
  · have hup : s₁.state.Up := (hflush.unturned hturns).state ▸ hs
    have hread : Untimed cfg T s₁ (driveFrameRead cb s₁) :=
      keeps_driveFrameRead hB.above hcb hup (ReadsFrames.of_turn hB hB.above s₁.lull_readFrames.untimed)
        fun s hs => untimed_parseFrames hT hcb hbasic s (WsState.Up.not_upgrading hs)
    have hcheck : drive cb s₁ = checkKeepalive cb (driveFrameRead cb s₁) := by
      unfold drive
      rw [if_neg hup.not_upgrading]
      exact if_pos hup
    rw [hcheck]
    exact ⟨_, hflush.trans hread, (ticks_checkKeepalive hT hcb _).turns, fun _ => rfl⟩
  · exact ⟨s₁, hflush, (keeps_drive hB hP hcb hbasic s₁).turns, fun h => absurd h hturns⟩

theorem onReady_waits (hs : s.state.Up)
    (hping : 0 < s.cfg.pingIntervalNs) (hdue : s.awaitingPong = false → s.nextPingAtNs ≤ s.env.clocks.headD 0)
    (hturns : (onReady cb s).turns = s.turns) : (onReady cb s).awaitingPong = true := by
  obtain ⟨s', hto, hle, hcheck⟩ := onReady_checks hT hcb hconnect hbasic hs
  have hsame : s'.turns = s.turns := Nat.le_antisymm (hle.trans hturns.le) hto.turns
  have hkept := hto.unturned hsame
  rw [hcheck hsame] at hturns ⊢
  refine checkKeepalive_waits hT hcb (hkept.cfg ▸ hping) (fun hrests => ?_) (hturns.trans hsame.symm)
  obtain ⟨hrested, hnext⟩ := hkept.rests hrests
  rw [hnext, hto.unread hsame hs]
  exact hdue hrested

theorem onReady_lapses (hs : s.state.Up)
    (hping : 0 < s.cfg.pingIntervalNs) (hpong : 0 < s.cfg.pongTimeoutNs) (hwaits : s.awaitingPong = true)
    (hlate : s.pongDeadlineNs ≤ s.env.clocks.headD 0) : s.turns < (onReady cb s).turns := by
  obtain ⟨s', hto, hle, hcheck⟩ := onReady_checks hT hcb hconnect hbasic hs
  rcases Nat.lt_or_eq_of_le hto.turns with hturn | hsame
  · exact hturn.trans_le hle
  · have hkept := hto.unturned hsame.symm
    obtain ⟨hwaiting, hdeadline⟩ := hkept.waits hwaits
    rw [hcheck hsame.symm, hsame]
    refine checkKeepalive_lapses hT hcb (hkept.cfg ▸ hping) (hkept.cfg ▸ hpong) (hkept.state ▸ hs.live) hwaiting ?_
    rw [hdeadline, hto.unread hsame.symm hs]
    exact hlate

/-- **A poll when the timers have run out.** If the session takes no turn, it has sent a ping. -/
theorem onReady_due (hping : 0 < s.cfg.pingIntervalNs)
    (hdue : Due (s.env.clocks.headD 0) s) (hactive : s.state.Live ∨ s.autoReconnect = true)
    (hturns : (onReady cb s).turns = s.turns) : s.state.Up ∧ (onReady cb s).awaitingPong = true := by
  by_cases hup : s.state.Up
  · exact ⟨hup, onReady_waits hT hcb hconnect hbasic hup hping hdue.ping hturns⟩
  · refine absurd hturns (Nat.ne_of_gt ?_)
    by_cases hlive : s.state.Live
    · have hearly : s.state.Early := hlive.early hup
      exact onReady_deadline hT hcb hconnect hbasic hearly (hdue.armed hlive) hdue.connect
    · exact onReady_reconnect hT hcb hconnect hlive (hactive.resolve_left hlive) hdue.reconnect

end Polls

section Calls

variable {cfg : Config} (hconnect : 0 < cfg.connectTimeoutNs)

include hconnect

theorem call_due (depth : Nat) {env : Env} (hping : 0 < s.cfg.pingIntervalNs)
    (hdue : Due (env.clocks.headD 0) s) (hactive : s.state.Live ∨ s.autoReconnect = true)
    (hturns : (call depth s (.onReady, env)).turns = s.turns) :
    s.state.Up ∧ (call depth s (.onReady, env)).awaitingPong = true :=
  onReady_due (Int.le_refl 0) (untimed_callbacks (Int.le_refl 0) hconnect depth) hconnect (basic_callbacks depth)
    (s := { s with env := env }) hping { hdue with } hactive hturns

theorem call_lapses (depth : Nat) {env : Env} (hs : s.state.Up) (hping : 0 < s.cfg.pingIntervalNs)
    (hpong : 0 < s.cfg.pongTimeoutNs) (hwaits : s.awaitingPong = true) (hlate : s.pongDeadlineNs ≤ env.clocks.headD 0) :
    s.turns < (call depth s (.onReady, env)).turns :=
  onReady_lapses (Int.le_refl 0) (untimed_callbacks (Int.le_refl 0) hconnect depth) hconnect (basic_callbacks depth)
    (s := { s with env := env }) hs hping hpong hwaits hlate

end Calls

end WsSession

/-- How long a session stays as it is, from one poll to another, before it sends a ping or takes a turn. -/
def Config.patience (cfg : Config) : Int := max (max cfg.connectTimeoutNs cfg.pingIntervalNs) kReconnectMaxNs

theorem WsSession.Bounded.due {cfg : Config} {T t : Int} (hs : s.Bounded cfg T)
    (ht : T + cfg.patience ≤ t) : s.Due t := by
  have hpatience : cfg.connectTimeoutNs ≤ cfg.patience ∧ cfg.pingIntervalNs ≤ cfg.patience ∧
      kReconnectMaxNs ≤ cfg.patience := by
    unfold Config.patience
    omega
  have hconnect := hs.connect
  have hreconnect := hs.reconnect
  have hping := hs.ping
  exact ⟨by omega, hs.armed, by omega, fun _ => by omega⟩

/-- A session that has not been used. -/
theorem bounded_fresh {cfg : Config} {T : Int} (hT : 0 ≤ T) (hconnect : 0 < cfg.connectTimeoutNs)
    (hping : 0 < cfg.pingIntervalNs) (hpong : 0 < cfg.pongTimeoutNs) (seed : UInt64) (autoReconnect : Bool) :
    (fresh cfg seed autoReconnect).Bounded cfg T where
  config := rfl
  connect := Int.add_nonneg hT hconnect.le
  ping := Int.add_nonneg hT hping.le
  pong := Int.add_nonneg hT hpong.le
  delay := (by decide : (0 : Int) ≤ kReconnectMaxNs)
  reconnect := Int.add_nonneg hT (by decide)
  armed hlive := absurd hlive not_live_disconnected

/-- **No session stalls.** Let the clock show no more than `T₀` up to some point of a run. Then a poll at `T₀ + patience`
or later, and another one when `pong_timeout` has passed since the first, see to it that the session takes a turn: the
state changes, a pong is received, or a connection is tried or ends. So it is with a session whose connection is live or
that reconnects by itself, whatever the peer, the pool, the user and the callbacks do meanwhile. -/
theorem session_takes_turns (cfg : Config) (hconnect : 0 < cfg.connectTimeoutNs) (hping : 0 < cfg.pingIntervalNs)
    (hpong : 0 < cfg.pongTimeoutNs) (seed : UInt64) (autoReconnect : Bool) (depth : Nat)
    (before during after : List (Api × Env)) (first second : Env) (T₀ T₁ : Int) (hT₀ : 0 ≤ T₀)
    (hbefore : ReadBy T₀ before) (hduring : ReadBy T₁ (during ++ [(.onReady, first)]))
    (hfirst : T₀ + cfg.patience ≤ first.clocks.headD 0)
    (hlater : T₀ ≤ T₁) (hsecond : T₁ + cfg.pongTimeoutNs ≤ second.clocks.headD 0) :
    let s := WsSession.run depth (fresh cfg seed autoReconnect) before
    let s' := WsSession.run depth s (during ++ (.onReady, first) :: (after ++ [(.onReady, second)]))
    s.state.Live ∨ s'.autoReconnect = true → s.turns < s'.turns := by
  intro s s' hactive
  -- the poll in the middle and the one at the end
  let s₁ := WsSession.run depth s during
  let s₂ := WsSession.call depth s₁ (.onReady, first)
  let s₃ := WsSession.run depth s₂ after
  have hend : s' = WsSession.call depth s₃ (.onReady, second) := by
    simp only [s', s₃, s₂, s₁, WsSession.run, List.foldl_append, List.foldl_cons, List.foldl_nil]
  have hmiddle : s₂ = WsSession.run depth s (during ++ [(.onReady, first)]) := by
    simp only [s₂, s₁, WsSession.run, List.foldl_append, List.foldl_cons, List.foldl_nil]
  have hgo₁ : Turns.Goes WsSession.turns WsSession.Unturned s s₁ := WsSession.goes_run hconnect depth s during
  have hgo₂ : Turns.Goes WsSession.turns WsSession.Unturned s₁ s₂ := WsSession.goes_call hconnect depth s₁ _
  have hgo₃ : Turns.Goes WsSession.turns WsSession.Unturned s₂ s₃ := WsSession.goes_run hconnect depth s₂ after
  have hgo₄ : Turns.Goes WsSession.turns WsSession.Unturned s₃ s' := hend ▸ WsSession.goes_call hconnect depth s₃ _
  by_contra hstuck
  have hturns₁ := hgo₁.turns
  have hturns₂ := hgo₂.turns
  have hturns₃ := hgo₃.turns
  have hturns₄ := hgo₄.turns
  have hkept₁ := hgo₁.unturned (by omega)
  have hkept₂ := hgo₂.unturned (by omega)
  have hkept₃ := hgo₃.unturned (by omega)
  have hkept₄ := hgo₄.unturned (by omega)
  have hs : s.Bounded cfg T₀ :=
    WsSession.bounded_run hT₀ hconnect depth (bounded_fresh hT₀ hconnect hping hpong seed autoReconnect) hbefore
  have hs₂ : s₂.Bounded cfg T₁ :=
    hmiddle ▸ WsSession.bounded_run (hT₀.trans hlater) hconnect depth (hs.mono hlater) hduring
  -- at the first poll the timers of `s` have run out
  have hdue : s₁.Due (first.clocks.headD 0) := (hs.due hfirst).unturned hkept₁
  have hactive₁ : s₁.state.Live ∨ s₁.autoReconnect = true :=
    hactive.imp (fun hlive => hkept₁.state ▸ hlive) fun hauto => hkept₂.auto (hkept₃.auto (hkept₄.auto hauto))
  have hcfg₁ : s₁.cfg = cfg := hkept₁.cfg.trans hs.config
  obtain ⟨hup, hwaits⟩ : s₁.state.Up ∧ s₂.awaitingPong = true :=
    WsSession.call_due hconnect depth (hcfg₁ ▸ hping) hdue hactive₁ (show s₂.turns = s₁.turns by omega)
  -- at the second poll the pong is late
  obtain ⟨hwaits₃, hdeadline⟩ := hkept₃.waits hwaits
  have hcfg₃ : s₃.cfg = cfg := hkept₃.cfg.trans hs₂.config
  have hup₃ : s₃.state.Up := hkept₃.state ▸ hkept₂.state ▸ hup
  have hlate : s₃.pongDeadlineNs ≤ second.clocks.headD 0 := by
    rw [hdeadline]
    exact hs₂.pong.trans hsecond
  have hturn : s₃.turns < (WsSession.call depth s₃ (.onReady, second)).turns :=
    WsSession.call_lapses hconnect depth hup₃ (hcfg₃ ▸ hping) (hcfg₃ ▸ hpong) hwaits₃ hlate
  rw [← hend] at hturn
  omega

/-- A connection within 5 ns, pings every 10 ns, and a pong within 20 ns. -/
def watchedConfig : Config :=
  { plainConfig with connectTimeoutNs := 5, pingIntervalNs := 10, pongTimeoutNs := 20 }

/-- The peer of an open connection falls silent. -/
theorem silent_peer_turns :
    let s := WsSession.run 0 (fresh watchedConfig 1 false) opening
    let s' := WsSession.run 0 s
      [(.onReady, { clocks := [kReconnectMaxNs], writes := [.accepted 64] }),
       (.onReady, { clocks := [kReconnectMaxNs + 20] })]
    s.state = .opened ∧ s.turns < s'.turns := by
  have hopen : (WsSession.run 0 (fresh watchedConfig 1 false) opening).state = .opened := by decide +kernel
  exact ⟨hopen, session_takes_turns watchedConfig (by decide) (by decide) (by decide) 1 false 0 opening [] []
    { clocks := [kReconnectMaxNs], writes := [.accepted 64] } { clocks := [kReconnectMaxNs + 20] } 0 kReconnectMaxNs
    (by decide) (by decide +kernel) (by decide +kernel) (by decide +kernel) (by decide) (by decide)
    (Or.inl (hopen ▸ by decide))⟩

end Lepton.Ws

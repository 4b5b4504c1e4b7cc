import Lepton.Enrolment
import Lepton.WsLink
import Lepton.HttpFlow

/-! Registration with the poller. Both clients register once, with the descriptor of their first connection, and
remember it in a flag; the descriptor changes with every connect. The live socket is registered as long as no
connect is made while the flag is set. -/

namespace Lepton.Ws

open Enrolment

/-- The poller knows the transport's descriptor. -/
def Listed (s : WsSession) : Prop := ∃ fd, s.fd = some fd ∧ (s.interest fd).isSome = true

/-- No connect while registered, no failed registration, and no fatal write inside `close`. -/
def Ev.Steady : Ev → Prop
  | .dialed registered => registered = false
  | .added ok => ok = true
  | .written inClose answer => ¬ (inClose = true ∧ answer = .error)
  | _ => True

instance : DecidablePred Ev.Steady
  | .dialed registered => inferInstanceAs (Decidable (registered = false))
  | .added ok => inferInstanceAs (Decidable (ok = true))
  | .written inClose answer => inferInstanceAs (Decidable (¬ (inClose = true ∧ answer = .error)))
  | .changed _ | .response _ | .starved _ | .timedOut | .enqueued _ | .pingDue _ | .pongLate _ | .resumed _
  | .requested _ _ | .closing _ _ _ _ => isTrue trivial

def view : View WsSession Ev where
  log := WsSession.log
  steady := Ev.Steady
  poller s := s.cfg.busyPoll = false
  live s := s.state.Live
  linked := WsSession.linked
  registered := WsSession.registered
  listed := Listed

instance : DecidablePred (Steady view) := fun s => inferInstanceAs (Decidable (∀ e ∈ s.log, e.Steady))

theorem Listed.of_eq {s s' : WsSession} (h : Listed s) (hfd : s'.fd = s.fd)
    (hinterest : ∀ fd, (s'.interest fd).isSome = (s.interest fd).isSome) : Listed s' := by
  obtain ⟨fd, heq, hsome⟩ := h
  exact ⟨fd, hfd.trans heq, (hinterest fd).trans hsome⟩

namespace WsSession

theorem enrols_same {s s' : WsSession} (hlog : s.log <:+ s'.log) (hcfg : s'.cfg = s.cfg)
    (hlive : s'.state.Live → s.state.Live) (hregistered : s'.registered = s.registered) (hlinked : s'.linked = s.linked)
    (hfd : s'.fd = s.fd) (hinterest : ∀ fd, (s'.interest fd).isSome = (s.interest fd).isSome) : Enrols view s s' :=
  Enrols.same (v := view) hlog (fun h => (congrArg Config.busyPoll hcfg).trans h) hlive hlinked hregistered
    fun h => h.of_eq hfd hinterest

/-- The end of a connection, from anywhere. -/
theorem enrols_down {s₀ s : WsSession} (hlog : s₀.log <:+ s.log) (hcfg : s.cfg = s₀.cfg)
    (hregistered : s.registered = s₀.registered) {next : WsState} (hnext : ¬ next.Live) :
    Enrols view s₀ ((s.shutDown next).enter next) := by
  obtain ⟨clocks, t, h⟩ := s.shutDown_eq next
  obtain ⟨s₁, hs₁⟩ : ∃ s₁, s.shutDown next = s₁ := ⟨_, rfl⟩
  rw [hs₁] at h ⊢
  have hlog₁ := s₁.enter_log next
  obtain ⟨log, henter, -⟩ := s₁.enter_eq next
  rw [henter] at hlog₁ ⊢
  rw [h] at hlog₁ ⊢
  exact Enrols.ended (v := view) (hlog.trans hlog₁) (fun hp => (congrArg Config.busyPoll hcfg).trans hp) hnext rfl
    hregistered

theorem enrols_enter {s : WsSession} {st : WsState} (hlive : s.state.Live) : Enrols view s (s.enter st) := by
  have hlog := s.enter_log st
  obtain ⟨log, h, -⟩ := s.enter_eq st
  rw [h] at hlog ⊢
  exact enrols_same hlog rfl (fun _ => hlive) rfl rfl rfl fun _ => rfl

theorem enrols_frame {s s' : WsSession} (h : Frame s s') : Enrols view s s' :=
  enrols_same h.suffix h.cfg (fun hl => h.state ▸ hl) h.registered h.linked h.fd h.interest

theorem enrols_inward {s s' : WsSession} (h : Inward s s') : Enrols view s s' :=
  enrols_same h.suffix h.cfg (fun hl => h.state ▸ hl) h.registered h.linked h.fd fun fd => by rw [h.interest]

theorem takes_enrols : Takes (Enrols view) :=
  Takes.of_frame (Enrols.refl view) Enrols.trans enrols_frame fun _ _ hnext => enrols_down List.suffix_rfl rfl rfl hnext

theorem blocks_enrols : Blocks (Enrols view) := takes_enrols.toBlocks

/-- In a steady run `register` leaves the session registered. -/
theorem register_registered {s : WsSession} (h : Steady view s.register) : s.register.registered = true := by
  rcases s.register_eq with ⟨hr, heq⟩ | ⟨-, ok, adds, interest, heq⟩
  · rw [heq]
    exact hr
  · rw [heq] at h ⊢
    exact h (.added ok) List.mem_cons_self

theorem enlisted_register {s : WsSession} (hs : Enlisted view s) (h : Steady view s.register) :
    Enlisted view s.register := by
  have hdone := register_registered h
  rcases s.register_eq with ⟨-, heq⟩ | ⟨hnew, ok, adds, interest, heq⟩
  · rw [heq]
    exact hs
  · have hlisted := register_listed hs.poller hnew hdone
    rw [heq] at hlisted ⊢
    exact ⟨hs.poller, hs.live, fun _ _ => hlisted⟩

/-- A connect: the session is registered with its new descriptor, unless it was registered before. -/
theorem connects_enrols : Connects (Enrols view) (Enrols view) where
  starved {s s₁} h := by
    obtain ⟨acquires, recv, hs⟩ := tryDial_starved h
    have hlog := s₁.enter_log .failed
    obtain ⟨log, henter, -⟩ := s₁.enter_eq .failed
    rw [henter] at hlog ⊢
    rw [hs] at hlog ⊢
    exact enrols_same ((List.suffix_cons _ _).trans hlog) rfl (fun hl => absurd hl not_live_failed) rfl rfl rfl fun _ => rfl
  refused h := by
    obtain ⟨env, recv, deadline, -, hs⟩ := tryDial_refused h
    rw [hs]
    refine enrols_down ?_ ?_ ?_ not_live_failed
    · exact List.suffix_rfl
    · rfl
    · rfl
  dialed {s s₁ s₂} h hset := by
    obtain ⟨env, deadline, fd, -, hs⟩ := tryDial_dialed h
    have hdialed : s₁.log = .dialed s.registered :: s.log ∧ s₁.cfg = s.cfg ∧ s₁.linked = true ∧
        s₁.registered = s.registered := by
      rw [hs]
      exact ⟨rfl, rfl, rfl, rfl⟩
    obtain ⟨hlog, hcfg, hlinked, hflag⟩ := hdialed
    have hgrown := s₁.enter_log .connecting
    have hentered : (s₁.enter .connecting).cfg = s₁.cfg ∧ (s₁.enter .connecting).linked = s₁.linked ∧
        (s₁.enter .connecting).registered = s₁.registered := by
      obtain ⟨log, henter, -⟩ := s₁.enter_eq .connecting
      rw [henter]
      exact ⟨rfl, rfl, rfl⟩
    obtain ⟨hcfg', hlinked', hflag'⟩ := hentered
    refine Enrols.connect (v := view) ?_ ?_ (fun hp => ?_) (hlinked'.trans hlinked) (hflag'.trans hflag) hset
      (basic_register s₂).log register_registered fun hsteady hs => enlisted_register hs hsteady
    · exact fun hsteady => hsteady (.dialed s.registered) (hgrown.subset (hlog ▸ List.mem_cons_self))
    · exact (hlog ▸ List.suffix_cons _ _ : s.log <:+ s₁.log).trans hgrown
    · exact (congrArg Config.busyPoll (hcfg'.trans hcfg)).trans hp

theorem enrols_sendClose {cb : Callbacks} (hcb : Keeping (Enrols view) cb) (s : WsSession) (code : UInt16) :
    Enrols view s (sendClose cb s code) :=
  keeps_sendClose blocks_enrols.toFlushes hcb (enrols_inward { Silent.refl s with })
    (takes_enrols.queueFrame ..) fun _ _ _ _ _ => enrols_same (List.suffix_cons _ _) rfl id rfl rfl rfl fun _ => rfl

theorem enrols_act {cb : Callbacks} (hcb : Keeping (Enrols view) cb) (hbasic : Keeping Basic cb) (s : WsSession)
    (a : Act) : Enrols view s (act cb s a) := by
  cases a with
  | connect => exact keeps_connecting blocks_enrols.above blocks_enrols.refl connects_enrols hcb s
  | send payload binary => exact keeps_send blocks_enrols.toFlushes hcb s payload binary
  | close code =>
    apply keeps_close blocks_enrols hcb s code (enrols_inward { Silent.refl s with })
    intro hopen
    have hsend := enrols_sendClose hcb s code
    have hlinked (hsteady : Steady view (sendClose cb s code)) : (sendClose cb s code).linked = s.linked :=
      (sendClose_kept hbasic hopen fun he => hsteady (.written true .error) he ⟨rfl, rfl⟩).2
    generalize sendClose cb s code = s₁ at hsend hlinked ⊢
    have hlog := s₁.enter_log .closing
    obtain ⟨log, henter, -⟩ := s₁.enter_eq .closing
    rw [henter] at hlog ⊢
    refine ⟨hsend.log.trans hlog, fun hsteady => ?_⟩
    have hbefore : Steady view s₁ := hsteady.of_suffix hlog
    obtain ⟨hstays, hmanned, henlisted⟩ := hsend.kept hbefore
    refine ⟨hstays, hmanned, fun hs => ?_⟩
    have hlive : s.state.Live := hopen ▸ by decide
    exact ⟨(henlisted hs).poller, fun _ => (hlinked hbefore).trans (hs.live hlive), (henlisted hs).listed⟩

theorem enrols_callbacks (depth : Nat) : Keeping (Enrols view) (callbacks depth) :=
  keeping_callbacks (Enrols.refl view) Enrols.trans (fun s _ => enrols_inward { Silent.refl s with })
    (fun depth hcb => enrols_act hcb (basic_callbacks depth)) depth

theorem enrols_request {s s' s'' : WsSession} {ok : Bool} (hs : s.state = .connecting)
    (hset : Enrols view (s.enter .upgrading) s') (hrequest : s'.queueRequest = (ok, s'')) : Enrols view s s'' := by
  have hup : Enrols view s (s.enter .upgrading) := enrols_enter (hs ▸ by decide)
  refine hup.trans (hset.trans ?_)
  obtain ⟨acquires, faults, pending, interest, request, marks, rfl, hinterest⟩ := queueRequest_snd hrequest
  refine enrols_same (List.suffix_cons _ _) rfl id rfl rfl rfl fun fd => ?_
  rcases hinterest with rfl | rfl
  · rfl
  · exact s'.armed_isSome fd

theorem drives_enrols : Drives (Enrols view) (Enrols view) :=
  takes_enrols.drives blocks_enrols.above connects_enrols enrols_inward enrols_request
    fun hs => enrols_enter (hs ▸ by decide)

theorem enrols_run (depth : Nat) (s : WsSession) (calls : List (Api × Env)) : Enrols view s (run depth s calls) :=
  keeps_run blocks_enrols drives_enrols (enrols_callbacks depth)
    (fun s _ => enrols_inward { Silent.refl s with })
    (enrols_act (enrols_callbacks depth) (basic_callbacks depth)) s calls

end WsSession

end Lepton.Ws

namespace Lepton.Http

open Enrolment

/-- The poller knows the transport's descriptor. -/
def Listed (s : HttpClient) : Prop := ∃ fd, s.fd = some fd ∧ (s.interest fd).isSome = true

/-- No connect while registered, and no failed registration. -/
def Ev.Steady : Ev → Prop
  | .dialed registered => registered = false
  | .added ok => ok = true
  | _ => True

instance : DecidablePred Ev.Steady
  | .dialed registered => inferInstanceAs (Decidable (registered = false))
  | .added ok => inferInstanceAs (Decidable (ok = true))
  | .requested _ | .completed _ => isTrue trivial

def view : View HttpClient Ev where
  log := HttpClient.log
  steady := Ev.Steady
  poller s := s.cfg.busyPoll = false
  live s := s.state.Live
  linked := HttpClient.linked
  registered := HttpClient.registered
  listed := Listed

instance : DecidablePred (Steady view) := fun s => inferInstanceAs (Decidable (∀ e ∈ s.log, e.Steady))

namespace HttpClient

theorem enrols_same {s s' : HttpClient} (hlog : s.log <:+ s'.log) (hcfg : s'.cfg = s.cfg)
    (hlive : s'.state.Live → s.state.Live) (hregistered : s'.registered = s.registered) (hlinked : s'.linked = s.linked)
    (hfd : s'.fd = s.fd) (hinterest : ∀ fd, (s'.interest fd).isSome = (s.interest fd).isSome) : Enrols view s s' := by
  refine Enrols.same (v := view) hlog (fun h => (congrArg ClientConfig.busyPoll hcfg).trans h) hlive hlinked hregistered ?_
  rintro ⟨fd, heq, hsome⟩
  exact ⟨fd, hfd.trans heq, (hinterest fd).trans hsome⟩

theorem enrols_shutDown (s : HttpClient) : Enrols view s s.shutDown :=
  Enrols.ended (v := view) List.suffix_rfl id not_live_failed rfl rfl

theorem log_register (s : HttpClient) : s.log <:+ s.register.log := by
  rcases s.register_cases with ⟨-, heq⟩ | ⟨ok, adds, interest, heq, -⟩
  · rw [heq]
  · rw [heq]
    exact List.suffix_cons _ _

theorem enrols_register {s : HttpClient} (h : Steady view s.register) :
    s.register.registered = true ∧ (Enlisted view s → Enlisted view s.register) := by
  rcases s.register_cases with ⟨hr, heq⟩ | ⟨ok, adds, interest, heq, hlisted⟩
  · rw [heq]
    exact ⟨hr, id⟩
  · rw [heq] at h ⊢
    have hok : ok = true := h (.added ok) List.mem_cons_self
    exact ⟨hok, fun hs => ⟨hs.poller, hs.live, fun _ _ => hlisted hok hs.poller⟩⟩

theorem enrols_flushLoop {s s' : HttpClient} {n : Nat} {ending : Sending} (hs : s.state = .sending)
    (h : flushLoop n s = (ending, s')) : Enrols view s s' := by
  obtain ⟨writes, output, sends, wire, sendOff, interest, armed, rfl, -, hsome⟩ := flushLoop_eq h
  exact enrols_same List.suffix_rfl rfl (fun _ => hs ▸ by decide) rfl rfl rfl hsome

theorem enrols_recvTurn {s s' : HttpClient} {turn : RecvTurn} (h : s.recvTurn = (turn, s')) : Enrols view s s' := by
  obtain ⟨reads, input, wire, recv, faults, lost, rfl, -⟩ := recvTurn_eq h
  exact enrols_same List.suffix_rfl rfl id rfl rfl rfl fun _ => rfl

theorem enrols_pollOpen {s s' : HttpClient} {ph : StreamPhase} (h : s.transportPollOpen = (ph, s')) :
    Enrols view s s' := by
  obtain ⟨opens, rfl⟩ := transportPollOpen_eq h
  exact enrols_same List.suffix_rfl rfl id rfl rfl rfl fun _ => rfl

theorem enrols_deadlinePassed {b : Bool} (h : s.deadlinePassed = (b, s')) : Enrols view s s' := by
  obtain ⟨⟨clocks, rfl⟩, -⟩ := deadlinePassed_eq h
  exact enrols_same List.suffix_rfl rfl id rfl rfl rfl fun _ => rfl

theorem steps_enrols : Steps (Enrols view) (Enrols view) where
  refl := Enrols.refl view
  trans := Enrols.trans
  expired h hcall := (enrols_deadlinePassed h).trans ((enrols_shutDown _).trans hcall)
  unexpired h := enrols_deadlinePassed h
  refused {s s₁ _} h hcall := by
    obtain ⟨env, send, recv, deadline, armed, fd, linked, wire, interest, pool, heq, -⟩ := tryDial_false h
    refine Enrols.trans ?_ hcall
    rw [heq]
    exact Enrols.ended (v := view) List.suffix_rfl id not_live_failed rfl rfl
  dialed {s s₁} h := by
    obtain ⟨env, send, recv, deadline, fd, pool, heq⟩ := tryDial_true h
    obtain ⟨s₂, hs₂⟩ : ∃ s₂, ({ s₁ with state := .connecting } : HttpClient) = s₂ := ⟨_, rfl⟩
    have hdialed : s₂.log = .dialed s.registered :: s.log ∧ s₂.cfg = s.cfg ∧ s₂.linked = true ∧
        s₂.registered = s.registered := by
      rw [← hs₂, heq]
      exact ⟨rfl, rfl, rfl, rfl⟩
    obtain ⟨hlog, hcfg, hlinked, hflag⟩ := hdialed
    have hgrown : s.log <:+ s₂.log := hlog ▸ List.suffix_cons _ _
    have hmem : .dialed s.registered ∈ s₂.log := hlog ▸ List.mem_cons_self
    rw [hs₂]
    refine Enrols.connect (v := view) ?_ hgrown (fun hp => ?_) hlinked hflag (Enrols.refl view s₂)
      s₂.log_register (fun h => (enrols_register h).1) fun h => (enrols_register h).2
    · exact fun hsteady => hsteady (.dialed s.registered) hmem
    · exact (congrArg ClientConfig.busyPoll hcfg).trans hp
  submit {s r text} hs _ := by
    obtain ⟨clocks, t, heq⟩ := (s.asks r).submit_eq text
    rw [heq]
    exact enrols_same (List.suffix_cons _ _) rfl (fun _ => hs ▸ by decide) rfl rfl rfl fun _ => rfl
  blocked := enrols_flushLoop
  sent := enrols_flushLoop
  unsent hs h hcall := (enrols_flushLoop hs h).trans ((enrols_shutDown _).trans hcall)
  stop _ := enrols_recvTurn
  more _ := enrols_recvTurn
  broken _ h hcall := (enrols_recvTurn h).trans ((enrols_shutDown _).trans hcall)
  answered {_ s₁ _ r} _ h hcall _ := by
    have hdeliver : Enrols view s₁ (s₁.deliver r) := enrols_same List.suffix_rfl rfl id rfl rfl rfl fun _ => rfl
    exact (enrols_recvTurn h).trans (hdeliver.trans hcall)
  rested {_ s₁ s' r} _ h hcall hlive := by
    have hdeliver : Enrols view s₁ (s₁.deliver r) := enrols_same List.suffix_rfl rfl id rfl rfl rfl fun _ => rfl
    refine (enrols_recvTurn h).trans (hdeliver.trans (hcall.trans ?_))
    rcases (s'.note (.completed s'.state)).rest_cases r.consumed with ⟨recv, faults, heq, -⟩ | ⟨faults, heq⟩
    · rw [heq]
      exact enrols_same (List.suffix_cons _ _) rfl (fun _ => hlive) rfl rfl rfl fun _ => rfl
    · rw [heq]
      exact enrols_same (List.suffix_cons _ _) rfl (fun _ => hlive) rfl rfl rfl fun _ => rfl
  polled h := enrols_pollOpen h
  unopened _ h _ hcall := (enrols_pollOpen h).trans ((enrols_shutDown _).trans hcall)
  opened {s s'} hs h := by
    obtain ⟨opens, interest, armed, heq, hsome⟩ := opened_eq h
    rw [heq]
    exact enrols_same List.suffix_rfl rfl (fun _ => hs ▸ by decide) rfl rfl rfl hsome
  close s := Enrols.ended (v := view) List.suffix_rfl id (by decide : ¬ HttpState.disconnected.Live) rfl rfl

theorem enrols_run (depth : Nat) (s : HttpClient) (calls : List (Api × Env)) : Enrols view s (run depth s calls) :=
  keeps_run steps_enrols
    (keeping_callbacks steps_enrols (fun _ _ => enrols_same List.suffix_rfl rfl id rfl rfl rfl fun _ => rfl) depth)
    (fun _ _ => enrols_same List.suffix_rfl rfl id rfl rfl rfl fun _ => rfl) s calls

end HttpClient

end Lepton.Http

namespace Lepton

open Enrolment

/-- **The live socket is registered.** On a poller, at the return of every public call of every run of either
client, with callbacks nested to any depth, the descriptor of a live client is in the interest set, if every
registration has succeeded, no connect was made while registered, and no write has failed inside the session's
`close`. -/
theorem live_socket_registered (cfg : Ws.Config) (seed : UInt64) (autoReconnect : Bool) (depth : Nat)
    (calls : List (Ws.Api × Ws.Env)) (cfg' : Http.ClientConfig) (depth' : Nat) (calls' : List (Http.Api × Http.Env))
    (hpoller : cfg.busyPoll = false) (hpoller' : cfg'.busyPoll = false)
    (hsteady : Steady Ws.view (Ws.WsSession.run depth (Ws.fresh cfg seed autoReconnect) calls))
    (hsteady' : Steady Http.view (Http.HttpClient.run depth' (Http.freshClient cfg') calls')) :
    ((Ws.WsSession.run depth (Ws.fresh cfg seed autoReconnect) calls).state.Live →
        Ws.Listed (Ws.WsSession.run depth (Ws.fresh cfg seed autoReconnect) calls)) ∧
      ((Http.HttpClient.run depth' (Http.freshClient cfg') calls').state.Live →
        Http.Listed (Http.HttpClient.run depth' (Http.freshClient cfg') calls')) := by
  constructor
  · have hstart : Enlisted Ws.view (Ws.fresh cfg seed autoReconnect) :=
      ⟨hpoller, fun h => absurd h Ws.not_live_disconnected, nofun⟩
    exact (Ws.WsSession.enrols_run depth _ calls).listed hstart rfl hsteady
  · have hstart : Enlisted Http.view (Http.freshClient cfg') :=
      ⟨hpoller', fun h => absurd h (by decide : ¬ Http.HttpState.disconnected.Live), nofun⟩
    exact (Http.HttpClient.enrols_run depth' _ calls').listed hstart rfl hsteady'

/-- A session that opens and receives, and a client that sends a request. -/
theorem first_connections_registered :
    let s := Ws.WsSession.run 1 (Ws.fresh Ws.plainConfig 1 false) Ws.opening
    let c := Http.HttpClient.run 1 (Http.freshClient { cap := 256, cap_ge := by decide, cap_lt := by decide })
      [(.act .connect, { connects := [some 7] }), (.onReady, { opens := [.opened] }), (.act (.request {}), {})]
    (s.state = .opened ∧ Ws.Listed s) ∧ c.state = .sending ∧ Http.Listed c := by
  intro s c
  have hrun : s.state = .opened ∧ Steady Ws.view s ∧ c.state = .sending ∧ Steady Http.view c := by decide
  obtain ⟨hopen, hsteady, hsending, hsteady'⟩ := hrun
  have hboth := live_socket_registered Ws.plainConfig 1 false 1 Ws.opening _ 1 _ rfl rfl hsteady hsteady'
  exact ⟨⟨hopen, hboth.1 (hopen ▸ by decide)⟩, hsending, hboth.2 (hsending ▸ by decide)⟩

/-- A reconnect: the new descriptor of either client is not registered. -/
theorem reconnect_not_registered :
    let s := Ws.WsSession.run 0 (Ws.fresh Ws.plainConfig 1 false)
      (Ws.opening ++ [(.onReady, { reads := [.data []] }), (.act .connect, { connects := [some 9] })])
    let c := Http.HttpClient.run 0 (Http.freshClient { cap := 256, cap_ge := by decide, cap_lt := by decide })
      [(.act .connect, { connects := [some 7] }), (.onReady, { opens := [.failed] }), (.act .connect, { connects := [some 9] })]
    (s.state = .connecting ∧ .added false ∉ s.log ∧ ¬ Ws.Listed s) ∧
      c.state = .connecting ∧ .added false ∉ c.log ∧ ¬ Http.Listed c := by
  intro s c
  have hrun : (s.state = .connecting ∧ .added false ∉ s.log ∧ s.fd = some 9 ∧ (s.interest 9).isSome = false) ∧
      c.state = .connecting ∧ .added false ∉ c.log ∧ c.fd = some 9 ∧ (c.interest 9).isSome = false := by decide +kernel
  obtain ⟨⟨hstate, hadd, hfd, hnone⟩, hstate', hadd', hfd', hnone'⟩ := hrun
  refine ⟨⟨hstate, hadd, ?_⟩, hstate', hadd', ?_⟩
  · rintro ⟨fd, heq, hsome⟩
    cases hfd.symm.trans heq
    exact absurd (hnone.symm.trans hsome) nofun
  · rintro ⟨fd, heq, hsome⟩
    cases hfd'.symm.trans heq
    exact absurd (hnone'.symm.trans hsome) nofun

end Lepton

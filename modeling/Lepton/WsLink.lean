import Lepton.WsFlow

/-! The state of a session and its transport. A session in a live state has a connected transport and
the other way round, at every callback and at the return of every call, except in two runs: `close`
moves to Closing although sending its frame has torn the connection down, and `start_connect`
without a buffer moves to Failed over a transport that is still connected. -/

namespace Lepton.Ws

variable {s s' s'' : WsSession} {cb : Callbacks}

/-- The state is live exactly if the transport is connected. -/
def Agrees (s : WsSession) : Prop := s.state.Live ↔ s.linked = true

instance : DecidablePred Agrees := fun s => inferInstanceAs (Decidable (s.state.Live ↔ s.linked = true))

/-- The two events that break the agreement. -/
def Ev.Sound : Ev → Prop
  | .written inClose answer => ¬ (inClose = true ∧ answer = .error)
  | .starved linked => linked = false
  | _ => True

instance : DecidablePred Ev.Sound
  | .written inClose answer => inferInstanceAs (Decidable (¬ (inClose = true ∧ answer = .error)))
  | .starved linked => inferInstanceAs (Decidable (linked = false))
  | .changed _ | .response _ | .dialed _ | .added _ | .timedOut | .enqueued _ | .pingDue _ | .pongLate _ | .resumed _
  | .requested _ _ | .closing _ _ _ _ => isTrue trivial

def Sound (s : WsSession) : Prop := ∀ e ∈ s.log, e.Sound

instance : DecidablePred Sound := fun s => inferInstanceAs (Decidable (∀ e ∈ s.log, e.Sound))

/-- `s'` continues `s`, and the agreement survives a sound continuation. -/
structure Links (s s' : WsSession) : Prop where
  log : s.log <:+ s'.log
  agrees : Sound s' → Agrees s → Agrees s'

theorem Links.refl (s : WsSession) : Links s s := ⟨List.suffix_rfl, fun _ h => h⟩

theorem Links.trans (h : Links s s') (h' : Links s' s'') : Links s s'' :=
  ⟨h.log.trans h'.log, fun hsound hs => h'.agrees hsound (h.agrees (fun e he => hsound e (h'.log.subset he)) hs)⟩

theorem Links.quiet (hlog : s.log <:+ s'.log) (hstate : s'.state = s.state)
    (hlinked : s'.linked = s.linked) : Links s s' := by
  refine ⟨hlog, fun _ h => ?_⟩
  unfold Agrees
  rw [hstate, hlinked]
  exact h

namespace WsSession

theorem links_enter {s₀ : WsSession} {st : WsState} (hlog : s₀.log <:+ s.log)
    (hst : Sound s → Agrees s₀ → (st.Live ↔ s.linked = true)) : Links s₀ (s.enter st) := by
  refine ⟨hlog.trans (s.enter_log st), fun hsound hs => ?_⟩
  have hbefore : Sound s := fun e he => hsound e ((s.enter_log st).subset he)
  obtain ⟨log, h, -⟩ := s.enter_eq st
  rw [h]
  exact hst hbefore hs

/-- `teardown` leaves a dead state over a closed transport, from anywhere. -/
theorem links_down {s₀ : WsSession} (hlog : s₀.log <:+ s.log) {next : WsState} (hnext : ¬ next.Live) :
    Links s₀ ((s.shutDown next).enter next) := by
  obtain ⟨clocks, t, h⟩ := s.shutDown_eq next
  rw [h]
  exact links_enter hlog fun _ _ => ⟨fun hlive => absurd hlive hnext, fun hlinked => absurd hlinked nofun⟩

theorem Links.of_frame (h : Frame s s') : Links s s' :=
  Links.quiet h.suffix h.state h.linked

theorem Links.of_inward (h : Inward s s') : Links s s' :=
  Links.quiet h.suffix h.state h.linked

theorem takes_links : Takes Links :=
  Takes.of_frame Links.refl Links.trans Links.of_frame fun _ _ hnext => links_down List.suffix_rfl hnext

theorem blocks_links : Blocks Links := takes_links.toBlocks

theorem dials_links : Dials Links where
  starved {s s'} h := by
    obtain ⟨acquires, recv, hs⟩ := tryDial_starved h
    rw [hs]
    apply links_enter (List.suffix_cons _ _)
    intro hsound _
    have hlinked : s.linked = false := hsound _ List.mem_cons_self
    exact ⟨fun hlive => absurd hlive not_live_failed, fun h => absurd (hlinked.symm.trans h) nofun⟩
  refused h := by
    obtain ⟨env, recv, deadline, -, hs⟩ := tryDial_refused h
    rw [hs]
    refine links_down ?_ not_live_failed
    exact List.suffix_rfl
  dialed h := by
    obtain ⟨env, deadline, fd, -, hs⟩ := tryDial_dialed h
    rw [hs]
    exact links_enter (List.suffix_cons _ _) fun _ _ => ⟨fun _ => rfl, fun _ => by decide⟩
  register := keeps_register Links.refl fun _ _ _ _ => Links.quiet (List.suffix_cons _ _) rfl rfl

/-- Sending inside `close` tears an open connection down only on a fatal write. -/
theorem flushLoop_inClose (hbasic : Keeping Basic cb) {fuel : Nat}
    (hclose : s.inClose = true) (hopen : s.state = .opened)
    (hcalm : .written true .error ∉ (flushLoop cb fuel s).log) :
    (flushLoop cb fuel s).state = .opened ∧ (flushLoop cb fuel s).linked = s.linked := by
  induction fuel generalizing s with
  | zero => exact ⟨hopen, rfl⟩
  | succ fuel ih =>
    rw [flushLoop] at hcalm ⊢
    split at hcalm
    · next h => exact ⟨(flushTurn_fields h).1.trans hopen, (flushTurn_fields h).2.1⟩
    · next s₁ h =>
      have hlog := (flushTurn_fatal h).1
      have hmem : Ev.written s.inClose .error ∈ (teardown cb s₁ .failed).log :=
        (keeps_teardown blocks_basic hbasic s₁ not_live_failed).log.subset (hlog ▸ List.mem_cons_self)
      exact absurd (hclose ▸ hmem) hcalm
    · next h => cases (flushTurn_finished h).symm.trans hopen
    · next h =>
      obtain ⟨hstate, hlinked, hinClose⟩ := flushTurn_fields h
      obtain ⟨hend, hflush⟩ := ih (hinClose.trans hclose) (hstate.trans hopen) hcalm
      exact ⟨hend, hflush.trans hlinked⟩

theorem sendClose_kept (hbasic : Keeping Basic cb) {code : UInt16}
    (hopen : s.state = .opened) (hcalm : .written true .error ∉ (sendClose cb s code).log) :
    (sendClose cb s code).state = .opened ∧ (sendClose cb s code).linked = s.linked := by
  have hcalm' : .written true .error ∉ (enqueueFrame cb { s with autoReconnect := false, inClose := true } .close
      [(code >>> 8).toUInt8, code.toUInt8] true).2.log := fun he => hcalm (List.mem_cons_of_mem _ he)
  change (enqueueFrame cb { s with autoReconnect := false, inClose := true } .close
      [(code >>> 8).toUInt8, code.toUInt8] true).2.state = .opened ∧ (enqueueFrame cb { s with
      autoReconnect := false, inClose := true } .close [(code >>> 8).toUInt8, code.toUInt8] true).2.linked = s.linked
  obtain ⟨_, _, _, _, _, _, h, -⟩ := queueFrame_snd { s with autoReconnect := false, inClose := true } .close
    [(code >>> 8).toUInt8, code.toUInt8] true
  unfold enqueueFrame at hcalm' ⊢
  split at hcalm'
  · next s₁ hq =>
    rw [hq] at h
    change s₁ = _ at h
    obtain ⟨hstate, hlinked⟩ := flushLoop_inClose hbasic (by rw [h]) (by rw [h]; exact hopen) hcalm'
    exact ⟨hstate, hlinked.trans (by rw [h])⟩
  · next s₁ _ hq =>
    rw [hq] at h
    change s₁ = _ at h
    rw [h]
    exact ⟨hopen, rfl⟩

theorem links_act (hcb : Keeping Links cb) (hbasic : Keeping Basic cb) (s : WsSession) (a : Act) :
    Links s (act cb s a) := by
  cases a with
  | connect => exact keeps_startConnect blocks_links dials_links hcb s
  | send payload binary => exact keeps_send blocks_links.toFlushes hcb s payload binary
  | close code =>
    apply keeps_close blocks_links hcb s code (Links.quiet List.suffix_rfl rfl rfl)
    intro hopen
    apply links_enter (basic_sendClose hbasic s code).log
    intro hsound hs
    rw [(sendClose_kept hbasic hopen fun he => hsound _ he ⟨rfl, rfl⟩).2]
    exact ⟨fun _ => hs.mp (hopen ▸ by decide), fun _ => by decide⟩

theorem links_callbacks (depth : Nat) : Keeping Links (callbacks depth) :=
  keeping_callbacks Links.refl Links.trans (fun _ _ => Links.quiet List.suffix_rfl rfl rfl)
    (fun depth hcb => links_act hcb (basic_callbacks depth)) depth

theorem links_request {ok : Bool} (hs : s.state = .connecting) (hset : Links (s.enter .upgrading) s')
    (hrequest : s'.queueRequest = (ok, s'')) : Links s s'' := by
  have hup : Links s (s.enter .upgrading) :=
    links_enter List.suffix_rfl fun _ ha => ⟨fun _ => ha.mp (hs ▸ by decide), fun _ => by decide⟩
  refine hup.trans (hset.trans ?_)
  obtain ⟨acquires, faults, pending, interest, request, marks, rfl, -⟩ := queueRequest_snd hrequest
  exact Links.quiet (List.suffix_cons _ _) rfl rfl

theorem drives_links : Drives Links Links :=
  takes_links.drives blocks_links.above (dials_links.connects blocks_links.above) Links.of_inward links_request
    fun hs => links_enter List.suffix_rfl fun _ ha => ⟨fun _ => ha.mp (hs ▸ by decide), fun _ => by decide⟩

theorem links_run (depth : Nat) (s : WsSession) (calls : List (Api × Env)) : Links s (run depth s calls) :=
  keeps_run blocks_links drives_links (links_callbacks depth) (fun _ _ => Links.quiet List.suffix_rfl rfl rfl)
    (links_act (links_callbacks depth) (basic_callbacks depth)) s calls

end WsSession

/-- **The state agrees with the transport.** At the return of every public call of every run, with
callbacks nested to any depth, the state is live exactly if the transport is connected, unless a
write has failed inside `close` or `start_connect` has run out of buffers over a connected
transport. -/
theorem state_agrees_with_transport (cfg : Config) (seed : UInt64) (autoReconnect : Bool) (depth : Nat)
    (calls : List (Api × Env)) (hsound : Sound (WsSession.run depth (fresh cfg seed autoReconnect) calls)) :
    Agrees (WsSession.run depth (fresh cfg seed autoReconnect) calls) := by
  have hstart : Agrees (fresh cfg seed autoReconnect) := ⟨fun h => absurd h not_live_disconnected, nofun⟩
  exact (WsSession.links_run depth _ calls).agrees hsound hstart

/-- The configuration of the examples below: the defaults, over buffers of 256 bytes. -/
def plainConfig : Config := { cap := 256, cap_ge := plainCap_ge, cap_lt := plainCap_lt }

/-- The calls that open a session against a server that answers at once. -/
def opening : List (Api × Env) :=
  [(.act .connect, { connects := [some 7] }),
   (.onReady, { opens := [.opened], writes := [.accepted 256] }),
   (.onReady, { reads := [.data (Http.ascii "HTTP/1.1 101 Switching Protocols\r\n\r\n")] })]

/-- A session that opens, receives data and is closed by its peer. -/
theorem peerClose_agrees :
    let calls := opening ++ [(.onReady, { reads := [.data [0x81, 0x01, 0x41]] }), (.onReady, { reads := [.data []] })]
    Agrees (WsSession.run 2 (fresh plainConfig 1 false) calls) :=
  state_agrees_with_transport plainConfig 1 false 2 _ (by decide +kernel)

/-- The server answers, and the connection breaks while `close` sends its frame: the session is left in
Closing over a closed transport. -/
theorem brokenClose_not_agrees :
    let s := WsSession.run 0 (fresh plainConfig 1 false)
      (opening ++ [(.act (.close 1000), { writes := [.error] })])
    s.state = .closing ∧ s.linked = false ∧ ¬ Agrees s := by
  decide

end Lepton.Ws

import Lepton.HttpMatch
import Lepton.HttpOutput
import Lepton.HttpReady
import Lepton.WsReentry

/-! Callbacks of both clients that connect anew. `try_complete` consumes the response after `on_response` has
returned, from whatever buffer the client then has, as `parse_frames` does with a frame. -/

namespace Lepton.Http.HttpClient

variable {s s' : HttpClient}

/-- No `on_response` has returned on a connection that it dialed. -/
def Undisturbed (s : HttpClient) : Prop := .completed .connecting ∉ s.log

instance : DecidablePred Undisturbed := fun _ => inferInstanceAs (Decidable (¬ _))

/-- The buffers are well formed, and no assertion has failed. -/
structure Sane (s : HttpClient) : Prop where
  send : s.send.Fits
  recv : s.recv.Fits
  faults : s.faults = 0

theorem Sane.same (hs : Sane s) (hsend : s'.send = s.send) (hrecv : s'.recv = s.recv) (hfaults : s'.faults = s.faults) :
    Sane s' :=
  ⟨hsend ▸ hs.send, hrecv ▸ hs.recv, hfaults.trans hs.faults⟩

theorem Parked.sane (h : Parked s s') (hs : Sane s) : Sane s' := by
  obtain ⟨env, rfl⟩ | hgone := h
  · exact ⟨hs.send, hs.recv, hs.faults⟩
  · obtain ⟨hsend, hrecv⟩ := hgone.buffers ⟨hs.send, hs.recv⟩
    exact ⟨hsend, hrecv, hgone.faults.trans hs.faults⟩

theorem sane_failed {s₁ : HttpClient} (hs : Sane s₁) (h : Withheld s₁.shutDown → Parked s₁.shutDown s') : Sane s' :=
  (h ⟨nofun, nofun⟩).sane ⟨hs.send, hs.recv, hs.faults⟩

theorem sane_recvTurn {turn : RecvTurn} (h : s.recvTurn = (turn, s')) (hs : Sane s) :
    Sane s' ∧ ∀ r, turn = .complete r → r.consumed ≤ s'.recv.len := by
  obtain ⟨hrecv, hfaults, hconsumed⟩ := fits_recvTurn h hs.recv
  obtain ⟨-, -, hsend, -⟩ := recvTurn_unwritten h
  exact ⟨⟨hsend ▸ hs.send, hrecv, hfaults.trans hs.faults⟩, hconsumed⟩

theorem sane_rest (hs : Sane s) {n : Nat} (hn : n ≤ s.recv.len) : Sane (s.rest n) := by
  obtain ⟨recv, hrecv, -, heq⟩ := rest_eq hs.recv hn
  rw [heq]
  exact ⟨IoBuffer.Backed.reset ⟨hs.send.backed, hs.send.small⟩, hrecv, hs.faults⟩

theorem sane_submit (hs : Sane s) {r : Request} {text : List UInt8}
    (hbuilt : buildHttpRequest s.send.tailroom s.cfg.host r = some text) : Sane ((s.asks r).submit text) := by
  have hroom := length_buildHttpRequest hbuilt
  obtain ⟨clocks, t, heq⟩ := (s.asks r).submit_eq text
  rw [heq]
  exact ⟨(hs.send.append hroom).1, IoBuffer.Backed.reset ⟨hs.recv.backed, hs.recv.small⟩, (tally_of hroom).trans hs.faults⟩

/-- `s'` continues `s`, and the buffers stay well formed in undisturbed runs. -/
structure Survives (s s' : HttpClient) : Prop where
  log : s.log <:+ s'.log
  sane : Undisturbed s' → Sane s → Sane s'

theorem Survives.same (hlog : s'.log = s.log) (hsend : s'.send = s.send) (hrecv : s'.recv = s.recv)
    (hfaults : s'.faults = s.faults) : Survives s s' :=
  ⟨hlog ▸ List.suffix_rfl, fun _ hs => hs.same hsend hrecv hfaults⟩

/-- A step that fails, and the callback behind it. -/
theorem Survives.failed {s₁ : HttpClient} (h : Withheld s₁.shutDown → Parked s₁.shutDown s') (hlog : s₁.log = s.log)
    (hs : Sane s → Sane s₁) : Survives s s' := by
  refine ⟨?_, fun _ hsane => sane_failed (hs hsane) h⟩
  rw [← hlog]
  exact (h ⟨nofun, nofun⟩).log

theorem survives_flushLoop {n : Nat} {how : Sending} (h : flushLoop n s = (how, s')) : s'.log = s.log ∧ (Sane s → Sane s') := by
  obtain ⟨writes, output, sends, wire, sendOff, interest, armed, rfl, -, -⟩ := flushLoop_eq h
  exact ⟨rfl, fun hs => ⟨hs.send, hs.recv, hs.faults⟩⟩

theorem survives_recvTurn {t : RecvTurn} (h : s.recvTurn = (t, s')) : s'.log = s.log ∧ (Sane s → Sane s') :=
  ⟨(recvTurn_kept h).2.1, fun hs => (sane_recvTurn h hs).1⟩

theorem withheld_deliver {s₁ : HttpClient} {r : HttpResponseView} (hs : s.state = .receiving)
    (h : s.recvTurn = (.complete r, s₁)) : Withheld (s₁.deliver r) := by
  have hstate : s₁.state = .receiving := (recvTurn_kept h).1.trans hs
  exact ⟨fun h => absurd (hstate.symm.trans h) nofun, fun h => absurd (hstate.symm.trans h) nofun⟩

/-- A response that is delivered and consumed. -/
theorem survives_rested {s₁ : HttpClient} {r : HttpResponseView} (h : s.recvTurn = (.complete r, s₁))
    (hparked : Parked (s₁.deliver r) s')
    (hlive : s'.state.Live) : Survives s ((s'.note (.completed s'.state)).rest r.consumed) := by
  have hlog : s.log <:+ s'.log := (recvTurn_kept h).2.1 ▸ hparked.log
  obtain ⟨hlogRest, -⟩ := (s'.note (.completed s'.state)).rest_kept r.consumed
  refine ⟨?_, fun hC hsane => ?_⟩
  · rw [hlogRest]
    exact hlog.trans (List.suffix_cons _ _)
  · obtain ⟨hs₁, hconsumed⟩ := sane_recvTurn h hsane
    have hnotConnecting : s'.state ≠ .connecting := by
      intro hconnecting
      rw [Undisturbed, hlogRest, hconnecting] at hC
      exact hC List.mem_cons_self
    -- the callback has left the connection, and its receive buffer, alone
    obtain ⟨env, heq⟩ | hgone := hparked
    · have hs' : Sane (s'.note (.completed s'.state)) := by
        rw [heq]
        exact ⟨hs₁.send, hs₁.recv, hs₁.faults⟩
      refine sane_rest hs' ?_
      change r.consumed ≤ s'.recv.len
      rw [heq]
      exact hconsumed r rfl
    · rcases hgone.state with hdead | hfresh
      · exact absurd hlive hdead
      · exact absurd hfresh.state hnotConnecting

theorem steps_survives : Steps (fun s s' => Withheld s → Parked s s') Survives where
  refl _ := ⟨List.suffix_rfl, fun _ h => h⟩
  trans h h' := ⟨h.log.trans h'.log, fun hC hs => h'.sane hC (h.sane (fun he => hC (h'.log.subset he)) hs)⟩
  expired h h' := by
    obtain ⟨⟨clocks, rfl⟩, -⟩ := deadlinePassed_eq h
    exact Survives.failed h' rfl (fun hs => ⟨hs.send, hs.recv, hs.faults⟩)
  unexpired h := by
    obtain ⟨⟨clocks, rfl⟩, -⟩ := deadlinePassed_eq h
    exact Survives.same rfl rfl rfl rfl
  refused h h' := by
    obtain ⟨env, send, recv, deadline, armed, fd, linked, wire, interest, pool, rfl, hfits, -⟩ := tryDial_false h
    exact Survives.failed h' rfl (fun hs => ⟨hfits.1, hfits.2, hs.faults⟩)
  dialed h := by
    have hgone := gone_dialed h
    exact ⟨hgone.log, fun _ hs => Parked.sane (Or.inr hgone) hs⟩
  submit {s r text} _ hbuilt := by
    have hlog : s.log <:+ ((s.asks r).submit text).log := by
      obtain ⟨clocks, t, heq⟩ := (s.asks r).submit_eq text
      rw [heq]
      exact List.suffix_cons _ _
    exact ⟨hlog, fun _ hs => sane_submit hs hbuilt⟩
  blocked _ h := ⟨(survives_flushLoop h).1 ▸ List.suffix_rfl, fun _ => (survives_flushLoop h).2⟩
  sent _ h := ⟨(survives_flushLoop h).1 ▸ List.suffix_rfl, fun _ => (survives_flushLoop h).2⟩
  unsent _ h h' := Survives.failed h' (survives_flushLoop h).1 (survives_flushLoop h).2
  stop _ h := ⟨(survives_recvTurn h).1 ▸ List.suffix_rfl, fun _ => (survives_recvTurn h).2⟩
  more _ h := ⟨(survives_recvTurn h).1 ▸ List.suffix_rfl, fun _ => (survives_recvTurn h).2⟩
  broken _ h h' := Survives.failed h' (survives_recvTurn h).1 (survives_recvTurn h).2
  answered hs h h' _ := by
    have hparked := h' (withheld_deliver hs h)
    refine ⟨(survives_recvTurn h).1 ▸ hparked.log, fun _ hsane => ?_⟩
    have hs₁ := (survives_recvTurn h).2 hsane
    exact hparked.sane ⟨hs₁.send, hs₁.recv, hs₁.faults⟩
  rested hs h h' hlive := survives_rested h (h' (withheld_deliver hs h)) hlive
  polled h := by
    obtain ⟨opens, rfl⟩ := transportPollOpen_eq h
    exact Survives.same rfl rfl rfl rfl
  unopened _ h _ h' := by
    obtain ⟨opens, rfl⟩ := transportPollOpen_eq h
    exact Survives.failed h' rfl (fun hs => ⟨hs.send, hs.recv, hs.faults⟩)
  opened {s s'} _ h := by
    obtain ⟨opens, interest, armed, heq, -⟩ := opened_eq h
    rw [heq]
    exact Survives.same rfl rfl rfl rfl
  close s := ⟨List.suffix_rfl, fun _ hs => Parked.sane (Or.inr s.gone_close) hs⟩

/-- No assertion of the buffers has failed, and the payload of both handles lies inside their buffers. -/
structure WellFormed (s : HttpClient) : Prop where
  faults : s.faults = 0
  send : s.send.head + s.send.len ≤ s.send.cap
  recv : s.recv.head + s.recv.len ≤ s.recv.cap

theorem wellFormed_run (cfg : ClientConfig) (depth : Nat) (calls : List (Api × Env))
    (h : Undisturbed (run depth (freshClient cfg) calls)) : WellFormed (run depth (freshClient cfg) calls) := by
  have hrun := keeps_run steps_survives (parked_callbacks depth) (fun _ _ => Survives.same rfl rfl rfl rfl)
    (freshClient cfg) calls
  have hsane := hrun.sane h ⟨IoBuffer.fits_empty, IoBuffer.fits_empty, rfl⟩
  exact ⟨hsane.faults, hsane.send.inside, hsane.recv.inside⟩

end Lepton.Http.HttpClient

namespace Lepton

/-- **Connecting anew from callbacks.** In every run of a session whose callbacks do not connect while a frame is
dispatched, and in every run of a client whose `on_response` does not return on a connection that it dialed, no
assertion of the buffers fails and every handle stays inside its buffer. -/
theorem reentries_wellFormed (depth : Nat) (cfg : Ws.Config) (seed : UInt64) (autoReconnect : Bool)
    (calls : List (Ws.Api × Ws.Env)) (clientCfg : Http.ClientConfig) (requests : List (Http.Api × Http.Env)) :
    let s := Ws.WsSession.run depth (Ws.fresh cfg seed autoReconnect) calls
    let c := Http.HttpClient.run depth (Http.freshClient clientCfg) requests
    (Ws.Undisturbed s → s.WellFormed) ∧ (c.Undisturbed → c.WellFormed) :=
  ⟨Ws.WsSession.wellFormed_run cfg seed autoReconnect depth calls, Http.HttpClient.wellFormed_run clientCfg depth requests⟩

/-- The peer ends the connection, or breaks it, and the user connects anew in the callback. -/
theorem redialed_wellFormed :
    let s := Ws.WsSession.run 1 (Ws.fresh Ws.plainConfig 1 false)
      (Ws.opening ++ [(.onReady, { reads := [.data []], connects := [some 8], scripts := [[.connect]] })])
    let c := Http.HttpClient.run 1 (Http.freshClient Http.smallConfig)
      (Http.halfway ++ [(.onReady, { writes := [.error], connects := [some 8], scripts := [[.connect]] })])
    s.state = .connecting ∧ s.WellFormed ∧ c.state = .connecting ∧ c.WellFormed :=
  ⟨by decide, (reentries_wellFormed 1 Ws.plainConfig 1 false _ Http.smallConfig []).1 (by decide),
    by decide, (reentries_wellFormed 1 Ws.plainConfig 1 false [] Http.smallConfig _).2 (by decide)⟩

/-- The user connects anew in `on_message` and in `on_response`: bytes of the old connection are consumed from the
empty buffer of the new one, whose length wraps. -/
theorem redialed_not_wellFormed :
    let s := Ws.WsSession.run 1 (Ws.fresh Ws.plainConfig 1 false)
      (Ws.opening ++ [(.onReady, { reads := [.data [0x81, 0x01, 0x41]], connects := [some 8], scripts := [[.connect]] })])
    let c := Http.HttpClient.run 1 (Http.freshClient Http.smallConfig) (Http.redialing Http.greeting.encode)
    (s.faults ≠ 0 ∧ ¬ s.recv.head + s.recv.len ≤ s.recv.cap) ∧ c.faults ≠ 0 := by
  decide +kernel

end Lepton

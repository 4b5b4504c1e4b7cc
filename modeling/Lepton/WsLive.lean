import Lepton.WsMarks

/-! Frames and messages of dead connections. `dispatch_frame` runs, and `on_message` is called, only in Open or
Closing over a connected transport, except in two runs: `drive_upgrade_read` parses what is left of its read without
a look at the state that `on_state(Open)` has left, and `close` moves a session to Closing that its own write has torn
down. -/

namespace Lepton.Ws

/-- A frame that is dispatched, or a message that is delivered, in Open or Closing over a connected transport. -/
def Mark.Alive : Mark → Prop
  | .frame st linked | .message st linked => st.Up ∧ linked = true
  | _ => True

instance : DecidablePred Mark.Alive
  | .frame st linked | .message st linked => inferInstanceAs (Decidable (st.Up ∧ linked = true))
  | .dial | .redial _ | .ended _ | .opened | .ping _ _ | .pong | .lapse _ | .consumed | .pool _ => isTrue trivial

/-- The two events after which a dead session goes on receiving. -/
def Ev.Guarded : Ev → Prop
  | .resumed st => st.Up
  | .written inClose answer => ¬ (inClose = true ∧ answer = .error)
  | _ => True

instance : DecidablePred Ev.Guarded
  | .resumed st => inferInstanceAs (Decidable st.Up)
  | .written inClose answer => inferInstanceAs (Decidable (¬ (inClose = true ∧ answer = .error)))
  | .changed _ | .response _ | .dialed _ | .added _ | .starved _ | .timedOut | .enqueued _ | .pingDue _ | .pongLate _
  | .requested _ _ | .closing _ _ _ _ => isTrue trivial

def Guarded (s : WsSession) : Prop := ∀ e ∈ s.log, e.Guarded

instance : DecidablePred Guarded := fun s => inferInstanceAs (Decidable (∀ e ∈ s.log, e.Guarded))

/-- A live session is connected, and so it was at every frame and message. -/
def Tied (s : WsSession) : Prop := (s.state.Live → s.linked = true) ∧ ∀ m ∈ s.marks, m.Alive

namespace WsSession

theorem alive_cons {m : Mark} {old : List Mark} (hm : m.Alive) (hold : ∀ m ∈ old, m.Alive) :
    ∀ m' ∈ m :: old, m'.Alive :=
  List.forall_mem_cons.mpr ⟨hm, hold⟩

theorem guarded_past {s s' : WsSession} (hlog : s.log <:+ s'.log) (_ : s.marks <:+ s'.marks) (h : Guarded s') :
    Guarded s :=
  fun e he => h e (hlog.subset he)

theorem linked_enter {s : WsSession} {st : WsState} (hlinked : st.Live → s.linked = true)
    (hlive : (s.enter st).state.Live) : (s.enter st).linked = true := by
  rw [enter_state] at hlive
  obtain ⟨log, h, -⟩ := s.enter_eq st
  rw [h]
  exact hlinked hlive

theorem calling_linked : Calling Guarded fun s => s.state.Live → s.linked = true where
  past := guarded_past
  quiet h hs hlive := h.linked.trans (hs (h.state ▸ hlive))
  down _ _ hnext _ _ := linked_enter fun hlive => absurd hlive hnext
  starved _ _ _ := linked_enter fun hlive => absurd hlive not_live_failed
  refused _ _ _ := linked_enter fun hlive => absurd hlive not_live_failed
  dialed h _ _ := linked_enter fun _ => by
    obtain ⟨env, deadline, fd, -, heq⟩ := tryDial_dialed h
    rw [heq]
  auto _ hs := hs
  closing hbasic hopen hC hs _ := linked_enter fun _ => by
    have hkept := sendClose_kept hbasic hopen fun he => hC (.written true .error) he ⟨rfl, rfl⟩
    exact hkept.2.trans (hs (hopen ▸ by decide))

theorem calling_alive : Calling Guarded fun s => ∀ m ∈ s.marks, m.Alive :=
  .of_marks (K := fun marks => ∀ m ∈ marks, m.Alive) guarded_past (fun _ _ h => alive_cons trivial h)
    (fun _ h => alive_cons trivial h) fun _ _ h => alive_cons trivial h

theorem marking_live : Marking WsState.Up Guarded Tied where
  toCalling := calling_linked.and calling_alive
  settled _ h := h.not_upgrading
  up _ h := h
  addMessage _ _ hup hs := ⟨hs.1, alive_cons ⟨hup, hs.1 hup.live⟩ hs.2⟩
  countFrame _ _ _ hup hs := ⟨hs.1, alive_cons ⟨hup, hs.1 hup.live⟩ hs.2⟩
  takePong _ hs := ⟨hs.1, alive_cons trivial hs.2⟩
  consume _ _ hs := ⟨hs.1, alive_cons trivial hs.2⟩

theorem tied_accept {s s' : WsSession} (hs : s.state = .upgrading) (h : s.readResponse = (.accept, s')) (ht : Tied s) :
    Tied (s'.enter .opened) := by
  obtain ⟨-, -, -, -, hlinked⟩ := readResponse_fields h
  refine ⟨linked_enter fun _ => hlinked.trans (ht.1 (hs ▸ by decide)), ?_⟩
  rw [enter_marks, marks_accepted h]
  exact alive_cons trivial (alive_cons trivial ht.2)

theorem timing_live : Timing WsState.Up Guarded Tied where
  toMarking := marking_live
  resumed s _ hC := hC (.resumed s.state) List.mem_cons_self
  reconnectDue s _ hs := by
    have hframe := s.frame_reconnectDue
    refine ⟨fun hlive => hframe.linked.trans (hs.1 (hframe.state ▸ hlive)), ?_⟩
    rcases s.marks_reconnectDue with ⟨-, hmarks, -⟩ | ⟨t, -, -, hmarks, -⟩
    · rw [hmarks]
      exact hs.2
    · rw [hmarks]
      exact alive_cons trivial hs.2
  upgrade s hs ht := by
    refine ⟨linked_enter fun _ => ht.1 (hs ▸ by decide), ?_⟩
    rw [enter_marks]
    exact ht.2
  opens {s s' s''} hs h hset hC ht := by
    have harm := s''.frame_armPing
    have hopened := (hset Tied marking_live.toCalling).inv (guarded_past harm.suffix harm.marks hC) (tied_accept hs h ht)
    obtain ⟨clocks, t, heq⟩ := s''.armPing_eq
    rw [heq]
    exact hopened
  keepalive hcb := by
    apply marking_live.checks hcb
    · intro s hs
      have hframe := s.frame_keepaliveTurn
      refine ⟨fun hlive => hframe.linked.trans (hs.1 (hframe.state ▸ hlive)), ?_⟩
      obtain ⟨found, s', h⟩ : ∃ found s', s.keepaliveTurn = (found, s') := ⟨_, _, rfl⟩
      rw [h]
      rcases marks_keepaliveTurn h with ⟨-, hmarks⟩ | ⟨t, -, hmarks, -⟩ | ⟨t, answer, -, hmarks⟩
      · rw [hmarks]
        exact hs.2
      · rw [hmarks]
        exact alive_cons trivial hs.2
      · rw [hmarks]
        exact alive_cons trivial hs.2
    · exact fun _ _ hs => hs

end WsSession

/-- **Messages of live sessions only.** In every run, every frame is dispatched and every message delivered in Open or
Closing over a connected transport, unless the parser has been resumed behind `on_state(Open)` in another state or a
write has failed inside `close`. -/
theorem delivered_alive (cfg : Config) (seed : UInt64) (autoReconnect : Bool) (depth : Nat) (calls : List (Api × Env))
    (hguarded : Guarded (WsSession.run depth (fresh cfg seed autoReconnect) calls)) :
    ∀ m ∈ (WsSession.run depth (fresh cfg seed autoReconnect) calls).marks, m.Alive := by
  have hstart : Tied (fresh cfg seed autoReconnect) := ⟨fun h => absurd h not_live_disconnected, nofun⟩
  exact ((WsSession.timing_live.runs depth _ calls).inv hguarded hstart).2

/-- The answer of the server comes with two frames, and a write of the user fails. -/
def eager (scripts : List (List Act)) : List (Api × Env) :=
  opening.take 2 ++
    [(.onReady,
      { reads := [.data (Http.ascii "HTTP/1.1 101 Switching Protocols\r\n\r\n" ++ [0x81, 0x01, 0x41, 0x81, 0x01, 0x42])]
        writes := [.error], scripts := scripts })]

/-- The user answers the first message: the session fails, and the second message is not delivered. -/
theorem eager_alive :
    let s := WsSession.run 1 (fresh plainConfig 1 false) (eager [[], [.send [0x43] false]])
    s.state = .failed ∧ s.messages.length = 1 ∧ ∀ m ∈ s.marks, m.Alive :=
  ⟨by decide +kernel, by decide +kernel, delivered_alive plainConfig 1 false 1 _ (by decide +kernel)⟩

/-- The user sends in `on_state(Open)`: the session fails, and the first message is delivered in Failed. -/
theorem greeting_not_alive :
    let s := WsSession.run 1 (fresh plainConfig 1 false) (eager [[.send [0x43] false]])
    s.state = .failed ∧ s.messages.length = 1 ∧ ¬ ∀ m ∈ s.marks, m.Alive := by
  decide +kernel

end Lepton.Ws

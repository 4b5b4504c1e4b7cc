import Lepton.WsLink

/-! The life cycle that `on_state` shows. Callbacks may connect and close, and so change the state again before the call
that notified them has gone on; still the states that a user is told of, in the order of the calls of `on_state`, are a path
through the life cycle of a connection, unless a write fails inside `close`. -/

namespace Lepton.Ws

variable {s s' s'' : WsSession} {cb : Callbacks}

/-- The life cycle: any state may end and any may be left for a new connection, but a connection opens and closes step by
step. -/
inductive Follows : WsState → WsState → Prop
  | dial {st : WsState} : Follows st .connecting
  | upgrade : Follows .connecting .upgrading
  | opened : Follows .upgrading .opened
  | closing : Follows .opened .closing
  | down {st next : WsState} (dead : ¬ next.Live) : Follows st next

/-- The states that `on_state` is called with, the latest first. -/
def notified (log : List Ev) : List WsState :=
  log.filterMap fun
    | .changed st => some st
    | _ => none

/-- Those states after the one that a session is constructed with. -/
def chart (log : List Ev) : List WsState := notified log ++ [.disconnected]

/-- The latest state shown is that of the session, and each follows the one before and differs from it. -/
structure Charted (s : WsSession) : Prop where
  now : (chart s.log).head? = some s.state
  path : (chart s.log).IsChain fun next before => Follows before next ∧ next ≠ before

/-- No write fails inside `close`. -/
def Unbroken (s : WsSession) : Prop := .written true .error ∉ s.log

instance : DecidablePred Unbroken := fun s => inferInstanceAs (Decidable (.written true .error ∉ s.log))

/-- `s'` continues `s`, along the life cycle. -/
structure Charts (s s' : WsSession) : Prop where
  log : s.log <:+ s'.log
  charted : Unbroken s' → Charted s → Charted s'

theorem Charts.refl (s : WsSession) : Charts s s := ⟨List.suffix_rfl, fun _ h => h⟩

theorem Charts.trans (h : Charts s s') (h' : Charts s' s'') : Charts s s'' :=
  ⟨h.log.trans h'.log, fun hcalm hs => h'.charted hcalm (h.charted (fun he => hcalm (h'.log.subset he)) hs)⟩

/-- An event that is not shown to the user. -/
def Ev.Hidden : Ev → Prop
  | .changed _ => False
  | _ => True

theorem Ev.hidden_of_ne {e : Ev} (h : ∀ st, e ≠ .changed st) : e.Hidden := by
  cases e with
  | changed st => exact absurd rfl (h st)
  | response _ | dialed _ | added _ | written _ _ | starved _ | timedOut | enqueued _ | pingDue _ | pongLate _ | resumed _
  | requested _ _ | closing _ _ _ _ => trivial

theorem notified_append {new log : List Ev} (h : ∀ e ∈ new, e.Hidden) : notified (new ++ log) = notified log := by
  induction new with
  | nil => rfl
  | cons e new ih =>
    obtain ⟨he, hnew⟩ := List.forall_mem_cons.mp h
    cases e with
    | changed st => exact absurd he id
    | response _ | dialed _ | added _ | written _ _ | starved _ | timedOut | enqueued _ | pingDue _ | pongLate _ | resumed _
    | requested _ _ | closing _ _ _ _ => exact ih hnew

/-- A step that keeps the state and shows nothing. -/
theorem Charts.hidden (new : List Ev) (hlog : s'.log = new ++ s.log) (hnew : ∀ e ∈ new, e.Hidden)
    (hstate : s'.state = s.state) : Charts s s' := by
  refine ⟨⟨new, hlog.symm⟩, fun _ hs => ?_⟩
  have hshown : chart s'.log = chart s.log := by rw [chart, hlog, notified_append hnew, chart]
  exact ⟨by rw [hshown, hstate]; exact hs.now, by rw [hshown]; exact hs.path⟩

theorem Charts.quiet (hlog : s'.log = s.log) (hstate : s'.state = s.state) : Charts s s' :=
  Charts.hidden [] hlog nofun hstate

theorem Charts.event {e : Ev} (hlog : s'.log = e :: s.log) (he : e.Hidden) (hstate : s'.state = s.state) :
    Charts s s' :=
  Charts.hidden [e] hlog (fun _ h => List.mem_singleton.mp h ▸ he) hstate

namespace WsSession

theorem charts_of_frame (h : Frame s s') : Charts s s' := by
  obtain ⟨new, hlog, hnew⟩ := h.log
  exact Charts.hidden new hlog (fun e he => Ev.hidden_of_ne fun st heq => by cases heq ▸ hnew e he) h.state

/-- The state changes, and the user is told. -/
theorem charted_enter {st : WsState} (h : Charted s) (hst : Follows s.state st) : Charted (s.enter st) := by
  unfold enter
  split
  · exact h
  · next hne =>
    obtain ⟨before, hchart⟩ := List.head?_eq_some_iff.mp h.now
    refine ⟨rfl, ?_⟩
    change (st :: chart s.log).IsChain _
    have hpath := h.path
    rw [hchart] at hpath ⊢
    exact List.isChain_cons_cons.mpr ⟨⟨hst, hne⟩, hpath⟩

theorem charts_enter {s₀ : WsSession} {st : WsState} (h : Charts s₀ s)
    (hst : Unbroken s → Charted s₀ → Follows s.state st) : Charts s₀ (s.enter st) := by
  have hlog := s.enter_log st
  refine ⟨h.log.trans hlog, fun hcalm hs => ?_⟩
  have hbefore : Unbroken s := fun he => hcalm (hlog.subset he)
  exact charted_enter (h.charted hbefore hs) (hst hbefore hs)

theorem charts_shutDown (s : WsSession) (next : WsState) : Charts s (s.shutDown next) := by
  obtain ⟨clocks, t, h⟩ := s.shutDown_eq next
  rw [h]
  exact Charts.quiet rfl rfl

theorem charts_down {s₀ : WsSession} (h : Charts s₀ s) {next : WsState} (hnext : ¬ next.Live) :
    Charts s₀ ((s.shutDown next).enter next) :=
  charts_enter (h.trans (s.charts_shutDown next)) fun _ _ => .down hnext

theorem takes_charts : Takes Charts :=
  Takes.of_frame Charts.refl Charts.trans charts_of_frame fun s _ hnext => charts_down (Charts.refl s) hnext

theorem blocks_charts : Blocks Charts := takes_charts.toBlocks

theorem dials_charts : Dials Charts where
  starved {s s'} h := by
    obtain ⟨acquires, recv, heq⟩ := tryDial_starved h
    refine charts_enter (Charts.event (e := .starved s.linked) ?_ trivial ?_) fun _ _ => .down not_live_failed
    · rw [heq]
    · rw [heq]
  refused {s s'} h := by
    obtain ⟨env, recv, deadline, -, heq⟩ := tryDial_refused h
    refine charts_down (Charts.quiet ?_ ?_) not_live_failed
    · rw [heq]
      rfl
    · rw [heq]
      rfl
  dialed {s s'} h := by
    obtain ⟨env, deadline, fd, -, heq⟩ := tryDial_dialed h
    refine charts_enter (Charts.event (e := .dialed s.registered) ?_ trivial ?_) fun _ _ => .dial
    · rw [heq]
    · rw [heq]
      rfl
  register := keeps_register Charts.refl fun _ ok _ _ => Charts.event (e := .added ok) rfl trivial rfl

theorem charts_act (hcb : Keeping Charts cb) (hbasic : Keeping Basic cb) (s : WsSession) (a : Act) :
    Charts s (act cb s a) := by
  cases a with
  | connect => exact keeps_startConnect blocks_charts dials_charts hcb s
  | send payload binary => exact keeps_send blocks_charts.toFlushes hcb s payload binary
  | close code =>
    apply keeps_close blocks_charts hcb s code (Charts.quiet rfl rfl)
    intro hopen
    have hsend : Charts s (sendClose cb s code) :=
      keeps_sendClose blocks_charts.toFlushes hcb (Charts.quiet rfl rfl) (takes_charts.queueFrame ..)
        fun _ _ _ _ _ => Charts.event (e := .closing _ _ _ _) rfl trivial rfl
    -- unless a write has failed, the session is still open when its frame is sent
    refine charts_enter hsend fun hcalm _ => ?_
    rw [(sendClose_kept hbasic hopen hcalm).1]
    exact .closing

theorem charts_callbacks (depth : Nat) : Keeping Charts (callbacks depth) :=
  keeping_callbacks Charts.refl Charts.trans (fun _ _ => Charts.quiet rfl rfl)
    (fun depth hcb => charts_act hcb (basic_callbacks depth)) depth

theorem charts_request {ok : Bool} (hs : s.state = .connecting) (hset : Charts (s.enter .upgrading) s')
    (hrequest : s'.queueRequest = (ok, s'')) : Charts s s'' := by
  have hup : Charts s (s.enter .upgrading) := charts_enter (Charts.refl s) fun _ _ => hs ▸ .upgrade
  refine hup.trans (hset.trans ?_)
  obtain ⟨acquires, faults, pending, interest, request, marks, rfl, -⟩ := queueRequest_snd hrequest
  exact Charts.event (e := .requested _ _) rfl trivial rfl

theorem charts_of_inward (h : Inward s s') : Charts s s' := by
  obtain ⟨new, hlog, hnew⟩ := h.log
  exact Charts.hidden new hlog (fun e he => Ev.hidden_of_ne fun st heq => by cases heq ▸ hnew e he) h.state

theorem drives_charts : Drives Charts Charts :=
  takes_charts.drives blocks_charts.above (dials_charts.connects blocks_charts.above) charts_of_inward charts_request
    fun {s} hs => charts_enter (Charts.refl s) fun _ _ => hs ▸ .opened

end WsSession

/-- **The states that a user is told of are a path through the life cycle**, in every run with callbacks nested to any depth
in which no write fails inside `close`; and the last of them is the state of the session. -/
theorem notifications_charted (cfg : Config) (seed : UInt64) (autoReconnect : Bool) (depth : Nat) (calls : List (Api × Env))
    (hcalm : Unbroken (WsSession.run depth (fresh cfg seed autoReconnect) calls)) :
    Charted (WsSession.run depth (fresh cfg seed autoReconnect) calls) := by
  have hstart : Charted (fresh cfg seed autoReconnect) := ⟨rfl, .singleton _⟩
  have hrun := WsSession.keeps_run WsSession.blocks_charts WsSession.drives_charts (WsSession.charts_callbacks depth)
    (fun _ _ => Charts.quiet rfl rfl) (WsSession.charts_act (WsSession.charts_callbacks depth) (WsSession.basic_callbacks depth))
    (fresh cfg seed autoReconnect) calls
  exact hrun.charted hcalm hstart

/-- A callback that closes the session as soon as it has opened. -/
theorem closedAtOnce_charted :
    let s := WsSession.run 1 (fresh plainConfig 1 false)
      [(.act .connect, { connects := [some 7] }), (.onReady, { opens := [.opened], writes := [.accepted 256] }),
       (.onReady, { reads := [.data (Http.ascii "HTTP/1.1 101 Switching Protocols\r\n\r\n")], scripts := [[.close 1000]] })]
    notified s.log = [.closing, .opened, .upgrading, .connecting] ∧ Charted s :=
  ⟨by decide, notifications_charted plainConfig 1 false 1 _ (by decide)⟩

/-- A write that fails inside `close`: the user is told that the session has failed, and then that it is closing. -/
theorem brokenClose_not_charted :
    let s := WsSession.run 0 (fresh plainConfig 1 false) (opening ++ [(.act (.close 1000), { writes := [.error] })])
    ¬ Charted s := by
  intro s h
  have hshown : chart s.log = [.closing, .failed, .opened, .upgrading, .connecting, .disconnected] := by decide
  have hpath := h.path
  rw [hshown] at hpath
  obtain ⟨hfollows, -⟩ := (List.isChain_cons_cons.mp hpath).1
  cases hfollows with
  | down dead => exact absurd dead (by decide)

end Lepton.Ws

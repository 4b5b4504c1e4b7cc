import Lepton.WsResponse
import Lepton.WsLink

/-! When a session opens. The log of a run is judged as a whole: a complete response is followed at
once by a move to Open or to Failed, and no other step moves to Open. Between two responses a session
that upgrades only gathers bytes, so the response it judges is everything received since the
request. -/

namespace Lepton.Ws

variable {s s' s'' : WsSession} {cb : Callbacks}

/-- An event that neither completes a response nor opens the session. -/
def Ev.Plain : Ev → Prop
  | .response _ => False
  | .changed .opened => False
  | _ => True

/-- Every complete response is followed at once by a state change: to Open, if it switches protocols,
or to Failed. Nothing else opens the session. -/
def Judged (expected : List UInt8) : List Ev → Prop
  | [] => True
  | .changed st :: .response input :: rest =>
    (st = .opened ∧ Switches expected input ∨ st = .failed) ∧ Judged expected rest
  | e :: rest => e.Plain ∧ Judged expected rest

/-- The state last entered. -/
def lastState : List Ev → WsState
  | [] => .disconnected
  | .changed st :: _ => st
  | _ :: rest => lastState rest

/-- No response in the log is mistaken for a switch of protocols. -/
def AllProper (s : WsSession) : Prop := ∀ input, .response input ∈ s.log → Proper s.cfg.expectedAccept input

theorem Ev.Routine.plain {inClose : Bool} {e : Ev} (h : e.Routine inClose) : e.Plain := by
  cases e with
  | timedOut | enqueued _ | pingDue _ | pongLate _ | written _ _ => exact trivial
  | changed _ | response _ | dialed _ | added _ | starved _ | resumed _ | requested _ _ | closing _ _ _ _ => exact absurd h id

theorem lastState_append {inClose : Bool} {new log : List Ev} (hnew : ∀ e ∈ new, e.Routine inClose) :
    lastState (new ++ log) = lastState log := by
  induction new with
  | nil => rfl
  | cons e new ih =>
    have hrest := ih fun e he => hnew e (List.mem_cons_of_mem _ he)
    have he := hnew e List.mem_cons_self
    cases e with
    | timedOut | enqueued _ | pingDue _ | pongLate _ | written _ _ => exact hrest
    | changed _ | response _ | dialed _ | added _ | starved _ | resumed _ | requested _ _ | closing _ _ _ _ =>
      exact absurd he id

theorem judged_cons {expected : List UInt8} {e : Ev} {log : List Ev} (he : e.Plain) (h : Judged expected log) :
    Judged expected (e :: log) := by
  cases e with
  | changed st =>
    cases log with
    | nil => exact ⟨he, h⟩
    | cons e' rest =>
      cases e' with
      | response input => exact absurd h.1 id
      | changed _ | dialed _ | added _ | written _ _ | starved _ | timedOut | enqueued _ | pingDue _ | pongLate _
      | resumed _ | requested _ _ | closing _ _ _ _ => exact ⟨he, h⟩
  | response input => exact absurd he id
  | dialed _ | added _ | written _ _ | starved _ | timedOut | enqueued _ | pingDue _ | pongLate _ | resumed _ | requested _ _
  | closing _ _ _ _ => exact ⟨he, h⟩

theorem judged_append {expected : List UInt8} {new log : List Ev} (hnew : ∀ e ∈ new, e.Plain)
    (h : Judged expected log) : Judged expected (new ++ log) := by
  induction new with
  | nil => exact h
  | cons e new ih =>
    exact judged_cons (hnew e List.mem_cons_self) (ih fun e he => hnew e (List.mem_cons_of_mem _ he))

/-- `s'` continues `s` with plain events, and the log tells the state if it did. -/
structure Plainly (s s' : WsSession) : Prop where
  cfg : s'.cfg = s.cfg
  log : ∃ new, s'.log = new ++ s.log ∧ ∀ e ∈ new, e.Plain
  tracked : s.state = lastState s.log → s'.state = lastState s'.log

theorem Plainly.trans (h : Plainly s s') (h' : Plainly s' s'') : Plainly s s'' := by
  obtain ⟨new, hlog, hnew⟩ := h.log
  obtain ⟨new', hlog', hnew'⟩ := h'.log
  refine ⟨h'.cfg.trans h.cfg, ⟨new' ++ new, ?_, ?_⟩, fun hs => h'.tracked (h.tracked hs)⟩
  · rw [hlog', hlog, List.append_assoc]
  · intro e he
    exact (List.mem_append.mp he).elim (hnew' e) (hnew e)

theorem Plainly.same (hcfg : s'.cfg = s.cfg) (hlog : s'.log = s.log) (hstate : s'.state = s.state) :
    Plainly s s' :=
  ⟨hcfg, ⟨[], hlog, nofun⟩, fun h => by rw [hstate, hlog]; exact h⟩

/-- An event beside the state. -/
theorem Plainly.event {e : Ev} (hcfg : s'.cfg = s.cfg) (hlog : s'.log = e :: s.log)
    (hstate : s'.state = s.state) (he : e.Plain) (hst : ∀ st, e ≠ .changed st) : Plainly s s' := by
  refine ⟨hcfg, ⟨[e], hlog, fun e' he' => List.mem_singleton.mp he' ▸ he⟩, fun h => ?_⟩
  rw [hstate, hlog]
  cases e with
  | changed st => exact absurd rfl (hst st)
  | response _ | dialed _ | added _ | written _ _ | starved _ | timedOut | enqueued _ | pingDue _ | pongLate _ | resumed _
  | requested _ _ | closing _ _ _ _ => exact h

namespace WsSession

theorem enter_tracked (h : s.state = lastState s.log) (st : WsState) :
    (s.enter st).state = lastState (s.enter st).log := by
  obtain ⟨log, heq, hlog⟩ := s.enter_eq st
  rw [heq]
  rcases hlog with ⟨rfl, hst⟩ | rfl
  · exact hst.symm.trans h
  · rfl

theorem plainly_enter (s : WsSession) {st : WsState} (hst : st ≠ .opened) : Plainly s (s.enter st) := by
  have htracked : s.state = lastState s.log → (s.enter st).state = lastState (s.enter st).log :=
    fun h => enter_tracked h st
  obtain ⟨log, heq, hlog⟩ := s.enter_eq st
  rw [heq] at htracked ⊢
  refine ⟨rfl, ?_, htracked⟩
  rcases hlog with ⟨rfl, -⟩ | rfl
  · exact ⟨[], rfl, nofun⟩
  · refine ⟨[.changed st], rfl, fun e he => ?_⟩
    rw [List.mem_singleton.mp he]
    cases st with
    | opened => exact absurd rfl hst
    | disconnected | connecting | upgrading | closing | failed => exact trivial

theorem plainly_frame (h : Frame s s') : Plainly s s' := by
  obtain ⟨new, hlog, hnew⟩ := h.log
  refine ⟨h.cfg, ⟨new, hlog, fun e he => (hnew e he).plain⟩, fun hs => ?_⟩
  rw [h.state, hlog, lastState_append hnew]
  exact hs

/-- What user code may do to a session that waits for its response: nothing but end the wait. -/
structure Apart (s s' : WsSession) : Prop extends Plainly s s' where
  upgrading : s'.state = .upgrading → s.state = .upgrading ∧ s'.recv = s.recv ∧ s'.input = s.input
  backed : (s.state = .connecting → s.recv.Backed) → s'.state = .connecting → s'.recv.Backed

theorem Apart.refl (s : WsSession) : Apart s s :=
  ⟨Plainly.same rfl rfl rfl, fun h => ⟨h, rfl, rfl⟩, fun h => h⟩

theorem Apart.trans (h : Apart s s') (h' : Apart s' s'') : Apart s s'' := by
  refine ⟨h.toPlainly.trans h'.toPlainly, fun hup => ?_, fun hb => h'.backed (h.backed hb)⟩
  obtain ⟨hup', hrecv', hinput'⟩ := h'.upgrading hup
  obtain ⟨hup, hrecv, hinput⟩ := h.upgrading hup'
  exact ⟨hup, hrecv'.trans hrecv, hinput'.trans hinput⟩

theorem Apart.of_frame (h : Frame s s') : Apart s s' :=
  ⟨plainly_frame h, fun hup => ⟨h.state ▸ hup, h.recv, h.input⟩, fun hb hc => h.recv ▸ hb (h.state ▸ hc)⟩

theorem apart_same (hcfg : s'.cfg = s.cfg) (hlog : s'.log = s.log) (hstate : s'.state = s.state)
    (hrecv : s'.recv = s.recv) (hinput : s'.input = s.input) : Apart s s' :=
  ⟨Plainly.same hcfg hlog hstate, fun hup => ⟨hstate ▸ hup, hrecv, hinput⟩, fun hb hc => hrecv ▸ hb (hstate ▸ hc)⟩

theorem apart_event {e : Ev} (hcfg : s'.cfg = s.cfg) (hlog : s'.log = e :: s.log)
    (hstate : s'.state = s.state) (he : e.Plain) (hst : ∀ st, e ≠ .changed st) (hrecv : s'.recv = s.recv)
    (hinput : s'.input = s.input) : Apart s s' :=
  ⟨Plainly.event hcfg hlog hstate he hst, fun hup => ⟨hstate ▸ hup, hrecv, hinput⟩, fun hb hc => hrecv ▸ hb (hstate ▸ hc)⟩

theorem apart_enter {s₀ : WsSession} (h : Plainly s₀ s) {st : WsState} (hst : st ≠ .opened)
    (hup : st ≠ .upgrading) (hconn : st = .connecting → s.recv.Backed) : Apart s₀ (s.enter st) := by
  refine ⟨h.trans (s.plainly_enter hst), fun h => absurd (s.enter_state st ▸ h) hup, fun _ hc => ?_⟩
  have hbacked := hconn ((s.enter_state st).symm.trans hc)
  obtain ⟨log, heq, -⟩ := s.enter_eq st
  rw [heq]
  exact hbacked

theorem apart_down {s₀ : WsSession} (h : Plainly s₀ s) {next : WsState} (hnext : ¬ next.Live) :
    Apart s₀ ((s.shutDown next).enter next) := by
  have hshut : Plainly s (s.shutDown next) := by
    obtain ⟨clocks, t, heq⟩ := s.shutDown_eq next
    rw [heq]
    exact Plainly.same rfl rfl rfl
  apply apart_enter (h.trans hshut)
  · exact fun he => hnext (he ▸ by decide)
  · exact fun he => hnext (he ▸ by decide)
  · exact fun he => absurd (he ▸ by decide : next.Live) hnext

theorem takes_apart : Takes Apart :=
  Takes.of_frame Apart.refl Apart.trans Apart.of_frame fun _ _ hnext => apart_down (Plainly.same rfl rfl rfl) hnext

theorem blocks_apart : Blocks Apart := takes_apart.toBlocks

theorem dials_apart : Dials Apart where
  starved h := by
    obtain ⟨acquires, recv, hs⟩ := tryDial_starved h
    rw [hs]
    refine apart_enter ?_ nofun nofun nofun
    exact Plainly.event rfl rfl rfl trivial nofun
  refused h := by
    obtain ⟨env, recv, deadline, -, hs⟩ := tryDial_refused h
    rw [hs]
    refine apart_down ?_ not_live_failed
    exact Plainly.same rfl rfl rfl
  dialed {s s'} h := by
    obtain ⟨id, hrecv⟩ := tryDial_recv h
    have hfits : s'.recv.Fits := by
      rw [hrecv]
      exact IoBuffer.fits_blank (Nat.zero_le _) s.cfg.cap_lt
    obtain ⟨env, deadline, fd, -, hs⟩ := tryDial_dialed h
    have hplain : Plainly s s' := by
      rw [hs]
      exact Plainly.event rfl rfl rfl trivial nofun
    exact apart_enter hplain nofun nofun fun _ => ⟨hfits.backed, hfits.small⟩
  register := keeps_register Apart.refl fun _ _ _ _ => apart_event rfl rfl rfl trivial nofun rfl rfl

theorem apart_act (hcb : Keeping Apart cb) (s : WsSession) (a : Act) : Apart s (act cb s a) := by
  cases a with
  | connect => exact keeps_startConnect blocks_apart dials_apart hcb s
  | send payload binary => exact keeps_send blocks_apart.toFlushes hcb s payload binary
  | close code =>
    apply keeps_close blocks_apart hcb s code (apart_same rfl rfl rfl rfl rfl)
    intro _
    have hsend : Apart s (sendClose cb s code) :=
      keeps_sendClose blocks_apart.toFlushes hcb (apart_same rfl rfl rfl rfl rfl) (takes_apart.queueFrame ..)
        fun _ _ _ _ _ => apart_event rfl rfl rfl trivial nofun rfl rfl
    exact apart_enter hsend.toPlainly nofun nofun nofun

theorem apart_callbacks (depth : Nat) : Keeping Apart (callbacks depth) :=
  keeping_callbacks Apart.refl Apart.trans (fun _ _ => apart_same rfl rfl rfl rfl rfl) (fun _ hcb => apart_act hcb) depth

/-- A session whose log is judged, and which has gathered the input of the response it awaits. -/
structure Upright (s : WsSession) : Prop where
  backed : s.state = .connecting → s.recv.Backed
  gathered : s.state = .upgrading → s.recv.Fits ∧ s.recv.bytes = s.input
  tracked : s.state = lastState s.log
  judged : Judged s.cfg.expectedAccept s.log

/-- `s'` continues `s`, and stays upright if all responses are proper. -/
structure Opens (s s' : WsSession) : Prop where
  log : s.log <:+ s'.log
  cfg : s'.cfg = s.cfg
  upright : AllProper s' → Upright s → Upright s'

theorem Opens.trans (h : Opens s s') (h' : Opens s' s'') : Opens s s'' := by
  refine ⟨h.log.trans h'.log, h'.cfg.trans h.cfg, fun hproper hs => h'.upright hproper (h.upright ?_ hs)⟩
  intro input hmem
  have := hproper input (h'.log.subset hmem)
  rwa [h'.cfg] at this

theorem Opens.of_plainly (h : Plainly s s')
    (hbacked : Upright s → s'.state = .connecting → s'.recv.Backed)
    (hgathered : Upright s → s'.state = .upgrading → s'.recv.Fits ∧ s'.recv.bytes = s'.input) : Opens s s' := by
  obtain ⟨new, hlog, hnew⟩ := h.log
  refine ⟨⟨new, hlog.symm⟩, h.cfg, fun _ hs => ⟨hbacked hs, hgathered hs, h.tracked hs.tracked, ?_⟩⟩
  rw [h.cfg, hlog]
  exact judged_append hnew hs.judged

theorem Opens.of_apart (h : Apart s s') : Opens s s' := by
  apply Opens.of_plainly h.toPlainly
  · exact fun hs => h.backed hs.backed
  · intro hs hup
    obtain ⟨hup, hrecv, hinput⟩ := h.upgrading hup
    rw [hrecv, hinput]
    exact hs.gathered hup

theorem above_opens : Above Apart Opens := ⟨Opens.of_apart, Opens.trans⟩

/-- Steps of a session that awaits no response. -/
theorem opens_recv {recv : IoBuffer} {faults : Nat} {marks : List Mark}
    (hs' : s' = { s with recv := recv, faults := faults, marks := marks }) (hup : s.state ≠ .upgrading)
    (hrecv : s.recv.Backed → recv.Backed) : Opens s s' := by
  subst hs'
  exact Opens.of_plainly (Plainly.same rfl rfl rfl) (fun hs hc => hrecv (hs.backed hc)) fun _ h => absurd h hup

theorem backed_compactRecv (h : s.recv.Backed) : s.compactRecv.recv.Backed := by
  unfold compactRecv
  split
  · exact ⟨h.reset.backed, h.small⟩
  · split
    · exact h
    · exact h.moveToFront

/-- The response that `drive_upgrade_read` judges is the whole input. -/
theorem readResponse_cases {v : Verdict} (h : s.readResponse = (v, s')) (hfits : s.recv.Fits)
    (hbytes : s.recv.bytes = s.input) :
    (s'.log = s.log ∧ v ≠ .accept ∧ (v = .wait → s'.recv.Fits ∧ s'.recv.bytes = s'.input)) ∨
    (s'.log = .response s'.input :: s.log ∧ v ≠ .wait ∧
      (v = .accept → Proper s.cfg.expectedAccept s'.input → Switches s.cfg.expectedAccept s'.input)) := by
  rcases readResponse_turn h with ⟨-, rfl, rfl⟩ | ⟨reads, ⟨rfl, rfl⟩ | ⟨rfl, rfl⟩ | ⟨rfl, rfl⟩ | ⟨bytes, -, hlen, hjudge⟩⟩
  · exact Or.inl ⟨rfl, (fun h => by cases h), fun h => by cases h⟩
  · exact Or.inl ⟨rfl, (fun h => by cases h), fun _ => ⟨hfits, hbytes⟩⟩
  · exact Or.inl ⟨rfl, (fun h => by cases h), fun h => by cases h⟩
  · exact Or.inl ⟨rfl, (fun h => by cases h), fun h => by cases h⟩
  · obtain ⟨hfits', hbytes'⟩ := hfits.append hlen
    rw [hbytes] at hbytes'
    unfold judgeResponse at hjudge
    dsimp only [note, appendRecv, heard] at hjudge
    rw [hbytes'] at hjudge
    split at hjudge
    · cases hjudge
      exact Or.inl ⟨rfl, (fun h => by cases h), fun _ => ⟨hfits', hbytes'⟩⟩
    · next hcomplete =>
      split at hjudge
      · cases hjudge
        exact Or.inr ⟨rfl, (fun h => by cases h), fun h => by cases h⟩
      · next hok =>
        obtain ⟨recv, faults, hc⟩ := compactRecv_eq (consumeRecv _ _)
        rw [hc] at hjudge
        cases hjudge
        refine Or.inr ⟨rfl, (fun h => by cases h), fun _ hproper => ?_⟩
        exact switches_of_ok hproper (eq_true_of_ne_false hcomplete) (eq_true_of_ne_false hok)

theorem upright_enter {st : WsState} (hstate : s.state ≠ st) (hconn : st ≠ .connecting)
    (hup : st ≠ .upgrading) (hjudged : Judged s.cfg.expectedAccept (.changed st :: s.log)) : Upright (s.enter st) := by
  have heq : s.enter st = { s.note (.changed st) with state := st } := if_neg fun h => hstate h.symm
  rw [heq]
  exact ⟨fun h => absurd h hconn, fun h => absurd h hup, rfl, hjudged⟩

theorem opens_parseFrames (hcb : Keeping Apart cb) (hbasic : Keeping Basic cb) (s : WsSession)
    (hs : s.state ≠ .upgrading) : Opens s (parseFrames cb s) := by
  refine keeps_parseFrames (P := (· ≠ .upgrading)) (fun _ h => h) ?_ takes_apart.receives above_opens
    (fun s payload _ => takes_apart.queueFrame s .pong payload true) ?_ ?_ hcb hbasic s hs
  · exact fun _ h => h.not_upgrading
  · exact fun s n hup => opens_recv rfl hup fun h => h.consume n
  · intro s hup
    have hbacked : s.recv.Backed → s.compactRecv.recv.Backed := backed_compactRecv
    obtain ⟨recv, faults, h⟩ := s.compactRecv_eq
    rw [h] at hbacked
    exact opens_recv h hup hbacked

theorem opens_request {ok : Bool} (hs : s.state = .connecting) (hset : Apart (s.enter .upgrading) s')
    (hrequest : s'.queueRequest = (ok, s'')) : Opens s s'' := by
  obtain ⟨acquires, faults, pending, interest, request, marks, rfl, -⟩ := queueRequest_snd hrequest
  have hplain := (s.plainly_enter (by decide : WsState.upgrading ≠ .opened)).trans hset.toPlainly
  refine Opens.of_plainly (hplain.trans ?_) ?_ ?_
  · exact Plainly.event rfl rfl rfl trivial nofun
  · intro _ hconn
    have hbacked := hset.backed (fun h => absurd ((s.enter_state .upgrading).symm.trans h) nofun) hconn
    exact ⟨hbacked.size, hbacked.small⟩
  · intro hup hstate
    obtain ⟨-, hrecv, -⟩ := hset.upgrading hstate
    obtain ⟨log, heq, -⟩ := s.enter_eq .upgrading
    rw [heq] at hrecv
    have hbacked : s'.recv.Backed := hrecv ▸ hup.backed hs
    exact ⟨hbacked.reset, rfl⟩

theorem drives_opens : Drives Apart Opens where
  toAbove := above_opens
  toConnects := dials_apart.lift above_opens
  reconnectDue s _ := Opens.of_apart (Apart.of_frame s.frame_reconnectDue)
  pollOpen s := Opens.of_apart (Apart.of_frame s.frame_transportPollOpen)
  request := opens_request
  refuse hs hset h := (opens_request hs hset h).trans (Opens.of_apart (blocks_apart.down _ not_live_failed))
  wait {s s'} hs h := by
    obtain ⟨hlog, hwire, hstate, hcfg, -⟩ := readResponse_fields h
    refine ⟨hlog, hcfg, fun _ hup => ?_⟩
    obtain ⟨hfits, hbytes⟩ := hup.gathered hs
    rcases readResponse_cases h hfits hbytes with ⟨hsame, -, hwait⟩ | ⟨-, hv, -⟩
    · refine ⟨fun hc => absurd ((hstate.trans hs).symm.trans hc) nofun, fun _ => hwait rfl, ?_, ?_⟩
      · rw [hstate, hsame]
        exact hup.tracked
      · rw [hcfg, hsame]
        exact hup.judged
    · exact absurd rfl hv
  reject {s s'} hs h := by
    obtain ⟨hlog, hwire, hstate, hcfg, -⟩ := readResponse_fields h
    have hbase := basic_down s' not_live_failed hlog (suffix_readResponse h) hwire hcfg
    refine ⟨hbase.log, hbase.cfg, fun _ hup => ?_⟩
    obtain ⟨hfits, hbytes⟩ := hup.gathered hs
    obtain ⟨clocks, t, hdown⟩ := s'.shutDown_eq .failed
    rw [hdown]
    refine upright_enter ?_ nofun nofun ?_
    · exact fun h => absurd ((hstate.trans hs).symm.trans h) nofun
    · change Judged s'.cfg.expectedAccept (.changed .failed :: s'.log)
      rw [hcfg]
      rcases readResponse_cases h hfits hbytes with ⟨hsame, -, -⟩ | ⟨hnew, -, -⟩
      · rw [hsame]
        exact judged_cons trivial hup.judged
      · rw [hnew]
        exact ⟨Or.inr rfl, hup.judged⟩
  opens := above_opens.opens
    (fun {s s'} hs h => by
      obtain ⟨hlog, hwire, hstate, hcfg, -⟩ := readResponse_fields h
      have hbase : Basic s (s'.enter .opened) := Basic.enter hlog (suffix_readResponse h) hwire hcfg nofun
      refine ⟨hbase.log, hbase.cfg, fun hproper hup => ?_⟩
      obtain ⟨hfits, hbytes⟩ := hup.gathered hs
      rcases readResponse_cases h hfits hbytes with ⟨-, hv, -⟩ | ⟨hnew, -, hswitch⟩
      · exact absurd rfl hv
      · refine upright_enter (fun h => absurd ((hstate.trans hs).symm.trans h) nofun) nofun nofun ?_
        have hmem : Ev.response s'.input ∈ (s'.enter .opened).log :=
          (s'.enter_log .opened).subset (hnew ▸ List.mem_cons_self)
        have hgood := hproper s'.input hmem
        rw [hbase.cfg] at hgood
        rw [hcfg, hnew]
        exact ⟨Or.inl ⟨rfl, hswitch rfl hgood⟩, hup.judged⟩)
    fun s => Opens.of_apart (Apart.of_frame s.frame_armPing)
  readFrames {s} hs := by
    obtain ⟨reads, input, recv, wire, faults, h, -⟩ := s.readFrames_snd
    rw [h]
    refine Opens.of_plainly ?_ ?_ ?_
    · exact Plainly.same rfl rfl rfl
    · exact fun _ hc => absurd hc (hs.elim (fun h => h ▸ nofun) fun h => h ▸ nofun)
    · exact fun _ hc => absurd hc (hs.elim (fun h => h ▸ nofun) fun h => h ▸ nofun)
  parse hcb hbasic s hs := opens_parseFrames hcb hbasic s (WsState.Up.not_upgrading hs)
  resume {cb} hcb hbasic s hs _ := by
    generalize (setState cb s .opened).armPing = s at hs ⊢
    have hevent : Opens s (s.note (.resumed s.state)) :=
      Opens.of_apart (apart_event rfl rfl rfl trivial nofun rfl rfl)
    exact hevent.trans (opens_parseFrames hcb hbasic _ hs)
  keepalive hcb _ s _ := Opens.of_apart (keeps_checkKeepalive takes_apart hcb _)

theorem opens_run (depth : Nat) (s : WsSession) (calls : List (Api × Env)) : Opens s (run depth s calls) :=
  keeps_run blocks_apart drives_opens (apart_callbacks depth)
    (fun _ _ => Opens.of_apart (apart_same rfl rfl rfl rfl rfl))
    (fun s a => Opens.of_apart (apart_act (apart_callbacks depth) s a)) s calls

end WsSession

/-- **A session opens only on a switch of protocols.** In every run in which each complete response has the status 101
if no accept value is expected, or if it looks like one of HTTP/1 with `101` behind its first space, the log records
every state, Open is entered only right behind a response that switches protocols, and any other response is followed
by Failed. -/
theorem opens_only_on_switch (cfg : Config) (seed : UInt64) (autoReconnect : Bool) (depth : Nat)
    (calls : List (Api × Env)) (hproper : AllProper (WsSession.run depth (fresh cfg seed autoReconnect) calls)) :
    let s := WsSession.run depth (fresh cfg seed autoReconnect) calls
    s.state = lastState s.log ∧ Judged cfg.expectedAccept s.log := by
  have hrun := WsSession.opens_run depth (fresh cfg seed autoReconnect) calls
  have hup := hrun.upright hproper ⟨nofun, nofun, rfl, trivial⟩
  have hjudged := hup.judged
  rw [hrun.cfg] at hjudged
  exact ⟨hup.tracked, hjudged⟩

/-- The response of `opening`, and its log. -/
theorem opening_switches :
    let s := WsSession.run 0 (fresh plainConfig 1 false) opening
    s.state = .opened ∧ s.state = lastState s.log ∧ Judged [] s.log := by
  have hlog : (WsSession.run 0 (fresh plainConfig 1 false) opening).log
      = [.changed .opened, .response (Http.ascii "HTTP/1.1 101 Switching Protocols\r\n\r\n"),
         .written false (.accepted 256), .requested .upgrading true, .changed .upgrading, .added true, .changed .connecting,
         .dialed false] := by
    decide
  refine ⟨by decide, opens_only_on_switch plainConfig 1 false 0 opening ?_⟩
  intro input hmem
  rw [hlog] at hmem
  obtain rfl : input = Http.ascii "HTTP/1.1 101 Switching Protocols\r\n\r\n" := by simpa using hmem
  refine fun _ => ⟨Http.ascii "HTTP/1.1 101 Switching Protocols", Http.crlf, ?_, ?_, ?_⟩
  · decide
  · decide
  · exact ⟨⟨by decide, by decide +kernel⟩, 49, Http.ascii " Switching Protocols", by decide, Or.inr rfl, rfl⟩

/-- Without an expected accept value a session opens on any complete response, here on a plain 200. -/
theorem anyResponse_opens :
    let ok := Http.ascii "HTTP/1.1 200 OK\r\n\r\n"
    let s := WsSession.run 0 (fresh plainConfig 1 false)
      [(.act .connect, { connects := [some 7] }), (.onReady, { opens := [.opened], writes := [.accepted 256] }),
       (.onReady, { reads := [.data ok] })]
    s.state = .opened ∧ s.input = ok ∧ ¬ Switches plainConfig.expectedAccept ok := by
  refine ⟨by decide, by decide, ?_⟩
  rintro ⟨hdrEnd, -, ⟨line, rest, hinput, -, -, x, reason, -, -, hline⟩, -⟩
  rw [hline] at hinput
  have hcode := congrArg (fun l => (l.drop 9).take 3) hinput
  exact absurd hcode (by simp [Http.ascii])

end Lepton.Ws

import Lepton.HttpMatch
import Lepton.Turns

/-! No client waits for ever. A connection that is being set up and a request that is under way have their deadlines, so
at a poll past the deadline they have come to an end, whatever the server, the pool and the callbacks have done: the
connection has opened, the response has been delivered, or the error has been reported, if the user has not given up
before. -/

namespace Lepton.Http

open Turns

/-- The states of a request that is under way. -/
def HttpState.Asking (st : HttpState) : Prop := st = .sending ∨ st = .receiving

instance : DecidablePred HttpState.Asking := fun st => inferInstanceAs (Decidable (st = _ ∨ st = _))

theorem HttpState.Asking.ne_connecting {st : HttpState} (h : st.Asking) : st ≠ .connecting := by
  rcases h with rfl | rfl
  · decide
  · decide

theorem HttpState.Asking.ne_idle {st : HttpState} (h : st.Asking) : st ≠ .idle := by
  rcases h with rfl | rfl
  · decide
  · decide

/-- How often a response or an error has been reported, a connection closed or a new one tried. -/
def settlements : List Notice → Nat
  | [] => 0
  | .accepted :: notices => settlements notices
  | _ :: notices => settlements notices + 1

/-- How often a connection has opened. -/
def openings : List StreamCall → Nat
  | [] => 0
  | .pollOpen .opened :: wire => openings wire + 1
  | _ :: wire => openings wire

namespace HttpClient

/-- The turns that a client has taken. -/
def turns (s : HttpClient) : Nat := settlements s.notices + openings s.wire

/-- The deadlines of a client whose clock has not shown more than `T`. -/
structure Bounded (cfg : ClientConfig) (T : Int) (s : HttpClient) : Prop where
  config : s.cfg = cfg
  connect : 0 < cfg.connectTimeoutNs → s.connectDeadlineNs ≤ T + cfg.connectTimeoutNs
  request : 0 < cfg.requestTimeoutNs → s.requestDeadlineNs ≤ T + cfg.requestTimeoutNs
  dialing : 0 < cfg.connectTimeoutNs → s.state = .connecting → 0 < s.connectDeadlineNs
  asking : 0 < cfg.requestTimeoutNs → s.state.Asking → 0 < s.requestDeadlineNs

/-- What a client that takes no turn keeps. -/
structure Unturned (s s' : HttpClient) : Prop where
  cfg : s'.cfg = s.cfg
  dialing : s.state = .connecting → s'.state = .connecting ∧ s'.connectDeadlineNs = s.connectDeadlineNs
  asking : s.state.Asking → s'.state.Asking ∧ s'.requestDeadlineNs = s.requestDeadlineNs

theorem Unturned.refl (s : HttpClient) : Unturned s s := ⟨rfl, fun h => ⟨h, rfl⟩, fun h => ⟨h, rfl⟩⟩

instance : IsPreorder HttpClient Unturned where
  refl := Unturned.refl
  trans _ _ _ h h' := {
    cfg := h'.cfg.trans h.cfg
    dialing := fun hs => ⟨(h'.dialing (h.dialing hs).1).1, (h'.dialing (h.dialing hs).1).2.trans (h.dialing hs).2⟩
    asking := fun hs => ⟨(h'.asking (h.asking hs).1).1, (h'.asking (h.asking hs).1).2.trans (h.asking hs).2⟩ }

/-- What every step does to the deadlines. -/
structure Ticks (cfg : ClientConfig) (T : Int) (s s' : HttpClient) : Prop extends Goes turns Unturned s s' where
  clocks : s'.env.clocks <:+ s.env.clocks
  bounded : Within T s.env.clocks → Bounded cfg T s → Bounded cfg T s'

/-- A step that leaves the state and the deadlines alone and takes no turn. -/
structure Lull (s s' : HttpClient) : Prop where
  cfg : s'.cfg = s.cfg
  state : s'.state = s.state
  requestDeadlineNs : s'.requestDeadlineNs = s.requestDeadlineNs
  connectDeadlineNs : s'.connectDeadlineNs = s.connectDeadlineNs
  clocks : s'.env.clocks <:+ s.env.clocks
  turns : s'.turns = s.turns

theorem Lull.refl (s : HttpClient) : Lull s s := ⟨rfl, rfl, rfl, rfl, List.suffix_rfl, rfl⟩

section Steps

variable {cfg : ClientConfig} {T : Int} {s s' s'' : HttpClient}

theorem Ticks.trans (h : Ticks cfg T s s') (h' : Ticks cfg T s' s'') : Ticks cfg T s s'' where
  toGoes := h.toGoes.trans h'.toGoes
  clocks := h'.clocks.trans h.clocks
  bounded hwithin hs := h'.bounded (hwithin.suffix h.clocks) (h.bounded hwithin hs)

theorem Ticks.of_turn (hturns : s.turns < s'.turns) (hclocks : s'.env.clocks <:+ s.env.clocks)
    (hbounded : Within T s.env.clocks → Bounded cfg T s → Bounded cfg T s') : Ticks cfg T s s' :=
  { Goes.of_turn hturns with clocks := hclocks, bounded := hbounded }

theorem Lull.ticks (h : Lull s s') : Ticks cfg T s s' where
  turns := h.turns.ge
  unturned _ := {
    cfg := h.cfg
    dialing := fun hs => ⟨h.state.trans hs, h.connectDeadlineNs⟩
    asking := fun hs => ⟨h.state ▸ hs, h.requestDeadlineNs⟩ }
  clocks := h.clocks
  bounded _ hs := {
    config := h.cfg.trans hs.config
    connect := fun hon => h.connectDeadlineNs ▸ hs.connect hon
    request := fun hon => h.requestDeadlineNs ▸ hs.request hon
    dialing := fun hon hstate => h.connectDeadlineNs ▸ hs.dialing hon (h.state ▸ hstate)
    asking := fun hon hstate => h.requestDeadlineNs ▸ hs.asking hon (h.state ▸ hstate) }

/-- A client that has nothing to wait for. -/
theorem Bounded.settled (hs : Bounded cfg T s) (hstate : s'.state ≠ .connecting ∧ ¬ s'.state.Asking)
    (hcfg : s'.cfg = s.cfg) (hconnect : s'.connectDeadlineNs = s.connectDeadlineNs)
    (hrequest : s'.requestDeadlineNs = s.requestDeadlineNs) : Bounded cfg T s' where
  config := hcfg.trans hs.config
  connect hon := hconnect ▸ hs.connect hon
  request hon := hrequest ▸ hs.request hon
  dialing _ h := absurd h hstate.1
  asking _ h := absurd h hstate.2

theorem lull_now (s : HttpClient) : Lull s s.now.2 := by
  rw [now]
  exact { Lull.refl s with clocks := List.tail_suffix _ }

theorem lull_deadlinePassed {b : Bool} (h : s.deadlinePassed = (b, s')) : Lull s s' := by
  unfold deadlinePassed at h
  split at h
  · cases h
    exact s.lull_now
  · split at h
    · cases h
      exact s.lull_now
    · cases h
      exact Lull.refl s

/-- What the user is told is a turn, unless it is that a request is accepted. -/
theorem turns_noticed (hnotices : settlements s'.notices = settlements s.notices + 1)
    (hwire : openings s'.wire = openings s.wire) : s.turns < s'.turns := by
  unfold turns
  omega

theorem ticks_shutDown (s : HttpClient) : Ticks cfg T s s.shutDown :=
  .of_turn (turns_noticed rfl rfl) List.suffix_rfl fun _ hs =>
    hs.settled (by decide : HttpState.failed ≠ .connecting ∧ ¬ HttpState.failed.Asking) rfl rfl rfl

theorem openings_writes {new wire : List StreamCall} (h : ∀ c ∈ new, ∃ src r, c = .write src r) :
    openings (new ++ wire) = openings wire := by
  induction new with
  | nil => rfl
  | cons c rest ih =>
    obtain ⟨⟨src, r, rfl⟩, hrest⟩ := List.forall_mem_cons.mp h
    exact ih hrest

theorem lull_takeBuffers (s : HttpClient) : Lull s s.takeBuffers.2 := by
  obtain ⟨acquires, send, recv, h, -⟩ := s.takeBuffers_eq
  rw [h]
  exact { Lull.refl s with }

theorem lull_transportConnect (s : HttpClient) : Lull s s.transportConnect.2 := by
  unfold transportConnect
  split
  · exact { Lull.refl s with }
  · exact { Lull.refl s with }

theorem lull_register (s : HttpClient) : Lull s s.register := by
  rcases s.register_cases with ⟨-, h⟩ | ⟨ok, adds, interest, h, -⟩
  · rw [h]
    exact Lull.refl s
  · rw [h]
    exact { Lull.refl s with }

theorem lull_arm (s : HttpClient) (wants : Bool) : Lull s (s.arm wants) := by
  obtain ⟨interest, armed, h, -⟩ := s.arm_eq wants
  rw [h]
  exact { Lull.refl s with }

/-- The deadline of an attempt to connect. -/
theorem armConnect_arms (cfg : ClientConfig) (hT : 0 ≤ T) (s : HttpClient) :
    s.armConnect.turns = s.turns ∧ s.armConnect.env.clocks <:+ s.env.clocks ∧
      (Within T s.env.clocks → Bounded cfg T s →
        Bounded cfg T s.armConnect ∧ (0 < cfg.connectTimeoutNs → 0 < s.armConnect.connectDeadlineNs)) := by
  unfold armConnect
  split
  · next hon =>
    rw [now]
    refine ⟨rfl, List.tail_suffix _, fun hwithin hs => ?_⟩
    have hread := hwithin.reading hT
    rw [hs.config] at hon
    have hpos : 0 < s.env.clocks.headD 0 + s.cfg.connectTimeoutNs := by
      rw [hs.config]
      omega
    refine ⟨{ hs with connect := fun _ => ?_, dialing := fun _ _ => hpos }, fun _ => hpos⟩
    change s.env.clocks.headD 0 + s.cfg.connectTimeoutNs ≤ T + cfg.connectTimeoutNs
    rw [hs.config]
    omega
  · next hoff =>
    refine ⟨rfl, List.suffix_rfl, fun _ hs => ?_⟩
    have hno : ¬ 0 < cfg.connectTimeoutNs := hs.config ▸ hoff
    exact ⟨{ hs with connect := fun hon => absurd hon hno, dialing := fun hon => absurd hon hno },
      fun hon => absurd hon hno⟩

/-- The deadline of a request. -/
theorem armRequest_arms (cfg : ClientConfig) (hT : 0 ≤ T) (s : HttpClient) :
    s.armRequest.turns = s.turns ∧ s.armRequest.env.clocks <:+ s.env.clocks ∧ s.armRequest.cfg = s.cfg ∧
      s.armRequest.connectDeadlineNs = s.connectDeadlineNs ∧
      (Within T s.env.clocks → s.cfg = cfg → 0 < cfg.requestTimeoutNs →
        0 < s.armRequest.requestDeadlineNs ∧ s.armRequest.requestDeadlineNs ≤ T + cfg.requestTimeoutNs) := by
  unfold armRequest
  split
  · rw [now]
    refine ⟨rfl, List.tail_suffix _, rfl, rfl, fun hwithin hcfg hon => ?_⟩
    have hread := hwithin.reading hT
    dsimp only
    rw [hcfg]
    omega
  · next hoff => exact ⟨rfl, List.suffix_rfl, rfl, rfl, fun _ hcfg hon => absurd (hcfg ▸ hon) hoff⟩

/-- An attempt to connect, which is a turn. -/
theorem ticks_tryDial (hT : 0 ≤ T) {ok : Bool} (h : s.tryDial = (ok, s')) :
    Ticks cfg T s s' ∧ s.turns < s'.turns ∧
      (ok = true → Within T s.env.clocks → Bounded cfg T s → 0 < cfg.connectTimeoutNs → 0 < s'.connectDeadlineNs) := by
  have hdial : s.turns < turns { s with notices := .dial s.state :: s.notices } := turns_noticed rfl rfl
  have hmark : Ticks cfg T s { s with notices := .dial s.state :: s.notices } :=
    .of_turn hdial List.suffix_rfl fun _ hs => { hs with }
  have htake := lull_takeBuffers { s with notices := .dial s.state :: s.notices }
  unfold tryDial at h
  split at h
  · next s₁ heq =>
    cases h
    rw [heq] at htake
    exact ⟨hmark.trans htake.ticks, htake.turns ▸ hdial, fun hok => by cases hok⟩
  · next s₁ heq =>
    rw [heq] at htake
    have hto : Ticks cfg T s s₁ := hmark.trans htake.ticks
    obtain ⟨hturns, hclocks, harm⟩ := s₁.armConnect_arms cfg hT
    have hwrite : Lull s₁.armConnect { s₁.armConnect with writeArmed := true } := { Lull.refl s₁.armConnect with }
    have hconn := lull_transportConnect { s₁.armConnect with writeArmed := true }
    rw [h] at hconn
    have hturn : s.turns < s'.turns := by
      rw [hconn.turns, hwrite.turns, hturns, htake.turns]
      exact hdial
    have hclock : s'.env.clocks <:+ s.env.clocks := hconn.clocks.trans (hclocks.trans hto.clocks)
    refine ⟨.of_turn hturn hclock fun hwithin hs => ?_, hturn, fun _ hwithin hs hon => ?_⟩
    · have harmed := (harm (hwithin.suffix hto.clocks) (hto.bounded hwithin hs)).1
      have hbefore := hwithin.suffix (hclocks.trans hto.clocks)
      exact hconn.ticks.bounded hbefore (hwrite.ticks.bounded hbefore harmed)
    · rw [hconn.connectDeadlineNs, hwrite.connectDeadlineNs]
      exact (harm (hwithin.suffix hto.clocks) (hto.bounded hwithin hs)).2 hon

theorem ticks_dialed (hT : 0 ≤ T) (h : s.tryDial = (true, s')) :
    Ticks cfg T s ({ s' with state := .connecting } : HttpClient).register := by
  obtain ⟨hto, hturn, harmed⟩ := ticks_tryDial (T := T) hT h
  have hconnecting : Ticks cfg T s { s' with state := .connecting } :=
    .of_turn hturn hto.clocks fun hwithin hs =>
      { hto.bounded hwithin hs with
        dialing := fun hon _ => harmed rfl hwithin hs hon
        asking := fun _ hstate => absurd rfl hstate.ne_connecting }
  exact hconnecting.trans (lull_register _).ticks

/-- An idle client accepts a request. -/
theorem ticks_submit (hT : 0 ≤ T) (hs : s.state = .idle) (text : List UInt8) : Ticks cfg T s (s.submit text) := by
  have hstate := s.state_submit text
  unfold submit at hstate ⊢
  generalize hasked : ({ s.note (.requested s.recv.bytes) with
    send := s.send.append text
    faults := tally s.faults (text.length ≤ s.send.tailroom)
    sendOff := 0
    recv := s.recv.reset 0
    state := .sending
    requests := s.requests ++ [text]
    notices := .accepted :: s.notices } : HttpClient) = asked at hstate ⊢
  obtain ⟨hturns, hclocks, hcfg, hconnect, harm⟩ := asked.armRequest_arms cfg hT
  subst hasked
  exact {
    turns := hturns.ge
    unturned := fun _ =>
      { cfg := hcfg
        dialing := fun hdialing => by rw [hs] at hdialing; cases hdialing
        asking := fun hasking => absurd hs hasking.ne_idle }
    clocks := hclocks
    bounded := fun hwithin hb =>
      { config := hcfg.trans hb.config
        connect := fun hon => hconnect ▸ hb.connect hon
        request := fun hon => (harm hwithin hb.config hon).2
        dialing := fun _ hdialing => by rw [hstate] at hdialing; cases hdialing
        asking := fun hon _ => (harm hwithin hb.config hon).1 } }

theorem ticks_flushLoop {n : Nat} {how : Sending} (hs : s.state = .sending) (h : flushLoop n s = (how, s')) :
    Ticks cfg T s s' := by
  obtain ⟨writes, output, sends, wire, sendOff, interest, armed, heq, ⟨new, hwire, hnew⟩, -⟩ := flushLoop_eq h
  have hopenings : openings wire = openings s.wire := hwire ▸ openings_writes hnew
  have hturns : s'.turns = s.turns := by
    rw [heq]
    exact congrArg (settlements s.notices + ·) hopenings
  have hasking : s'.state.Asking := by
    rw [heq]
    dsimp only
    split
    · exact Or.inr rfl
    · exact Or.inl hs
  rw [heq] at hturns hasking ⊢
  exact {
    turns := hturns.ge
    unturned := fun _ => ⟨rfl, (fun hdialing => by rw [hs] at hdialing; cases hdialing), fun _ => ⟨hasking, rfl⟩⟩
    clocks := List.suffix_rfl
    bounded := fun _ hb =>
      { hb with
        dialing := fun _ hdialing => absurd hdialing hasking.ne_connecting
        asking := fun hon _ => hb.asking hon (Or.inl hs) } }

theorem lull_recvTurn {turn : RecvTurn} (h : s.recvTurn = (turn, s')) : Lull s s' := by
  obtain ⟨reads, input, wire, recv, faults, lost, rfl, hwire⟩ := recvTurn_eq h
  rcases hwire with rfl | ⟨room, r, rfl⟩
  · exact { Lull.refl s with }
  · exact { Lull.refl s with }

theorem turns_deliver (s : HttpClient) (r : HttpResponseView) : s.turns < (s.deliver r).turns := turns_noticed rfl rfl

theorem ticks_deliver (s : HttpClient) (r : HttpResponseView) : Ticks cfg T s (s.deliver r) :=
  .of_turn (s.turns_deliver r) List.suffix_rfl fun _ hs => { hs with }

theorem ticks_rested {r : HttpResponseView} (h : s.recvTurn = (.complete r, s'))
    (hcall : Ticks cfg T (s'.deliver r) s'') : Ticks cfg T s ((s''.note (.completed s''.state)).rest r.consumed) := by
  have hturn := lull_recvTurn h
  have hto : Ticks cfg T s s'' := hturn.ticks.trans ((s'.ticks_deliver r).trans hcall)
  have hturns : s.turns < s''.turns := (hturn.turns ▸ s'.turns_deliver r).trans_le hcall.turns
  rcases (s''.note (.completed s''.state)).rest_cases r.consumed with ⟨recv, faults, heq, -⟩ | ⟨faults, heq⟩
  · rw [heq]
    exact .of_turn hturns hto.clocks fun hwithin hs =>
      (hto.bounded hwithin hs).settled (by decide : HttpState.idle ≠ .connecting ∧ ¬ HttpState.idle.Asking) rfl rfl rfl
  · rw [heq]
    exact .of_turn hturns hto.clocks fun hwithin hs => { hto.bounded hwithin hs with }

theorem lull_pollOpen {ph : StreamPhase} (h : s.transportPollOpen = (ph, s')) (hph : ph ≠ .opened) : Lull s s' := by
  obtain ⟨opens, rfl⟩ := transportPollOpen_eq h
  cases ph with
  | opened => exact absurd rfl hph
  | connecting => exact { Lull.refl s with }
  | failed => exact { Lull.refl s with }
  | closed => exact { Lull.refl s with }

theorem ticks_opened (h : s.transportPollOpen = (.opened, s')) :
    Ticks cfg T s (({ s' with state := .idle } : HttpClient).arm false) := by
  obtain ⟨opens, rfl⟩ := transportPollOpen_eq h
  refine Ticks.trans ?_ (lull_arm _ false).ticks
  exact .of_turn (Nat.lt_succ_self _) List.suffix_rfl fun _ hs =>
    hs.settled (by decide : HttpState.idle ≠ .connecting ∧ ¬ HttpState.idle.Asking) rfl rfl rfl

theorem ticks_close (s : HttpClient) : Ticks cfg T s s.close :=
  .of_turn (turns_noticed rfl rfl) List.suffix_rfl fun _ hs =>
    hs.settled (by decide : HttpState.disconnected ≠ .connecting ∧ ¬ HttpState.disconnected.Asking) rfl rfl rfl

theorem steps_ticks (cfg : ClientConfig) (hT : 0 ≤ T) : Steps (Ticks cfg T) (Ticks cfg T) where
  refl s := (Lull.refl s).ticks
  trans := Ticks.trans
  expired h hcall := (lull_deadlinePassed h).ticks.trans ((ticks_shutDown _).trans hcall)
  unexpired h := (lull_deadlinePassed h).ticks
  refused h hcall := (ticks_tryDial hT h).1.trans ((ticks_shutDown _).trans hcall)
  dialed h := ticks_dialed hT h
  submit {s r _} hs _ := by
    have hasks : Lull s (s.asks r) := { Lull.refl s with }
    exact hasks.ticks.trans (ticks_submit (s := s.asks r) hT hs _)
  blocked hs h := ticks_flushLoop hs h
  sent hs h := ticks_flushLoop hs h
  unsent hs h hcall := (ticks_flushLoop hs h).trans ((ticks_shutDown _).trans hcall)
  stop _ h := (lull_recvTurn h).ticks
  more _ h := (lull_recvTurn h).ticks
  broken _ h hcall := (lull_recvTurn h).ticks.trans ((ticks_shutDown _).trans hcall)
  answered _ h hcall _ := (lull_recvTurn h).ticks.trans ((ticks_deliver _ _).trans hcall)
  rested _ h hcall _ := ticks_rested h hcall
  polled h := (lull_pollOpen h (by decide)).ticks
  unopened _ h hph hcall :=
    (lull_pollOpen h (by rcases hph with rfl | rfl <;> decide)).ticks.trans ((ticks_shutDown _).trans hcall)
  opened _ h := ticks_opened h
  close := ticks_close

end Steps

theorem ticks_callbacks (cfg : ClientConfig) {T : Int} (hT : 0 ≤ T) (depth : Nat) :
    Keeping (Ticks cfg T) (callbacks depth) :=
  keeping_callbacks (steps_ticks cfg hT) (fun s _ => Lull.ticks { Lull.refl s with }) depth

theorem ticks_api (cfg : ClientConfig) {T : Int} (hT : 0 ≤ T) (depth : Nat) (s : HttpClient) (a : Api) :
    Ticks cfg T s (api (callbacks depth) s a) :=
  keeps_api (steps_ticks cfg hT) (ticks_callbacks cfg hT depth) s a

theorem goes_call (depth : Nat) (s : HttpClient) (c : Api × Env) : Goes turns Unturned s (call depth s c) := by
  have henv : Goes turns Unturned s { s with env := c.2 } :=
    ⟨Nat.le_refl _, fun _ => { Unturned.refl s with }⟩
  exact henv.trans (ticks_api s.cfg (Int.le_refl 0) depth _ c.1).toGoes

theorem goes_run (depth : Nat) (s : HttpClient) (calls : List (Api × Env)) : Goes turns Unturned s (run depth s calls) :=
  Goes.run (goes_call depth) s calls

/-- A deadline that has passed is an error. -/
theorem turns_checkTimeouts {cb : Callbacks} {T : Int} {cfg : ClientConfig} (hcb : Keeping (Ticks cfg T) cb)
    {s : HttpClient} (hlate : s.deadlinePassed.1 = true) : s.turns < (checkTimeouts cb s).turns := by
  unfold checkTimeouts
  split
  · next s₁ h =>
    have hfail : s₁.turns < s₁.shutDown.turns := turns_noticed rfl rfl
    have hcall : s₁.shutDown.turns ≤ (fail cb s₁).turns := (hcb.onError s₁.shutDown).turns
    rw [← (lull_deadlinePassed h).turns]
    exact hfail.trans_le hcall
  · next h =>
    rw [h] at hlate
    cases hlate

/-- The client waits for a connection or for a response, and its deadline is `t` or earlier. -/
def Overdue (t : Int) (s : HttpClient) : Prop :=
  s.state = .connecting ∧ 0 < s.connectDeadlineNs ∧ s.connectDeadlineNs ≤ t ∨
    s.state.Asking ∧ 0 < s.requestDeadlineNs ∧ s.requestDeadlineNs ≤ t

/-- No time is gained without a turn. -/
theorem Overdue.unturned {t : Int} {s s' : HttpClient} (hs : Overdue t s) (h : Unturned s s') : Overdue t s' := by
  rcases hs with ⟨hstate, hset, hdue⟩ | ⟨hstate, hset, hdue⟩
  · obtain ⟨hstate', hsame⟩ := h.dialing hstate
    exact Or.inl ⟨hstate', hsame ▸ hset, hsame ▸ hdue⟩
  · obtain ⟨hstate', hsame⟩ := h.asking hstate
    exact Or.inr ⟨hstate', hsame ▸ hset, hsame ▸ hdue⟩

theorem Overdue.passed {s : HttpClient} (hs : Overdue (s.env.clocks.headD 0) s) : s.deadlinePassed.1 = true := by
  unfold deadlinePassed
  rw [now]
  rcases hs with ⟨hstate, hset, hdue⟩ | ⟨hstate, hset, hdue⟩
  · rw [if_pos ⟨hstate, hset⟩]
    exact decide_eq_true hdue
  · rw [if_neg fun hdialing => hstate.ne_connecting hdialing.1, if_pos ⟨hstate, hset⟩]
    exact decide_eq_true hdue

/-- **A poll past the deadline.** -/
theorem turns_poll (depth : Nat) {s : HttpClient} {a : Api} (ha : a = .onReady ∨ a = .checkTimeouts)
    (hs : Overdue (s.env.clocks.headD 0) s) : s.turns < (api (callbacks depth) s a).turns := by
  have hcb := ticks_callbacks s.cfg (Int.le_refl 0) depth
  have hturn := turns_checkTimeouts hcb hs.passed
  rcases ha with rfl | rfl
  · exact hturn.trans_le (keeps_checked (steps_ticks s.cfg (Int.le_refl 0)) hcb s).turns
  · exact hturn

end HttpClient

/-- The clock shows times up to `T` during the calls. -/
def ReadBy (T : Int) (calls : List (Api × Env)) : Prop := ∀ c ∈ calls, Within T c.2.clocks

instance (T : Int) : DecidablePred (ReadBy T) :=
  fun calls => inferInstanceAs (Decidable (∀ c ∈ calls, Within T c.2.clocks))

theorem HttpClient.bounded_run {cfg : ClientConfig} {T : Int} (hT : 0 ≤ T) (depth : Nat) {s : HttpClient}
    (hs : s.Bounded cfg T) {calls : List (Api × Env)} (hcalls : ReadBy T calls) :
    (HttpClient.run depth s calls).Bounded cfg T := by
  induction calls generalizing s with
  | nil => exact hs
  | cons c rest ih =>
    obtain ⟨hc, hrest⟩ := List.forall_mem_cons.mp hcalls
    exact ih ((HttpClient.ticks_api cfg hT depth { s with env := c.2 } c.1).bounded hc { hs with }) hrest

theorem bounded_freshClient (cfg : ClientConfig) {T : Int} (hT : 0 ≤ T) : (freshClient cfg).Bounded cfg T where
  config := rfl
  connect hon := Int.add_nonneg hT hon.le
  request hon := Int.add_nonneg hT hon.le
  dialing _ hstate := by cases hstate
  asking _ hstate := absurd hstate (by decide : ¬ HttpState.disconnected.Asking)

/-- **No client waits for ever.** Let the clock show no more than `T` up to some point of a run at which the client waits
for a connection or for a response, with a timeout set for it. Then a poll when the timeout has passed since `T` finds
the wait over, whatever the server, the pool, the user and the callbacks do meanwhile: the connection has opened, a
response or an error has been reported, or the user has closed the connection or tried a new one. -/
theorem waits_end (cfg : ClientConfig) (depth : Nat) (before during : List (Api × Env)) (a : Api) (env : Env) (T : Int)
    (hT : 0 ≤ T) (hbefore : ReadBy T before) (ha : a = .onReady ∨ a = .checkTimeouts) :
    let s := HttpClient.run depth (freshClient cfg) before
    let s' := HttpClient.run depth s (during ++ [(a, env)])
    (s.state = .connecting ∧ 0 < cfg.connectTimeoutNs ∧ T + cfg.connectTimeoutNs ≤ env.clocks.headD 0 ∨
      s.state.Asking ∧ 0 < cfg.requestTimeoutNs ∧ T + cfg.requestTimeoutNs ≤ env.clocks.headD 0) →
    s.turns < s'.turns := by
  intro s s' hwaits
  let s₁ := HttpClient.run depth s during
  have hend : s' = HttpClient.call depth s₁ (a, env) := by
    simp only [s', s₁, HttpClient.run, List.foldl_append, List.foldl_cons, List.foldl_nil]
  have hgo : Goes HttpClient.turns HttpClient.Unturned s s₁ := HttpClient.goes_run depth s during
  have hlast : Goes HttpClient.turns HttpClient.Unturned s₁ s' := hend ▸ HttpClient.goes_call depth s₁ _
  have hs : s.Bounded cfg T := HttpClient.bounded_run hT depth (bounded_freshClient cfg hT) hbefore
  -- the deadline of `s` is no later than the poll
  have hdue : s.Overdue (env.clocks.headD 0) := by
    rcases hwaits with ⟨hstate, hon, hlate⟩ | ⟨hstate, hon, hlate⟩
    · exact Or.inl ⟨hstate, hs.dialing hon hstate, (hs.connect hon).trans hlate⟩
    · exact Or.inr ⟨hstate, hs.asking hon hstate, (hs.request hon).trans hlate⟩
  -- if the wait goes on up to the poll, it ends there
  rcases Nat.lt_or_eq_of_le hgo.turns with hturn | hsame
  · exact hturn.trans_le hlast.turns
  · have hdue₁ : HttpClient.Overdue (env.clocks.headD 0) s₁ := hdue.unturned (hgo.unturned hsame.symm)
    have hturn : s₁.turns < (HttpClient.call depth s₁ (a, env)).turns :=
      HttpClient.turns_poll depth (s := { s₁ with env := env }) ha hdue₁
    rw [hsame, hend]
    exact hturn

/-- A response within 5 ns. -/
def timedConfig : ClientConfig := { smallConfig with requestTimeoutNs := 5 }

/-- A request is sent as a whole. -/
def asking : List (Api × Env) :=
  [(.act .connect, { connects := [some 7] }), (.onReady, { opens := [.opened] }),
   (.act (.request {}), { writes := [.accepted 256] })]

/-- The server does not answer. -/
theorem silent_server_ends :
    let s := HttpClient.run 0 (freshClient timedConfig) asking
    let s' := HttpClient.run 0 s [(.onReady, { clocks := [3] }), (.onReady, { clocks := [5] })]
    s.state = .receiving ∧ s.turns < s'.turns := by
  have hasks : (HttpClient.run 0 (freshClient timedConfig) asking).state = .receiving := by decide
  exact ⟨hasks, waits_end timedConfig 0 asking [(.onReady, { clocks := [3] })] .onReady { clocks := [5] } 0
    (Int.le_refl 0) (by decide) (Or.inl rfl) (Or.inr ⟨Or.inr hasks, by decide, by decide⟩)⟩

end Lepton.Http

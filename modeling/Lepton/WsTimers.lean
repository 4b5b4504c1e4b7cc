import Lepton.WsBegin
import Lepton.Turns

/-! The timers of a session: the deadline of a connection that is being set up, the times of the next ping and of the
missing pong, and the time of the next attempt. They are set from the clock, so they are no further off than the
configuration says; and they are set anew only when the session takes a turn: its state changes, a pong arrives, or a
connection is tried or ends. -/

namespace Lepton.Ws

open Turns

variable {s s' s'' : WsSession} {cb : Callbacks}

/-- How often the state has changed. -/
def changes : List Ev → Nat
  | [] => 0
  | .changed _ :: log => changes log + 1
  | _ :: log => changes log

/-- How often a connection has been tried or ended, and a pong received. -/
def renewals : List Mark → Nat
  | [] => 0
  | .dial :: marks | .ended _ :: marks | .pong :: marks => renewals marks + 1
  | _ :: marks => renewals marks

namespace WsSession

/-- The turns that a session has taken. -/
def turns (s : WsSession) : Nat := changes s.log + renewals s.marks

/-- The timers of a session whose clock has not shown more than `T`. -/
structure Bounded (cfg : Config) (T : Int) (s : WsSession) : Prop where
  config : s.cfg = cfg
  connect : s.connectDeadlineNs ≤ T + cfg.connectTimeoutNs
  ping : s.nextPingAtNs ≤ T + cfg.pingIntervalNs
  pong : s.pongDeadlineNs ≤ T + cfg.pongTimeoutNs
  delay : s.reconnectDelayNs ≤ kReconnectMaxNs
  reconnect : s.reconnectAtNs ≤ T + kReconnectMaxNs
  armed : s.state.Live → 0 < s.connectDeadlineNs

/-- What a session that takes no turn keeps: a ping may be sent, but the session then waits for the pong. -/
structure Unturned (s s' : WsSession) : Prop where
  cfg : s'.cfg = s.cfg
  state : s'.state = s.state
  auto : s'.autoReconnect = true → s.autoReconnect = true
  connect : s'.connectDeadlineNs = s.connectDeadlineNs
  reconnect : s'.reconnectAtNs = s.reconnectAtNs
  waits : s.awaitingPong = true → s'.awaitingPong = true ∧ s'.pongDeadlineNs = s.pongDeadlineNs
  rests : s'.awaitingPong = false → s.awaitingPong = false ∧ s'.nextPingAtNs = s.nextPingAtNs

theorem Unturned.refl (s : WsSession) : Unturned s s :=
  ⟨rfl, rfl, id, rfl, rfl, fun h => ⟨h, rfl⟩, fun h => ⟨h, rfl⟩⟩

instance : IsPreorder WsSession Unturned where
  refl := Unturned.refl
  trans _ _ _ h h' := {
    cfg := h'.cfg.trans h.cfg
    state := h'.state.trans h.state
    auto := fun hauto => h.auto (h'.auto hauto)
    connect := h'.connect.trans h.connect
    reconnect := h'.reconnect.trans h.reconnect
    waits := fun hwaits => ⟨(h'.waits (h.waits hwaits).1).1, (h'.waits (h.waits hwaits).1).2.trans (h.waits hwaits).2⟩
    rests := fun hrests => ⟨(h.rests (h'.rests hrests).1).1, (h'.rests hrests).2.trans (h.rests (h'.rests hrests).1).2⟩ }

/-- What every step does to the timers. -/
structure Ticks (cfg : Config) (T : Int) (s s' : WsSession) : Prop extends Goes turns Unturned s s' where
  clocks : s'.env.clocks <:+ s.env.clocks
  bounded : Within T s.env.clocks → Bounded cfg T s → Bounded cfg T s'
  armed : Within T s.env.clocks → Bounded cfg T s → 0 < s.connectDeadlineNs → 0 < s'.connectDeadlineNs

/-- A step that does not look at the clock, unless the session takes a turn or is not upgraded. -/
structure Untimed (cfg : Config) (T : Int) (s s' : WsSession) : Prop extends Ticks cfg T s s' where
  unread : s'.turns = s.turns → s.state.Up → s'.env.clocks = s.env.clocks

/-- A step that leaves the timers alone and takes no turn. -/
structure Lull (s s' : WsSession) : Prop where
  cfg : s'.cfg = s.cfg
  state : s'.state = s.state
  autoReconnect : s'.autoReconnect = s.autoReconnect
  awaitingPong : s'.awaitingPong = s.awaitingPong
  pongDeadlineNs : s'.pongDeadlineNs = s.pongDeadlineNs
  nextPingAtNs : s'.nextPingAtNs = s.nextPingAtNs
  connectDeadlineNs : s'.connectDeadlineNs = s.connectDeadlineNs
  reconnectDelayNs : s'.reconnectDelayNs = s.reconnectDelayNs
  reconnectAtNs : s'.reconnectAtNs = s.reconnectAtNs
  clocks : s'.env.clocks = s.env.clocks
  turns : s'.turns = s.turns

theorem Lull.refl (s : WsSession) : Lull s s := ⟨rfl, rfl, rfl, rfl, rfl, rfl, rfl, rfl, rfl, rfl, rfl⟩

theorem turns_pooled (hlog : changes s'.log = changes s.log) (hmarks : Pooled s.marks s'.marks) :
    s'.turns = s.turns := by
  have hrenewals : renewals s'.marks = renewals s.marks := hmarks.congr fun _ _ => rfl
  rw [turns, turns, hlog, hrenewals]

section Steps

variable {cfg : Config} {T : Int}

theorem Ticks.trans (h : Ticks cfg T s s') (h' : Ticks cfg T s' s'') : Ticks cfg T s s'' where
  toGoes := h.toGoes.trans h'.toGoes
  clocks := h'.clocks.trans h.clocks
  bounded hwithin hs := h'.bounded (hwithin.suffix h.clocks) (h.bounded hwithin hs)
  armed hwithin hs harmed := h'.armed (hwithin.suffix h.clocks) (h.bounded hwithin hs) (h.armed hwithin hs harmed)

theorem Untimed.trans (h : Untimed cfg T s s') (h' : Untimed cfg T s' s'') :
    Untimed cfg T s s'' where
  toTicks := h.toTicks.trans h'.toTicks
  unread hturns hup := by
    obtain ⟨hmid, hend⟩ := h.toGoes.between h'.toGoes hturns
    have hup' : s'.state.Up := (h.unturned hmid).state ▸ hup
    exact (h'.unread hend hup').trans (h.unread hmid hup)

theorem Lull.untimed (h : Lull s s') : Untimed cfg T s s' where
  turns := h.turns.ge
  clocks := h.clocks ▸ List.suffix_rfl
  bounded _ hs := {
    config := h.cfg.trans hs.config
    connect := h.connectDeadlineNs ▸ hs.connect
    ping := h.nextPingAtNs ▸ hs.ping
    pong := h.pongDeadlineNs ▸ hs.pong
    delay := h.reconnectDelayNs ▸ hs.delay
    reconnect := h.reconnectAtNs ▸ hs.reconnect
    armed := fun hlive => h.connectDeadlineNs ▸ hs.armed (h.state ▸ hlive) }
  armed _ _ harmed := h.connectDeadlineNs ▸ harmed
  unturned _ := {
    cfg := h.cfg
    state := h.state
    auto := fun hauto => h.autoReconnect ▸ hauto
    connect := h.connectDeadlineNs
    reconnect := h.reconnectAtNs
    waits := fun hwaits => ⟨h.awaitingPong.trans hwaits, h.pongDeadlineNs⟩
    rests := fun hrests => ⟨h.awaitingPong ▸ hrests, h.nextPingAtNs⟩ }
  unread _ _ := h.clocks

/-- A step that takes a turn. -/
theorem Untimed.of_turn (hturns : s.turns < s'.turns) (hclocks : s'.env.clocks <:+ s.env.clocks)
    (hbounded : Within T s.env.clocks → Bounded cfg T s → Bounded cfg T s')
    (harmed : Within T s.env.clocks → Bounded cfg T s → 0 < s.connectDeadlineNs → 0 < s'.connectDeadlineNs) :
    Untimed cfg T s s' where
  toGoes := .of_turn hturns
  clocks := hclocks
  bounded := hbounded
  armed := harmed
  unread h := absurd h hturns.ne'

theorem lull_flushTurn (s : WsSession) : Lull s s.flushTurn.2 := by
  have hmarks := s.pooled_flushTurn
  rcases s.flushTurn_snd with ⟨interest, hs, -⟩ | ⟨-, r, writes, pending, hs⟩
  · rw [hs]
    exact { Lull.refl s with }
  · rw [hs] at hmarks ⊢
    exact { Lull.refl s with turns := turns_pooled rfl hmarks }

theorem lull_queueFrame (s : WsSession) (opcode : WsOpcode) (payload : List UInt8) (fin : Bool) :
    Lull s (s.queueFrame opcode payload fin).2 := by
  have hmarks := s.pooled_queueFrame opcode payload fin
  obtain ⟨acquires, gen, faults, pending, interest, frames, h, -⟩ := s.queueFrame_snd opcode payload fin
  rw [h] at hmarks ⊢
  exact { Lull.refl s with turns := turns_pooled rfl hmarks }

theorem lull_openFragment (s : WsSession) (op : WsOpcode) : Lull s (s.openFragment op).2 := by
  have hmarks := s.pooled_openFragment op
  obtain ⟨acquires, frag, fragOpcode, h⟩ := s.openFragment_snd op
  rw [h] at hmarks ⊢
  exact { Lull.refl s with turns := turns_pooled rfl hmarks }

theorem lull_storeFragment (s : WsSession) (chunk : List UInt8) : Lull s (s.storeFragment chunk).2 := by
  obtain ⟨frag, faults, h⟩ := s.storeFragment_snd chunk
  rw [h]
  exact { Lull.refl s with }

theorem lull_compactRecv (s : WsSession) : Lull s s.compactRecv := by
  obtain ⟨recv, faults, h⟩ := s.compactRecv_eq
  rw [h]
  exact { Lull.refl s with }

theorem lull_register : ∀ s, Lull s s.register := keeps_register Lull.refl fun s _ _ _ => { Lull.refl s with }

theorem lull_pollOpen (s : WsSession) : Lull s s.transportPollOpen.2 := by
  obtain ⟨opens, h⟩ := s.transportPollOpen_snd
  rw [h]
  exact { Lull.refl s with }

theorem lull_queueRequest (s : WsSession) : Lull s s.queueRequest.2 := by
  have hmarks := s.pooled_queueRequest
  obtain ⟨acquires, faults, pending, interest, request, marks, h, -⟩ := @queueRequest_snd s s.queueRequest.2 s.queueRequest.1 rfl
  rw [h] at hmarks ⊢
  exact { Lull.refl s with turns := turns_pooled rfl hmarks }

theorem lull_readFrames (s : WsSession) : Lull s s.readFrames.2 := by
  obtain ⟨reads, input, recv, wire, faults, h, -⟩ := s.readFrames_snd
  rw [h]
  exact { Lull.refl s with }

theorem lull_readResponse {v : Verdict} (h : s.readResponse = (v, s')) (hv : v ≠ .accept) :
    Lull s s' := by
  obtain ⟨reads, input, recv, wire, faults, log, heq, -, hlog⟩ := readResponse_snd h
  rw [if_neg hv, if_neg hv] at heq
  rw [heq]
  rcases hlog with rfl | rfl
  · exact { Lull.refl s with }
  · exact { Lull.refl s with }

theorem lull_takeRecv (s : WsSession) : Lull s s.takeRecv.2 := by
  have hrelease : Pooled s.marks s.releaseBuffers.marks := Pooled.trans ⟨_, rfl⟩ ⟨_, rfl⟩
  have hmarks : Pooled s.marks s.takeRecv.2.marks := hrelease.trans (s.releaseBuffers.pooled_acquire 0)
  obtain ⟨acquires, recv, h⟩ := s.takeRecv_snd
  rw [h] at hmarks ⊢
  exact { Lull.refl s with turns := turns_pooled rfl hmarks }

theorem lull_transportConnect (s : WsSession) : Lull s s.transportConnect.2 := by
  cases hconn : s.transportConnect.1 with
  | true =>
    obtain ⟨connects, fd, h⟩ := transportConnect_true hconn
    rw [h]
    exact { Lull.refl s with }
  | false =>
    obtain ⟨connects, h⟩ := transportConnect_false hconn
    rw [h]
    exact { Lull.refl s with }

theorem ticks_now (s : WsSession) : Ticks cfg T s s.now.2 := by
  rw [now]
  exact {
    turns := Nat.le_refl _
    clocks := List.tail_suffix _
    bounded := fun _ hs => { hs with }
    armed := fun _ _ harmed => harmed
    unturned := fun _ => { Unturned.refl s with } }

/-- A session that is not upgraded may look at the clock. -/
theorem Ticks.untimed (h : Ticks cfg T s s') (hs : ¬ s.state.Up) : Untimed cfg T s s' :=
  { h with unread := fun _ hup => absurd hup hs }

theorem untimed_deadlinePassed (s : WsSession) : Untimed cfg T s s.deadlinePassed.2 := by
  unfold deadlinePassed
  split
  · next hearly =>
    have hread : Untimed cfg T s s.now.2 := s.ticks_now.untimed fun hup => hup.not_early hearly.1
    dsimp only
    split
    · exact hread.trans (Lull.untimed { Lull.refl s.now.2 with })
    · exact hread
  · exact (Lull.refl s).untimed

theorem turns_enter {st : WsState} (h : st ≠ s.state) : (s.enter st).turns = s.turns + 1 := by
  unfold enter turns
  rw [if_neg h]
  exact Nat.succ_add _ _

/-- A change of the state, which is a turn. A session goes live only with its deadline set. -/
theorem Untimed.enter {st : WsState} (h : Untimed cfg T s s')
    (hlive : Within T s.env.clocks → Bounded cfg T s → st.Live → 0 < s'.connectDeadlineNs) :
    Untimed cfg T s (s'.enter st) := by
  by_cases hst : st = s'.state
  · have hsame : s'.enter st = s' := if_pos hst
    rw [hsame]
    exact h
  · have hturns := turns_enter hst
    have hgrown := h.turns
    obtain ⟨log, heq, -⟩ := s'.enter_eq st
    rw [heq] at hturns ⊢
    exact Untimed.of_turn (by omega) h.clocks
      (fun hwithin hs => { h.bounded hwithin hs with armed := hlive hwithin hs }) h.armed

theorem untimed_shutDown (hT : 0 ≤ T) (s : WsSession) (next : WsState) : Untimed cfg T s (s.shutDown next) := by
  have hpooled : Pooled s.marks (s.frag.released.map .pool ++ s.drainPending.marks) := Pooled.trans ⟨_, rfl⟩ ⟨_, rfl⟩
  unfold shutDown
  dsimp only
  split
  · rw [now]
    refine Untimed.of_turn ?_ (List.tail_suffix _) (fun hwithin hs => ?_) fun _ _ harmed => harmed
    · have hturns : renewals (s.frag.released.map .pool ++ s.drainPending.marks) = renewals s.marks :=
        hpooled.congr fun _ _ => rfl
      change _ < changes s.log + (renewals (s.frag.released.map .pool ++ s.drainPending.marks) + 1)
      rw [hturns]
      exact Nat.lt_succ_self _
    · have hread := hwithin.reading hT
      have hdelay := hs.delay
      refine { hs with reconnect := ?_ }
      change s.env.clocks.headD 0 + s.reconnectDelayNs ≤ T + kReconnectMaxNs
      omega
  · exact Lull.untimed { Lull.refl s with turns := turns_pooled rfl hpooled }

theorem untimed_down (hT : 0 ≤ T) (s : WsSession) {next : WsState} (hnext : ¬ next.Live) :
    Untimed cfg T s ((s.shutDown next).enter next) :=
  (s.untimed_shutDown hT next).enter fun _ _ hlive => absurd hlive hnext

theorem blocks_untimed (hT : 0 ≤ T) : Blocks (Untimed cfg T) :=
  Blocks.of_turn (fun s => (Lull.refl s).untimed) Untimed.trans (fun s _ hnext => s.untimed_down hT hnext)
    (fun s => s.lull_flushTurn.untimed) (fun s opcode payload fin _ _ => (s.lull_queueFrame opcode payload fin).untimed)
    (fun s _ _ => Lull.untimed { Lull.refl s with }) untimed_deadlinePassed

theorem untimed_takePong (s : WsSession) : Untimed cfg T s s.takePong :=
  Untimed.of_turn (Nat.lt_succ_self _) List.suffix_rfl (fun _ hs => { hs with }) fun _ _ harmed => harmed

theorem receives_untimed (hT : 0 ≤ T) {P : WsState → Prop} : Receives P (Untimed cfg T) where
  toBlocks := blocks_untimed hT
  addMessage s _ _ := Lull.untimed { Lull.refl s with }
  storeFragment s chunk _ := (s.lull_storeFragment chunk).untimed
  dropFragment s := Lull.untimed { Lull.refl s with turns := turns_pooled rfl ⟨_, rfl⟩ }
  openFragment s op _ := (s.lull_openFragment op).untimed
  takePong := untimed_takePong
  countHeader s := Lull.untimed { Lull.refl s with }
  countFrame s _ _ _ := Lull.untimed { Lull.refl s with }
  exhausted s _ := Lull.untimed { Lull.refl s with }

theorem untimed_parseFrames (hT : 0 ≤ T) (hcb : Keeping (Untimed cfg T) cb) (hbasic : Keeping Basic cb)
    (s : WsSession) (hs : s.state ≠ .upgrading) : Untimed cfg T s (parseFrames cb s) :=
  keeps_parseFrames (P := (· ≠ .upgrading)) (fun _ h => h) (fun _ h => h.not_upgrading) (receives_untimed hT)
    (blocks_untimed hT).above (fun s payload _ => (s.lull_queueFrame .pong payload true).untimed)
    (fun s _ _ => Lull.untimed { Lull.refl s with }) (fun s _ => s.lull_compactRecv.untimed) hcb hbasic s hs

/-- The deadline of an attempt to connect. -/
theorem armDeadline_arms (hT : 0 ≤ T) (hconnect : 0 < cfg.connectTimeoutNs) (s : WsSession) :
    s.armDeadline.turns = s.turns ∧ s.armDeadline.env.clocks <:+ s.env.clocks ∧
      (Within T s.env.clocks → Bounded cfg T s → Bounded cfg T s.armDeadline ∧ 0 < s.armDeadline.connectDeadlineNs) := by
  unfold armDeadline
  split
  · rw [now]
    refine ⟨rfl, List.tail_suffix _, fun hwithin hs => ?_⟩
    have hread := hwithin.reading hT
    have hpos : 0 < s.env.clocks.headD 0 + s.cfg.connectTimeoutNs := by
      rw [hs.config]
      omega
    refine ⟨{ hs with connect := ?_, armed := fun _ => hpos }, hpos⟩
    change s.env.clocks.headD 0 + s.cfg.connectTimeoutNs ≤ T + cfg.connectTimeoutNs
    rw [hs.config]
    omega
  · next hoff => exact ⟨rfl, List.suffix_rfl, fun _ hs => absurd (hs.config ▸ hconnect) hoff⟩

/-- An attempt to connect, which is a turn. -/
theorem untimed_tryDial (hT : 0 ≤ T) (hconnect : 0 < cfg.connectTimeoutNs) {how : Dialing}
    (h : s.tryDial = (how, s')) :
    Untimed cfg T s s' ∧ s.turns < s'.turns ∧
      (how = .dialed → Within T s.env.clocks → Bounded cfg T s → 0 < s'.connectDeadlineNs) := by
  have hmark : Untimed cfg T s (s.mark .dial) :=
    Untimed.of_turn (Nat.lt_succ_self _) List.suffix_rfl (fun _ hs => { hs with }) fun _ _ harmed => harmed
  have hmarked : s.turns < (s.mark .dial).turns := Nat.lt_succ_self _
  have htake := (s.mark .dial).lull_takeRecv
  unfold tryDial at h
  split at h
  · next s₁ heq =>
    cases h
    rw [heq] at htake
    have hnote : Lull s₁ (s₁.note (.starved s₁.linked)) := { Lull.refl s₁ with }
    refine ⟨hmark.trans (htake.untimed.trans hnote.untimed), ?_, fun hdialed => by cases hdialed⟩
    rw [hnote.turns, htake.turns]
    exact hmarked
  · next s₁ heq =>
    rw [heq] at htake
    have hto : Untimed cfg T s s₁ := hmark.trans htake.untimed
    obtain ⟨hturns, hclocks, harm⟩ := s₁.armDeadline_arms hT hconnect
    have hconn := s₁.armDeadline.lull_transportConnect
    obtain rfl : s₁.armDeadline.transportConnect.2 = s' := by
      split at h
      · next heq' =>
        cases h
        rw [heq']
      · next heq' =>
        cases h
        rw [heq']
    have hset (hwithin : Within T s.env.clocks) (hs : Bounded cfg T s) :
        0 < s₁.armDeadline.transportConnect.2.connectDeadlineNs :=
      hconn.connectDeadlineNs ▸ (harm (hwithin.suffix hto.clocks) (hto.bounded hwithin hs)).2
    have hturn : s.turns < s₁.armDeadline.transportConnect.2.turns := by
      rw [hconn.turns, hturns, htake.turns]
      exact hmarked
    refine ⟨Untimed.of_turn hturn ?_ (fun hwithin hs => ?_) fun hwithin hs _ => hset hwithin hs, hturn, fun _ => hset⟩
    · rw [hconn.clocks]
      exact hclocks.trans hto.clocks
    · have harmed := (harm (hwithin.suffix hto.clocks) (hto.bounded hwithin hs)).1
      exact hconn.untimed.bounded (hwithin.suffix (hclocks.trans hto.clocks)) harmed

theorem dials_untimed (hT : 0 ≤ T) (hconnect : 0 < cfg.connectTimeoutNs) : Dials (Untimed cfg T) where
  starved h := (untimed_tryDial hT hconnect h).1.enter fun _ _ hlive => absurd hlive not_live_failed
  refused h := (untimed_tryDial hT hconnect h).1.trans (untimed_down hT _ not_live_failed)
  dialed h := (untimed_tryDial hT hconnect h).1.enter fun hwithin hs _ => (untimed_tryDial hT hconnect h).2.2 rfl hwithin hs
  register s := s.lull_register.untimed

theorem untimed_auto (s : WsSession) : Untimed cfg T s { s with autoReconnect := false } where
  turns := Nat.le_refl _
  clocks := List.suffix_rfl
  bounded _ hs := { hs with }
  armed _ _ harmed := harmed
  unturned _ := { Unturned.refl s with auto := fun hauto => by cases hauto }
  unread _ _ := rfl

theorem untimed_act (hT : 0 ≤ T) (hconnect : 0 < cfg.connectTimeoutNs) (hcb : Keeping (Untimed cfg T) cb)
    (s : WsSession) (a : Act) : Untimed cfg T s (act cb s a) := by
  have hB : Blocks (Untimed cfg T) := blocks_untimed hT
  cases a with
  | connect => exact keeps_startConnect hB (dials_untimed hT hconnect) hcb s
  | send payload binary => exact keeps_send hB.toFlushes hcb s payload binary
  | close code =>
    apply keeps_close hB hcb s code s.untimed_auto
    intro hopen
    have hinside : Untimed cfg T s { s with autoReconnect := false, inClose := true } :=
      s.untimed_auto.trans (Lull.untimed { Lull.refl { s with autoReconnect := false } with })
    have hsend : Untimed cfg T s (sendClose cb s code) :=
      keeps_sendClose hB.toFlushes hcb hinside (lull_queueFrame _ _ _ _).untimed
        fun s _ _ _ _ => Lull.untimed { Lull.refl s with }
    exact hsend.enter fun hwithin hs _ => hsend.armed hwithin hs (hs.armed (hopen ▸ by decide))

theorem untimed_callbacks (hT : 0 ≤ T) (hconnect : 0 < cfg.connectTimeoutNs) (depth : Nat) :
    Keeping (Untimed cfg T) (callbacks depth) :=
  keeping_callbacks (blocks_untimed hT).refl Untimed.trans (fun s _ => Lull.untimed { Lull.refl s with })
    (fun _ hcb => untimed_act hT hconnect hcb) depth

theorem ticks_reconnectDue (s : WsSession) : Ticks cfg T s s.reconnectDue.2 := by
  unfold reconnectDue
  split
  · exact (Lull.refl s).untimed.toTicks
  · have hread : Ticks cfg T s s.now.2 := s.ticks_now
    dsimp only
    split
    · exact hread
    · refine hread.trans {
        turns := Nat.le_refl _
        clocks := List.suffix_rfl
        bounded := fun _ hs => { hs with delay := ?_ }
        armed := fun _ _ harmed => harmed
        unturned := fun _ => { Unturned.refl s.now.2 with } }
      change nextDelay s.now.2.reconnectDelayNs ≤ kReconnectMaxNs
      unfold nextDelay
      split
      · decide
      · split
        · exact Int.le_refl _
        · next hle => exact Int.not_lt.mp hle

theorem untimed_accepted (h : s.readResponse = (.accept, s')) : Untimed cfg T s s' := by
  obtain ⟨reads, input, recv, wire, faults, log, heq, -, hlog⟩ := readResponse_snd h
  have hturns : changes log = changes s.log := by
    rcases hlog with rfl | rfl
    · rfl
    · rfl
  have hsame : s'.turns = s.turns := by
    rw [turns, marks_accepted h, heq]
    exact congrArg (· + renewals s.marks) hturns
  rw [if_pos rfl, if_pos rfl] at heq
  rw [heq] at hsame ⊢
  exact {
    turns := hsame.ge
    clocks := List.suffix_rfl
    bounded := fun _ hs => { hs with delay := (by decide : (0 : Int) ≤ kReconnectMaxNs) }
    armed := fun _ _ harmed => harmed
    unturned := fun _ => { Unturned.refl s with }
    unread := fun _ _ => rfl }

/-- The first ping of a connection. -/
theorem armPing_arms (cfg : Config) (hT : 0 ≤ T) (s : WsSession) :
    s.armPing.turns = s.turns ∧ s.armPing.env.clocks <:+ s.env.clocks ∧
      s.armPing.connectDeadlineNs = s.connectDeadlineNs ∧
      (Within T s.env.clocks → Bounded cfg T s → Bounded cfg T s.armPing) := by
  unfold armPing
  dsimp only
  split
  · rw [now]
    refine ⟨rfl, List.tail_suffix _, rfl, fun hwithin hs => { hs with ping := ?_ }⟩
    have hread := hwithin.reading hT
    change s.env.clocks.headD 0 + s.cfg.pingIntervalNs ≤ T + cfg.pingIntervalNs
    rw [hs.config]
    omega
  · exact ⟨rfl, List.suffix_rfl, rfl, fun _ hs => { hs with }⟩

/-- A session that opens takes a turn. -/
theorem ticks_opens (hT : 0 ≤ T) (hs : s.state = .upgrading) (h : s.readResponse = (.accept, s'))
    (hset : Untimed cfg T (s'.enter .opened) s'') : Ticks cfg T s s''.armPing := by
  have hread : Untimed cfg T s s' := untimed_accepted h
  have hentered : Untimed cfg T s (s'.enter .opened) :=
    hread.enter fun hwithin hb _ => hread.armed hwithin hb (hb.armed (hs ▸ by decide))
  have hto := hentered.trans hset
  obtain ⟨hturns, hclocks, hdeadline, hbounded⟩ := s''.armPing_arms cfg hT
  have hstate : s'.state = .upgrading := (readResponse_fields h).2.2.1.trans hs
  have hturn : s.turns < s''.armPing.turns := by
    have henter : (s'.enter .opened).turns = s'.turns + 1 := turns_enter (by rw [hstate]; decide)
    have hread := hread.turns
    have hset := hset.turns
    omega
  exact (Untimed.of_turn hturn (hclocks.trans hto.clocks)
    (fun hwithin hb => hbounded (hwithin.suffix hto.clocks) (hto.bounded hwithin hb))
    fun hwithin hb harmed => hdeadline ▸ hto.armed hwithin hb harmed).toTicks

/-- The test of `check_keepalive`: a ping is sent at the time that the clock shows, and only if no pong is awaited. -/
theorem ticks_keepaliveTurn {found : Keepalive} (h : s.keepaliveTurn = (found, s')) :
    Ticks cfg T s s' ∧ ∀ t, found = .due t → s.awaitingPong = false ∧ t = s.env.clocks.headD 0 := by
  unfold keepaliveTurn at h
  split at h
  · cases h
    exact ⟨(Lull.refl s).untimed.toTicks, fun _ hdue => by cases hdue⟩
  · have hread : Ticks cfg T s s.now.2 := ticks_now _
    have hkept : s.now.2.awaitingPong = s.awaitingPong := rfl
    have hclock : s.now.1 = s.env.clocks.headD 0 := rfl
    generalize s.now = reading at h hread hkept hclock
    obtain ⟨t, s₁⟩ := reading
    dsimp only at h hread hkept hclock
    split at h
    · split at h
      · cases h
        have hlapse : Lull s₁ (((s₁.note (.pongLate s₁.state)).note .timedOut).mark (.lapse t)) := { Lull.refl s₁ with }
        exact ⟨hread.trans hlapse.untimed.toTicks, fun _ hdue => by cases hdue⟩
      · cases h
        exact ⟨hread, fun _ hdue => by cases hdue⟩
    · next hawaiting =>
      split at h
      · cases h
        have hping : Lull s₁ ((s₁.note (.pingDue s₁.state)).mark (.ping t (s₁.queueFrame .ping [] true).1)) :=
          { Lull.refl s₁ with }
        refine ⟨hread.trans hping.untimed.toTicks, fun t' hdue => ?_⟩
        cases hdue
        exact ⟨hkept ▸ Bool.eq_false_iff.mpr hawaiting, hclock⟩
      · cases h
        exact ⟨hread, fun _ hdue => by cases hdue⟩

theorem ticks_checkKeepalive (hT : 0 ≤ T) (hcb : Keeping (Untimed cfg T) cb) (s : WsSession) :
    Ticks cfg T s (checkKeepalive cb s) := by
  have hB : Blocks (Untimed cfg T) := blocks_untimed hT
  unfold checkKeepalive
  split
  · next h => exact (ticks_keepaliveTurn h).1
  · next h => exact (ticks_keepaliveTurn h).1.trans (keeps_teardown hB hcb _ not_live_failed).toTicks
  · next t s₁ h =>
    have hturn : Ticks cfg T s s₁ := (ticks_keepaliveTurn h).1
    obtain ⟨hquiet, rfl⟩ := (ticks_keepaliveTurn h : Ticks cfg T s s₁ ∧ _).2 t rfl
    have hsent : Untimed cfg T s₁ (enqueueFrame cb s₁ .ping [] true).2 :=
      keeps_enqueueFrame hB.toFlushes hcb (s₁.lull_queueFrame .ping [] true).untimed
    have hto := hturn.trans hsent.toTicks
    exact {
      turns := hto.turns
      clocks := hto.clocks
      bounded := fun hwithin hs => by
        have hb := hto.bounded hwithin hs
        have hread := hwithin.reading hT
        refine { hb with pong := ?_, ping := ?_ }
        · change s.env.clocks.headD 0 + _ ≤ _
          rw [hb.config]
          omega
        · change s.env.clocks.headD 0 + _ ≤ _
          rw [hb.config]
          omega
      armed := hto.armed
      unturned := fun hturns =>
        { hto.unturned hturns with
          waits := fun hwaits => absurd hwaits (Bool.eq_false_iff.mp hquiet)
          rests := fun hrests => by cases hrests } }

/-- The upgrade request, which comes with a change of the state. -/
theorem untimed_request {ok : Bool} (hs : s.state = .connecting)
    (hset : Untimed cfg T (s.enter .upgrading) s') (h : s'.queueRequest = (ok, s'')) : Untimed cfg T s s'' := by
  have henter : Untimed cfg T s (s.enter .upgrading) :=
    (Lull.refl s).untimed.enter fun _ hb _ => hb.armed (hs ▸ by decide)
  have hqueue := s'.lull_queueRequest
  rw [h] at hqueue
  exact henter.trans (hset.trans hqueue.untimed)

theorem drives_ticks (hT : 0 ≤ T) (hconnect : 0 < cfg.connectTimeoutNs) : Drives (Untimed cfg T) (Ticks cfg T) where
  le h := h.toTicks
  trans := Ticks.trans
  toConnects := (dials_untimed hT hconnect).lift ⟨Untimed.toTicks, Ticks.trans⟩
  reconnectDue s _ := s.ticks_reconnectDue
  pollOpen s := s.lull_pollOpen.untimed.toTicks
  request hs hset h := (untimed_request hs hset h).toTicks
  refuse hs hset h := ((untimed_request hs hset h).trans (untimed_down hT _ not_live_failed)).toTicks
  wait _ h := (lull_readResponse h (by decide)).untimed.toTicks
  reject _ h := ((lull_readResponse h (by decide)).untimed.trans (untimed_down hT _ not_live_failed)).toTicks
  opens := ticks_opens hT
  readFrames {s} _ := s.lull_readFrames.untimed.toTicks
  parse hcb hbasic s hs := (untimed_parseFrames hT hcb hbasic s (WsState.Up.not_upgrading hs)).toTicks
  resume {cb} hcb hbasic s := by
    intro s' hne _
    have hnote : Untimed cfg T s' (s'.note (.resumed s'.state)) := Lull.untimed { Lull.refl s' with }
    exact (hnote.trans (untimed_parseFrames hT hcb hbasic _ hne)).toTicks
  keepalive hcb _ _ _ := ticks_checkKeepalive hT hcb _

theorem ticks_api (hT : 0 ≤ T) (hconnect : 0 < cfg.connectTimeoutNs) (depth : Nat) (s : WsSession) (a : Api) :
    Ticks cfg T s (api (callbacks depth) s a) := by
  have hB : Blocks (Untimed cfg T) := blocks_untimed hT
  have hcb := untimed_callbacks hT hconnect depth
  cases a with
  | act a => exact (untimed_act hT hconnect hcb s a).toTicks
  | onReady => exact keeps_onReady hB ((drives_ticks hT hconnect).polls hB) hcb (basic_callbacks depth) s
  | checkTimeouts => exact (keeps_checkTimeouts hB hcb s).toTicks

theorem goes_call (hconnect : 0 < cfg.connectTimeoutNs) (depth : Nat) (s : WsSession) (c : Api × Env) :
    Goes turns Unturned s (call depth s c) := by
  have henv : Goes turns Unturned s { s with env := c.2 } :=
    ⟨Nat.le_refl _, fun _ => { Unturned.refl s with }⟩
  exact henv.trans (ticks_api (T := 0) (Int.le_refl 0) hconnect depth _ c.1).toGoes

theorem goes_run (hconnect : 0 < cfg.connectTimeoutNs) (depth : Nat) (s : WsSession) (calls : List (Api × Env)) :
    Goes turns Unturned s (run depth s calls) :=
  Goes.run (goes_call hconnect depth) s calls

end Steps

end WsSession

/-- The clock shows times up to `T` during the calls. -/
def ReadBy (T : Int) (calls : List (Api × Env)) : Prop := ∀ c ∈ calls, Within T c.2.clocks

instance (T : Int) : DecidablePred (ReadBy T) :=
  fun calls => inferInstanceAs (Decidable (∀ c ∈ calls, Within T c.2.clocks))

namespace WsSession

theorem bounded_run {cfg : Config} {T : Int} (hT : 0 ≤ T) (hconnect : 0 < cfg.connectTimeoutNs) (depth : Nat)
    (hs : Bounded cfg T s) {calls : List (Api × Env)} (hcalls : ReadBy T calls) :
    Bounded cfg T (run depth s calls) := by
  induction calls generalizing s with
  | nil => exact hs
  | cons c rest ih =>
    obtain ⟨hc, hrest⟩ := List.forall_mem_cons.mp hcalls
    exact ih ((ticks_api hT hconnect depth { s with env := c.2 } c.1).bounded hc { hs with }) hrest

theorem Bounded.mono {cfg : Config} {T T' : Int} (hs : Bounded cfg T s) (hT : T ≤ T') :
    Bounded cfg T' s where
  config := hs.config
  connect := by
    have := hs.connect
    omega
  ping := by
    have := hs.ping
    omega
  pong := by
    have := hs.pong
    omega
  delay := hs.delay
  reconnect := by
    have := hs.reconnect
    omega
  armed := hs.armed

end WsSession

end Lepton.Ws

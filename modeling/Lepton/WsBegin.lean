import Lepton.WsOpen

/-! What a connection begins with. Whatever has become of earlier connections, one that waits for its upgrade has
received and delivered nothing, has no message in progress, and its receive buffer holds what it has read. -/

namespace Lepton.Ws

variable {s s' s'' : WsSession} {cb : Callbacks}

/-- The states of a connection that has not opened yet. -/
def WsState.Early (st : WsState) : Prop := st = .connecting ∨ st = .upgrading

theorem not_early_of_not_live {st : WsState} (h : ¬ st.Live) : ¬ st.Early := by
  rintro (rfl | rfl)
  · exact h (by decide)
  · exact h (by decide)

theorem WsState.Up.not_early {st : WsState} (h : st.Up) : ¬ st.Early := by
  rintro (rfl | rfl)
  · exact absurd h (by decide)
  · exact absurd h (by decide)

theorem not_early_closing : ¬ WsState.closing.Early := WsState.Up.not_early (Or.inr rfl)

/-- A connection before its first frame, in a buffer of the pool. -/
structure Dawn (s : WsSession) : Prop where
  received : s.received = []
  messages : s.messages = []
  frag : s.frag.base = none
  backed : s.recv.Backed
  cap : s.recv.cap = s.cfg.cap

/-- What the beginning of a connection consists of is the same. -/
structure SameStart (s s' : WsSession) : Prop where
  received : s'.received = s.received
  messages : s'.messages = s.messages
  frag : s.frag.base = none → s'.frag.base = none
  recv : s'.recv = s.recv
  input : s'.input = s.input

theorem SameStart.trans (h : SameStart s s') (h' : SameStart s' s'') : SameStart s s'' :=
  ⟨h'.received.trans h.received, h'.messages.trans h.messages, fun hs => h'.frag (h.frag hs), h'.recv.trans h.recv,
    h'.input.trans h.input⟩

theorem SameStart.dawn (h : SameStart s s') (hcfg : s'.cfg = s.cfg) (hs : Dawn s) : Dawn s' where
  received := h.received.trans hs.received
  messages := h.messages.trans hs.messages
  frag := h.frag hs.frag
  backed := h.recv ▸ hs.backed
  cap := by
    rw [h.recv, hcfg]
    exact hs.cap

/-- What user code may do to a connection that has not opened: nothing, but begin another one. -/
structure Begins (s s' : WsSession) : Prop where
  cfg : s'.cfg = s.cfg
  early : s'.state.Early →
    (s'.state = .connecting ∧ Dawn s' ∧ s'.recv.len = 0) ∨ (s'.state = s.state ∧ SameStart s s')

theorem Begins.trans (h : Begins s s') (h' : Begins s' s'') : Begins s s'' := by
  refine ⟨h'.cfg.trans h.cfg, fun hearly => ?_⟩
  rcases h'.early hearly with hnew | ⟨hstate', hsame'⟩
  · exact Or.inl hnew
  · rcases h.early (hstate' ▸ hearly) with ⟨hconn, hdawn, hlen⟩ | ⟨hstate, hsame⟩
    · exact Or.inl ⟨hstate'.trans hconn, hsame'.dawn h'.cfg hdawn, hsame'.recv ▸ hlen⟩
    · exact Or.inr ⟨hstate'.trans hstate, hsame.trans hsame'⟩

theorem Begins.same (hcfg : s'.cfg = s.cfg) (hstate : s'.state = s.state)
    (hreceived : s'.received = s.received) (hmessages : s'.messages = s.messages)
    (hfrag : s.frag.base = none → s'.frag.base = none) (hrecv : s'.recv = s.recv) (hinput : s'.input = s.input) :
    Begins s s' :=
  ⟨hcfg, fun _ => Or.inr ⟨hstate, hreceived, hmessages, hfrag, hrecv, hinput⟩⟩

theorem Begins.refl (s : WsSession) : Begins s s := .same rfl rfl rfl rfl id rfl rfl

/-- A step to a state of another kind. -/
theorem Begins.late (hcfg : s'.cfg = s.cfg) (hlate : ¬ s'.state.Early) : Begins s s' :=
  ⟨hcfg, fun h => absurd h hlate⟩

namespace WsSession

theorem begins_enter {s₀ : WsSession} (hcfg : s.cfg = s₀.cfg) {st : WsState} (hst : ¬ st.Early) :
    Begins s₀ (s.enter st) := by
  have hstate := s.enter_state st
  obtain ⟨log, heq, -⟩ := s.enter_eq st
  rw [heq] at hstate ⊢
  exact .late hcfg (hstate ▸ hst)

theorem begins_down {s₀ : WsSession} (hcfg : s.cfg = s₀.cfg) {next : WsState} (hnext : ¬ next.Live) :
    Begins s₀ ((s.shutDown next).enter next) := by
  obtain ⟨clocks, t, heq⟩ := s.shutDown_eq next
  rw [heq]
  refine begins_enter ?_ (not_early_of_not_live hnext)
  exact hcfg

theorem begins_queueFrame (s : WsSession) (opcode : WsOpcode) (payload : List UInt8) (fin : Bool) :
    Begins s (s.queueFrame opcode payload fin).2 := by
  obtain ⟨acquires, gen, faults, pending, interest, frames, h, -⟩ := s.queueFrame_snd opcode payload fin
  rw [h]
  exact .same rfl rfl rfl rfl id rfl rfl

theorem blocks_begins : Blocks Begins := by
  refine Blocks.of_turn Begins.refl Begins.trans (fun s _ hnext => begins_down rfl hnext) (fun s => ?_)
    (fun s opcode payload fin _ _ => s.begins_queueFrame opcode payload fin)
    (fun _ _ _ => .same rfl rfl rfl rfl id rfl rfl) fun s => ?_
  · rcases s.flushTurn_snd with ⟨interest, h, -⟩ | ⟨-, r, writes, pending, h⟩
    · rw [h]
      exact .same rfl rfl rfl rfl id rfl rfl
    · rw [h]
      exact .same rfl rfl rfl rfl id rfl rfl
  · obtain ⟨clocks, log, h, -⟩ := s.deadlinePassed_snd
    rw [h]
    exact .same rfl rfl rfl rfl id rfl rfl

theorem dials_begins : Dials Begins where
  starved {s s'} h := by
    obtain ⟨acquires, recv, hs⟩ := tryDial_starved h
    rw [hs]
    refine begins_enter ?_ (not_early_of_not_live not_live_failed)
    rfl
  refused {s s'} h := by
    obtain ⟨env, recv, deadline, -, hs⟩ := tryDial_refused h
    rw [hs]
    refine begins_down ?_ not_live_failed
    rfl
  dialed {s s'} h := by
    obtain ⟨id, hrecv⟩ := tryDial_recv h
    obtain ⟨env, deadline, fd, -, hs⟩ := tryDial_dialed h
    have hfits : (IoBuffer.blank id s.cfg.cap 0).Fits := IoBuffer.fits_blank (Nat.zero_le _) s.cfg.cap_lt
    obtain ⟨log, heq, -⟩ := s'.enter_eq .connecting
    rw [heq, hs, hrecv]
    refine ⟨rfl, fun _ => Or.inl ⟨rfl, ⟨rfl, rfl, IoBuffer.base_release _, ⟨hfits.backed, hfits.small⟩, rfl⟩, rfl⟩⟩
  register := keeps_register Begins.refl fun _ _ _ _ => .same rfl rfl rfl rfl id rfl rfl

theorem begins_act (hcb : Keeping Begins cb) (s : WsSession) (a : Act) : Begins s (act cb s a) := by
  cases a with
  | connect => exact keeps_startConnect blocks_begins dials_begins hcb s
  | send payload binary => exact keeps_send blocks_begins.toFlushes hcb s payload binary
  | close code =>
    apply keeps_close blocks_begins hcb s code (.same rfl rfl rfl rfl id rfl rfl)
    intro _
    have hset : Begins s { s with autoReconnect := false, inClose := true } := .same rfl rfl rfl rfl id rfl rfl
    have hsent := hset.trans (keeps_enqueueFrame blocks_begins.toFlushes hcb
      (begins_queueFrame _ .close [(code >>> 8).toUInt8, code.toUInt8] true))
    refine begins_enter ?_ not_early_closing
    exact hsent.cfg

theorem begins_callbacksOf (allowed : Act → Bool) (depth : Nat) : Keeping Begins (callbacksOf allowed depth) :=
  keeping_callbacksOf Begins.refl Begins.trans (fun _ _ => .same rfl rfl rfl rfl id rfl rfl)
    (fun _ hcb s a _ => begins_act hcb s a) depth

theorem begins_callbacks (depth : Nat) : Keeping Begins (callbacks depth) :=
  callbacksOf_all depth ▸ begins_callbacksOf (fun _ => true) depth

/-- The steps of `dispatch_frame` are taken after the beginning. -/
theorem receives_begins : Receives (fun st => ¬ st.Early) Begins where
  toBlocks := blocks_begins
  addMessage _ _ hs := .late rfl hs
  storeFragment s chunk hs := by
    obtain ⟨frag, faults, h⟩ := s.storeFragment_snd chunk
    rw [h]
    exact .late rfl hs
  dropFragment s := .same rfl rfl rfl rfl (fun _ => IoBuffer.base_release s.frag) rfl rfl
  openFragment s op hs := by
    obtain ⟨acquires, frag, fragOpcode, h⟩ := s.openFragment_snd op
    rw [h]
    exact .late rfl hs
  takePong _ := .same rfl rfl rfl rfl id rfl rfl
  countHeader _ := .same rfl rfl rfl rfl id rfl rfl
  countFrame _ _ _ hs := .late rfl hs
  exhausted _ _ := .same rfl rfl rfl rfl id rfl rfl

/-- A connection that has not opened is at its beginning, and has gathered its input. -/
structure Ready (cfg : Config) (s : WsSession) : Prop where
  config : s.cfg = cfg
  early : s.state.Early → Dawn s
  gathered : s.state = .upgrading → s.recv.Fits ∧ s.recv.head = 0 ∧ s.recv.bytes = s.input

def Readies (cfg : Config) (s s' : WsSession) : Prop := Ready cfg s → Ready cfg s'

variable {cfg : Config}

theorem Readies.of_begins (h : Begins s s') : Readies cfg s s' := by
  intro hs
  refine ⟨h.cfg.trans hs.config, fun hearly => ?_, fun hup => ?_⟩
  · rcases h.early hearly with ⟨-, hdawn, -⟩ | ⟨hstate, hsame⟩
    · exact hdawn
    · exact hsame.dawn h.cfg (hs.early (hstate ▸ hearly))
  · rcases h.early (Or.inr hup) with ⟨hconn, -⟩ | ⟨hstate, hsame⟩
    · exact absurd (hup.symm.trans hconn) nofun
    · rw [hsame.recv, hsame.input]
      exact hs.gathered (hstate ▸ hup)

theorem above_readies : Above Begins (Readies cfg) := ⟨Readies.of_begins, fun h h' hs => h' (h hs)⟩

theorem readies_recv {recv : IoBuffer} {faults : Nat} {marks : List Mark}
    (hs' : s' = { s with recv := recv, faults := faults, marks := marks }) (hup : s.state ≠ .upgrading)
    (hbacked : s.recv.Backed → recv.Backed) (hcap : recv.cap = s.recv.cap) : Readies cfg s s' := by
  subst hs'
  intro hs
  refine ⟨hs.config, fun hearly => ?_, fun h => absurd h hup⟩
  have hdawn := hs.early hearly
  exact ⟨hdawn.received, hdawn.messages, hdawn.frag, hbacked hdawn.backed, hcap.trans hdawn.cap⟩

theorem cap_compactRecv (s : WsSession) : s.compactRecv.recv.cap = s.recv.cap := by
  unfold compactRecv
  split
  · rfl
  · split
    · rfl
    · rfl

theorem readies_parseFrames (hcb : Keeping Begins cb) (hbasic : Keeping Basic cb) (s : WsSession)
    (hs : ¬ s.state.Early) : Readies cfg s (parseFrames cb s) := by
  refine keeps_parseFrames (P := fun st => ¬ st.Early) (fun _ h hup => h (Or.inr hup)) (fun _ h => h.not_early)
    receives_begins above_readies (fun s payload _ => s.begins_queueFrame .pong payload true) ?_ ?_ hcb hbasic s hs
  · exact fun s n hup => readies_recv rfl hup (fun h => h.consume n) rfl
  · intro s hup
    have hbacked : s.recv.Backed → s.compactRecv.recv.Backed := backed_compactRecv
    have hcap := s.cap_compactRecv
    obtain ⟨recv, faults, h⟩ := s.compactRecv_eq
    rw [h] at hbacked hcap
    exact readies_recv h hup hbacked hcap

theorem readies_request {ok : Bool} (hs : s.state = .connecting)
    (hset : Begins (s.enter .upgrading) s') (hrequest : s'.queueRequest = (ok, s'')) : Readies cfg s s'' := by
  intro hready
  have hdawn : s'.state.Early → Dawn s' := by
    intro hearly
    rcases hset.early hearly with ⟨-, hdawn, -⟩ | ⟨-, hsame⟩
    · exact hdawn
    · have hstart : Dawn (s.enter .upgrading) := by
        have hdawn := hready.early (Or.inl hs)
        obtain ⟨log, heq, -⟩ := s.enter_eq .upgrading
        rw [heq]
        exact ⟨hdawn.received, hdawn.messages, hdawn.frag, hdawn.backed, hdawn.cap⟩
      exact hsame.dawn hset.cfg hstart
  obtain ⟨acquires, faults, pending, interest, request, marks, rfl, -⟩ := queueRequest_snd hrequest
  have hcfg : s'.cfg = cfg := by
    rw [hset.cfg]
    obtain ⟨log, heq, -⟩ := s.enter_eq .upgrading
    rw [heq]
    exact hready.config
  refine ⟨hcfg, fun hearly => ?_, fun hup => ?_⟩
  · have hdawn := hdawn hearly
    exact ⟨hdawn.received, hdawn.messages, hdawn.frag, ⟨hdawn.backed.size, hdawn.backed.small⟩, hdawn.cap⟩
  · exact ⟨(hdawn (Or.inr hup)).backed.reset, rfl, rfl⟩

/-- A response that is not complete is gathered. -/
theorem readies_wait (hs : s.state = .upgrading) (h : s.readResponse = (.wait, s')) : Readies cfg s s' := by
  intro hready
  obtain ⟨hfits, hhead, hbytes⟩ := hready.gathered hs
  have hdawn := hready.early (Or.inr hs)
  have hstay {s' : WsSession} (hreceived : s'.received = s.received) (hmessages : s'.messages = s.messages)
      (hfrag : s'.frag = s.frag) (hcfg : s'.cfg = s.cfg) (hcap : s'.recv.cap = s.recv.cap) (hhead' : s'.recv.head = s.recv.head)
      (hfits' : s'.recv.Fits) (hbytes' : s'.recv.bytes = s'.input) : Ready cfg s' := by
    refine ⟨hcfg.trans hready.config, fun _ => ⟨hreceived.trans hdawn.received, hmessages.trans hdawn.messages,
      hfrag ▸ hdawn.frag, ⟨hfits'.backed, hfits'.small⟩, ?_⟩, fun _ => ⟨hfits', hhead'.trans hhead, hbytes'⟩⟩
    rw [hcap, hcfg]
    exact hdawn.cap
  rcases readResponse_turn h with ⟨-, hv, -⟩ | ⟨reads, ⟨-, rfl⟩ | ⟨hv, -⟩ | ⟨hv, -⟩ | ⟨bytes, -, hlen, hjudge⟩⟩
  · cases hv
  · exact hstay rfl rfl rfl rfl rfl rfl hfits hbytes
  · cases hv
  · cases hv
  · obtain ⟨hfits', hbytes'⟩ := hfits.append hlen
    rw [hbytes] at hbytes'
    unfold judgeResponse at hjudge
    dsimp only at hjudge
    split at hjudge
    · cases hjudge
      exact hstay rfl rfl rfl rfl rfl rfl hfits' hbytes'
    · split at hjudge
      · cases hjudge
      · cases hjudge

theorem drives_readies : Drives Begins (Readies cfg) where
  toAbove := above_readies
  toConnects := dials_begins.lift above_readies
  reconnectDue s _ := by
    obtain ⟨clocks, delay, h⟩ := s.reconnectDue_snd
    rw [h]
    exact .of_begins (.same rfl rfl rfl rfl id rfl rfl)
  pollOpen s := by
    obtain ⟨opens, h⟩ := s.transportPollOpen_snd
    rw [h]
    exact .of_begins (.same rfl rfl rfl rfl id rfl rfl)
  request := readies_request
  refuse hs hset h hready := Readies.of_begins (begins_down rfl not_live_failed) (readies_request hs hset h hready)
  wait := readies_wait
  reject {s s'} _ h := by
    obtain ⟨-, -, -, hcfg, -⟩ := readResponse_fields h
    exact .of_begins (begins_down hcfg not_live_failed)
  opens := above_readies.opens
    (fun {s s'} _ h => by
      obtain ⟨-, -, -, hcfg, -⟩ := readResponse_fields h
      exact .of_begins (begins_enter hcfg (WsState.Up.not_early (Or.inl rfl))))
    fun s => by
      obtain ⟨clocks, t, h⟩ := s.armPing_eq
      rw [h]
      exact .of_begins (.same rfl rfl rfl rfl id rfl rfl)
  readFrames {s} hs := by
    obtain ⟨reads, input, recv, wire, faults, h, -⟩ := s.readFrames_snd
    rw [h]
    exact .of_begins (.late rfl (WsState.Up.not_early hs))
  parse hcb hbasic s hs := readies_parseFrames hcb hbasic s (WsState.Up.not_early hs)
  resume {cb} hcb hbasic s hne hlen := by
    have hset : Begins (s.enter .opened) (setState cb s .opened) := keeps_setState blocks_begins.above hcb (.refl _)
    have hlate : ¬ (setState cb s .opened).armPing.state.Early := by
      obtain ⟨clocks, t, harm⟩ := (setState cb s .opened).armPing_eq
      rw [harm] at hne hlen ⊢
      rintro (hconn | hup)
      · -- a connection begun by the callback for Open has nothing to parse
        rcases hset.early (Or.inl hconn) with ⟨-, -, hempty⟩ | ⟨hstate, -⟩
        · exact absurd hlen (Nat.not_lt.mpr (Nat.le_of_eq hempty))
        · exact absurd (hconn.symm.trans (hstate.trans (s.enter_state .opened))) nofun
      · exact hne hup
    generalize (setState cb s .opened).armPing = s at hlate ⊢
    have hnote : Readies cfg s (s.note (.resumed s.state)) := .of_begins (.same rfl rfl rfl rfl id rfl rfl)
    exact fun hs => readies_parseFrames hcb hbasic _ hlate (hnote hs)
  keepalive {cb} hcb hbasic s hs := .of_begins (keeps_keepalive blocks_begins hcb
    (by
      obtain ⟨clocks, log, h, -⟩ := (driveFrameRead cb s).keepaliveTurn_snd
      rw [h]
      exact .same rfl rfl rfl rfl id rfl rfl)
    (fun s' _ => s'.begins_queueFrame .ping [] true) fun _ _ => .same rfl rfl rfl rfl id rfl rfl)

/-- **A connection begins afresh**, in every run. -/
theorem ready_runWith (hcb : Keeping Begins cb) (hbasic : Keeping Basic cb) (cfg : Config) (seed : UInt64)
    (autoReconnect : Bool) (calls : List (Api × Env)) : Ready cfg (runWith cb (fresh cfg seed autoReconnect) calls) := by
  refine keeps_runWith blocks_begins drives_readies hcb hbasic
    (fun _ _ => .of_begins (.same rfl rfl rfl rfl id rfl rfl)) (fun s a => .of_begins (begins_act hcb s a))
    _ calls ⟨rfl, ?_, nofun⟩
  rintro (h | h)
  · cases h
  · cases h

end WsSession

end Lepton.Ws

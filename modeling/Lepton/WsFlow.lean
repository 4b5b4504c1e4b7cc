import Lepton.WsSteps

/-! Rules for whole calls. A preorder on sessions that every step keeps, and that the user's callbacks
keep, is kept by the functions of the session; and one that every user call keeps, given callbacks
that keep it, is kept by callbacks of any depth. -/

namespace Lepton.Ws

variable {s s' s'' : WsSession} {cb : Callbacks}

namespace WsSession

/-- Callbacks that keep a relation. -/
structure Keeping (R : WsSession → WsSession → Prop) (cb : Callbacks) : Prop where
  onState : ∀ s, R s (cb.onState s)
  onMessage : ∀ s, R s (cb.onMessage s)

/-- A frame that is not an answer to one received; a control frame is whole and short. -/
def Sendable (opcode : WsOpcode) (payload : List UInt8) (fin : Bool) : Prop :=
  opcode ≠ .pong ∧ (opcode.isControl = true → fin = true ∧ payload.length ≤ 125)

/-- The opcode of a message. -/
def messageOpcode (binary : Bool) : WsOpcode := if binary then .binary else .text

theorem sendable_data (payload : List UInt8) (binary : Bool) : Sendable (messageOpcode binary) payload true := by
  cases binary with
  | true => exact ⟨nofun, nofun⟩
  | false => exact ⟨nofun, nofun⟩

theorem sendable_close (code : UInt16) : Sendable .close [(code >>> 8).toUInt8, code.toUInt8] true :=
  ⟨nofun, fun _ => ⟨rfl, Nat.le_of_ble_eq_true rfl⟩⟩

/-- The record of a message has no part in the answer. -/
theorem queueFrame_tells (s : WsSession) (opcode : WsOpcode) (payload : List UInt8) (fin : Bool)
    (message : List UInt8) (binary : Bool) :
    ((s.tells message binary).queueFrame opcode payload fin).1 = .ok ↔ (s.queueFrame opcode payload fin).1 = .ok := by
  rw [queueFrame_ok_iff, queueFrame_ok_iff]
  rfl

/-- A message is recorded if it will be taken. -/
def recorded (s : WsSession) (payload : List UInt8) (binary : Bool) : WsSession :=
  if (s.queueFrame (messageOpcode binary) payload true).1 = .ok then s.tells payload binary else s

/-- The frame that `send` queues. -/
def queueSend (s : WsSession) (payload : List UInt8) (binary : Bool) : WsSession :=
  ((s.recorded payload binary).queueFrame (messageOpcode binary) payload true).2

theorem recorded_cases (s : WsSession) (payload : List UInt8) (binary : Bool) :
    s.recorded payload binary = s.tells payload binary ∨ s.recorded payload binary = s := by
  unfold recorded
  split
  · exact Or.inl rfl
  · exact Or.inr rfl

/-- A preorder on sessions kept by the steps of sending, each taken between two calls of the user's code. -/
structure Flushes (R : WsSession → WsSession → Prop) : Prop where
  refl : ∀ s, R s s
  trans : ∀ {s s' s''}, R s s' → R s' s'' → R s s''
  flushTurn : ∀ {s s' turn}, s.flushTurn = (turn, s') → turn = .stop ∨ turn = .more → R s s'
  flushFatal : ∀ {s s'}, s.flushTurn = (.fatal, s') → R s ((s'.shutDown .failed).enter .failed)
  flushFinished : ∀ {s s'}, s.flushTurn = (.finished, s') → R s ((s'.shutDown .disconnected).enter .disconnected)
  queueSend : ∀ s payload binary, s.state = .opened → R s (s.queueSend payload binary)

/-- A preorder kept by the steps of time keeping and tearing down too. -/
structure Blocks (R : WsSession → WsSession → Prop) : Prop extends Flushes R where
  down : ∀ s {next : WsState}, ¬ next.Live → R s ((s.shutDown next).enter next)
  deadlinePassed : ∀ s, R s s.deadlinePassed.2

/-- A preorder kept by the steps of `dispatch_frame` too, which is called in the states `P`. -/
structure Dispatches (P : WsState → Prop) (R : WsSession → WsSession → Prop) : Prop extends Blocks R where
  addMessage : ∀ s m, P s.state → R s (s.addMessage m)
  storeFragment : ∀ s chunk, P s.state → R s (s.storeFragment chunk).2
  dropFragment : ∀ s, R s s.dropFragment
  openFragment : ∀ s op, P s.state → R s (s.openFragment op).2
  takePong : ∀ s, R s s.takePong

/-- A preorder kept by the steps of receiving too. -/
structure Receives (P : WsState → Prop) (R : WsSession → WsSession → Prop) : Prop extends Dispatches P R where
  countHeader : ∀ s, R s s.countHeader
  countFrame : ∀ s hdr payload, P s.state → R s (s.countFrame hdr payload)
  exhausted : ∀ s n, R s { s with faults := n }

/-- A preorder kept by all steps between two calls of the user's code, in every state. -/
structure Takes (R : WsSession → WsSession → Prop) : Prop extends Receives (fun _ => True) R where
  queueFrame : ∀ s opcode payload fin, R s (s.queueFrame opcode payload fin).2
  keepaliveTurn : ∀ s, R s s.keepaliveTurn.2
  pinged : ∀ s t, R s (s.pinged t)

section Flow

variable {P : WsState → Prop} {R : WsSession → WsSession → Prop}

/-- A relation that the record of a message and the frame keep. -/
theorem keeps_queueSend (htrans : ∀ {s s' s''}, R s s' → R s' s'' → R s s'')
    (htells : ∀ s payload binary, R s (s.tells payload binary))
    (hqueue : ∀ s opcode payload fin, Sendable opcode payload fin → s.state = .opened →
      R s (s.queueFrame opcode payload fin).2) (s : WsSession) (payload : List UInt8) (binary : Bool)
    (hopen : s.state = .opened) : R s (s.queueSend payload binary) := by
  have hdata := sendable_data payload binary
  unfold queueSend
  rcases s.recorded_cases payload binary with h | h
  · rw [h]
    exact htrans (htells s payload binary) (hqueue (s.tells payload binary) _ payload true hdata hopen)
  · rw [h]
    exact hqueue s _ payload true hdata hopen

/-- A turn of the flush that the relation keeps however it ends. -/
theorem Blocks.of_turn (hrefl : ∀ s, R s s) (htrans : ∀ {s s' s''}, R s s' → R s' s'' → R s s'')
    (hdown : ∀ s {next : WsState}, ¬ next.Live → R s ((s.shutDown next).enter next))
    (hturn : ∀ s, R s s.flushTurn.2)
    (hqueue : ∀ s opcode payload fin, Sendable opcode payload fin → s.state = .opened →
      R s (s.queueFrame opcode payload fin).2)
    (htells : ∀ s payload binary, R s (s.tells payload binary)) (hdeadline : ∀ s, R s s.deadlinePassed.2) : Blocks R where
  refl := hrefl
  trans := htrans
  down := hdown
  flushTurn {s s' turn} h _ := by
    have hs := hturn s
    rwa [h] at hs
  flushFatal {s s'} h := by
    have hs := hturn s
    rw [h] at hs
    exact htrans hs (hdown s' not_live_failed)
  flushFinished {s s'} h := by
    have hs := hturn s
    rw [h] at hs
    exact htrans hs (hdown s' not_live_disconnected)
  queueSend := keeps_queueSend htrans htells hqueue
  deadlinePassed := hdeadline

/-- All steps but the end of a connection are frame steps. -/
theorem Takes.of_frame (hrefl : ∀ s, R s s) (htrans : ∀ {s s' s''}, R s s' → R s' s'' → R s s'')
    (hframe : ∀ {s s'}, Frame s s' → R s s')
    (hdown : ∀ s {next : WsState}, ¬ next.Live → R s ((s.shutDown next).enter next)) : Takes R where
  toBlocks := Blocks.of_turn hrefl htrans hdown (fun s => hframe s.frame_flushTurn)
    (fun s opcode payload fin _ _ => hframe (s.frame_queueFrame opcode payload fin))
    (fun s _ _ => hframe { Frame.refl s with }) (fun s => hframe s.frame_deadlinePassed)
  queueFrame s opcode payload fin := hframe (s.frame_queueFrame opcode payload fin)
  keepaliveTurn s := hframe s.frame_keepaliveTurn
  pinged s _ := hframe { Frame.refl s with }
  countHeader s := hframe { Frame.refl s with }
  countFrame s _ _ _ := hframe { Frame.refl s with marks := List.suffix_cons _ _ }
  exhausted s _ := hframe { Frame.refl s with }
  addMessage s _ _ := hframe { Frame.refl s with marks := List.suffix_cons _ _ }
  storeFragment s chunk _ := hframe (s.frame_storeFragment chunk)
  dropFragment s := hframe { Frame.refl s with marks := List.suffix_append _ _ }
  openFragment s op _ := hframe (s.frame_openFragment op)
  takePong s := hframe { Frame.refl s with marks := List.suffix_cons _ _ }

theorem Takes.receives (hT : Takes R) : Receives P R where
  toBlocks := hT.toBlocks
  addMessage s m _ := hT.addMessage s m trivial
  storeFragment s chunk _ := hT.storeFragment s chunk trivial
  dropFragment := hT.dropFragment
  openFragment s op _ := hT.openFragment s op trivial
  takePong := hT.takePong
  countHeader := hT.countHeader
  countFrame s hdr payload _ := hT.countFrame s hdr payload trivial
  exhausted := hT.exhausted

/-- All steps of receiving are silent ones. -/
theorem Receives.of_silent (hB : Blocks R) (hsilent : ∀ {s s'}, Silent s s' → R s s') : Receives P R where
  toBlocks := hB
  addMessage s _ _ := hsilent { Silent.refl s with }
  storeFragment s chunk _ := hsilent (s.silent_storeFragment chunk)
  dropFragment s := hsilent { Silent.refl s with }
  openFragment s op _ := hsilent (s.silent_openFragment op)
  takePong s := hsilent { Silent.refl s with }
  countHeader s := hsilent { Silent.refl s with }
  countFrame s _ _ _ := hsilent { Silent.refl s with }
  exhausted s _ := hsilent { Silent.refl s with }

theorem Takes.of_silent (hB : Blocks R) (hsilent : ∀ {s s'}, Silent s s' → R s s')
    (hqueue : ∀ s opcode payload fin, R s (s.queueFrame opcode payload fin).2) : Takes R where
  toReceives := Receives.of_silent hB hsilent
  queueFrame := hqueue
  keepaliveTurn s := hsilent s.silent_keepaliveTurn
  pinged s _ := hsilent { Silent.refl s with }

/-- `Q` is a preorder that allows more than `R`. -/
structure Above (R Q : WsSession → WsSession → Prop) : Prop where
  le : ∀ {s s'}, R s s' → Q s s'
  trans : ∀ {s s' s''}, Q s s' → Q s' s'' → Q s s''

theorem Flushes.above (hF : Flushes R) : Above R R := ⟨fun h => h, hF.trans⟩

theorem Blocks.above (hB : Blocks R) : Above R R := hB.toFlushes.above

theorem keeps_setState {Q : WsSession → WsSession → Prop} (hQ : Above R Q) (hcb : Keeping R cb)
    {s₀ : WsSession} {st : WsState} (h : Q s₀ (s.enter st)) : Q s₀ (setState cb s st) := by
  unfold setState
  split
  · next heq =>
    rw [enter, if_pos heq] at h
    exact h
  · exact hQ.trans h (hQ.le (hcb.onState _))

theorem keeps_teardown (hB : Blocks R) (hcb : Keeping R cb) (s : WsSession) {next : WsState} (hnext : ¬ next.Live) :
    R s (teardown cb s next) :=
  keeps_setState hB.above hcb (hB.down s hnext)

theorem keeps_flushLoop (hF : Flushes R) (hcb : Keeping R cb) (fuel : Nat) (s : WsSession) :
    R s (flushLoop cb fuel s) := by
  induction fuel generalizing s with
  | zero => exact hF.refl s
  | succ fuel ih =>
    rw [flushLoop]
    split
    · next h => exact hF.flushTurn h (Or.inl rfl)
    · next h => exact keeps_setState hF.above hcb (hF.flushFatal h)
    · next h => exact keeps_setState hF.above hcb (hF.flushFinished h)
    · next h => exact hF.trans (hF.flushTurn h (Or.inr rfl)) (ih _)

theorem keeps_flushPending (hF : Flushes R) (hcb : Keeping R cb) (s : WsSession) : R s (flushPending cb s) :=
  keeps_flushLoop hF hcb _ s

theorem keeps_enqueueFrame (hF : Flushes R) (hcb : Keeping R cb) {s₀ : WsSession} {opcode : WsOpcode}
    {payload : List UInt8} {fin : Bool} (hqueue : R s₀ (s.queueFrame opcode payload fin).2) :
    R s₀ (enqueueFrame cb s opcode payload fin).2 := by
  unfold enqueueFrame
  split
  · next h =>
    rw [h] at hqueue
    exact hF.trans hqueue (keeps_flushPending hF hcb _)
  · next h =>
    rw [h] at hqueue
    exact hqueue

theorem enqueueFrame_fst (cb : Callbacks) (s : WsSession) (opcode : WsOpcode) (payload : List UInt8) (fin : Bool) :
    (enqueueFrame cb s opcode payload fin).1 = (s.queueFrame opcode payload fin).1 := by
  unfold enqueueFrame
  split
  · next h => rw [h]
  · next h => rw [h]

/-- A message is refused, or recorded and queued. -/
theorem act_send (cb : Callbacks) (s : WsSession) (payload : List UInt8) (binary : Bool) :
    (s.state ≠ .opened ∧ act cb s (.send payload binary) = s) ∨
      s.state = .opened ∧ act cb s (.send payload binary) =
        (enqueueFrame cb (s.recorded payload binary) (messageOpcode binary) payload true).2 := by
  by_cases hopen : s.state = .opened
  · right
    refine ⟨hopen, ?_⟩
    have hsend (s : WsSession) (hopen : s.state = .opened) :
        send cb s payload binary = enqueueFrame cb s (messageOpcode binary) payload true :=
      if_neg (not_not.mpr hopen)
    have hrecorded : (s.recorded payload binary).state = .opened := by
      rcases s.recorded_cases payload binary with h | h
      · rw [h]
        exact hopen
      · rw [h]
        exact hopen
    rw [act, hsend s hopen, enqueueFrame_fst]
    exact congrArg Prod.snd (hsend _ hrecorded)
  · left
    have hsend : send cb s payload binary = (.notOpen, s) := if_pos hopen
    refine ⟨hopen, ?_⟩
    rw [act, hsend, if_neg nofun, hsend]

theorem keeps_send (hF : Flushes R) (hcb : Keeping R cb) (s : WsSession) (payload : List UInt8) (binary : Bool) :
    R s (act cb s (.send payload binary)) := by
  obtain ⟨-, h⟩ | ⟨hopen, h⟩ := act_send cb s payload binary
  · rw [h]
    exact hF.refl s
  · rw [h]
    exact keeps_enqueueFrame hF hcb (hF.queueSend s payload binary hopen)

theorem keeps_deliver (hT : Dispatches P R) (hcb : Keeping R cb) (s : WsSession) (m : Message) (hs : P s.state) :
    R s (deliver cb s m) :=
  hT.trans (hT.addMessage s m hs) (hcb.onMessage _)

theorem keeps_appendFragment (hT : Dispatches P R) (hcb : Keeping R cb) (s : WsSession) (chunk : List UInt8) (fin : Bool)
    (hs : P s.state) : R s (appendFragment cb s chunk fin) := by
  have hstore := hT.storeFragment s chunk hs
  have hstate : P (s.storeFragment chunk).2.state := by
    obtain ⟨frag, faults, h⟩ := s.storeFragment_snd chunk
    rw [h]
    exact hs
  unfold appendFragment
  split
  · next h =>
    rw [h] at hstore
    exact hstore
  · next h =>
    rw [h] at hstore
    exact hT.trans hstore (keeps_teardown hT.toBlocks hcb _ not_live_failed)
  · next h =>
    rw [h] at hstore hstate
    split
    · exact hT.trans hstore (hT.trans (keeps_deliver hT hcb _ _ hstate) (hT.dropFragment _))
    · exact hstore

theorem keeps_beginFragment (hT : Dispatches P R) (hcb : Keeping R cb) (s : WsSession) (op : WsOpcode)
    (first : List UInt8) (hs : P s.state) : R s (beginFragment cb s op first) := by
  have hopen := hT.openFragment s op hs
  have hstate : P (s.openFragment op).2.state := by
    obtain ⟨acquires, frag, fragOpcode, h⟩ := s.openFragment_snd op
    rw [h]
    exact hs
  unfold beginFragment
  split
  · next h =>
    rw [h] at hopen hstate
    exact hT.trans hopen (keeps_appendFragment hT hcb _ _ _ hstate)
  · next h =>
    rw [h] at hopen
    exact hT.trans hopen (keeps_teardown hT.toBlocks hcb _ not_live_failed)

theorem keeps_dispatchPing (hT : Dispatches P R) (hcb : Keeping R cb) (s : WsSession) (hdr : WsFrameHeader)
    (payload : List UInt8) (hs : P s.state) (hpong : hdr.opcode = .ping → R s (s.queueFrame .pong payload true).2) :
    R s (dispatchFrame cb s hdr payload) := by
  unfold dispatchFrame
  split
  · split
    · exact keeps_deliver hT hcb _ _ hs
    · exact keeps_beginFragment hT hcb _ _ _ hs
  · split
    · exact keeps_deliver hT hcb _ _ hs
    · exact keeps_beginFragment hT hcb _ _ _ hs
  · exact keeps_appendFragment hT hcb _ _ _ hs
  · next hping => exact keeps_enqueueFrame hT.toBlocks.toFlushes hcb (hpong hping)
  · exact hT.takePong s
  · exact keeps_teardown hT.toBlocks hcb s not_live_disconnected

theorem keeps_dispatchFrame (hT : Dispatches P R) (hcb : Keeping R cb) (s : WsSession) (hdr : WsFrameHeader)
    (payload : List UInt8) (hs : P s.state) (hpong : R s (s.queueFrame .pong payload true).2) :
    R s (dispatchFrame cb s hdr payload) :=
  keeps_dispatchPing hT hcb s hdr payload hs fun _ => hpong

/-- A rule for `check_keepalive`, for a ping that is queued in the state in which the check is made. -/
theorem keeps_keepalive (hB : Blocks R) (hcb : Keeping R cb) (hturn : R s s.keepaliveTurn.2)
    (hping : ∀ s', s'.state = s.state → R s' (s'.queueFrame .ping [] true).2) (hpinged : ∀ s t, R s (pinged s t)) :
    R s (checkKeepalive cb s) := by
  have hstate : s.keepaliveTurn.2.state = s.state := by
    obtain ⟨clocks, log, h, -⟩ := s.keepaliveTurn_snd
    rw [h]
  unfold checkKeepalive
  split
  · next h =>
    rw [h] at hturn
    exact hturn
  · next h =>
    rw [h] at hturn
    exact hB.trans hturn (keeps_teardown hB hcb _ not_live_failed)
  · next t s₁ h =>
    rw [h] at hturn hstate
    exact hB.trans hturn (hB.trans (keeps_enqueueFrame hB.toFlushes hcb (hping s₁ hstate)) (hpinged _ t))

theorem keeps_checkKeepalive (hT : Takes R) (hcb : Keeping R cb) (s : WsSession) : R s (checkKeepalive cb s) :=
  keeps_keepalive hT.toBlocks hcb (hT.keepaliveTurn s) (fun s' _ => hT.queueFrame s' .ping [] true) hT.pinged

theorem keeps_checkTimeouts (hB : Blocks R) (hcb : Keeping R cb) (s : WsSession) : R s (checkTimeouts cb s) := by
  have hturn := hB.deadlinePassed s
  unfold checkTimeouts
  split
  · next h =>
    rw [h] at hturn
    exact hB.trans hturn (keeps_teardown hB hcb _ not_live_failed)
  · next h =>
    rw [h] at hturn
    exact hturn

end Flow

/-- **The rule for callbacks.** A preorder kept by every user call, given callbacks that keep
it, is kept by callbacks of any depth. -/
theorem keeping_callbacksOf {R : WsSession → WsSession → Prop} {allowed : Act → Bool} (hrefl : ∀ s, R s s)
    (htrans : ∀ {s s' s''}, R s s' → R s' s'' → R s s'')
    (hpop : ∀ s scripts, R s { s with env := { s.env with scripts := scripts } })
    (hact : ∀ depth, Keeping R (callbacksOf allowed depth) → ∀ s a, allowed a = true →
      R s (act (callbacksOf allowed depth) s a)) (depth : Nat) : Keeping R (callbacksOf allowed depth) := by
  induction depth with
  | zero => exact ⟨hrefl, hrefl⟩
  | succ depth ih =>
    have hfold (acts : List Act) (s : WsSession) :
        R s ((acts.filter allowed).foldl (act (callbacksOf allowed depth)) s) := by
      induction acts generalizing s with
      | nil => exact hrefl s
      | cons a rest ihrest =>
        by_cases ha : allowed a = true
        · rw [List.filter_cons_of_pos ha]
          exact htrans (hact depth ih s a ha) (ihrest _)
        · rw [List.filter_cons_of_neg ha]
          exact ihrest s
    have hscript (s : WsSession) : R s (scriptOf allowed (callbacksOf allowed depth) s) := by
      unfold scriptOf
      split
      · exact hrefl s
      · exact htrans (hpop s _) (hfold ..)
    exact ⟨hscript, hscript⟩

/-- Callbacks free to make any call. -/
theorem callbacksOf_all (depth : Nat) : callbacksOf (fun _ => true) depth = callbacks depth := by
  induction depth with
  | zero => rfl
  | succ depth ih =>
    have hscript : scriptOf (fun _ => true) (callbacks depth) = script (callbacks depth) := by
      funext s
      unfold scriptOf script
      cases s.env.scripts with
      | nil => rfl
      | cons acts rest =>
        dsimp only
        rw [List.filter_true]
    rw [callbacksOf, callbacks, ih, hscript]

theorem keeping_callbacks {R : WsSession → WsSession → Prop} (hrefl : ∀ s, R s s)
    (htrans : ∀ {s s' s''}, R s s' → R s' s'' → R s s'')
    (hpop : ∀ s scripts, R s { s with env := { s.env with scripts := scripts } })
    (hact : ∀ depth, Keeping R (callbacks depth) → ∀ s a, R s (act (callbacks depth) s a)) (depth : Nat) :
    Keeping R (callbacks depth) := by
  rw [← callbacksOf_all]
  refine keeping_callbacksOf hrefl htrans hpop (fun depth hcb s a _ => ?_) depth
  rw [callbacksOf_all] at hcb ⊢
  exact hact depth hcb s a

/-- What every step keeps: the log, the marks and the calls of the transport grow, the configuration stays, and no
user call starts an upgrade. -/
structure Basic (s s' : WsSession) : Prop where
  log : s.log <:+ s'.log
  marks : s.marks <:+ s'.marks
  wire : s.wire <:+ s'.wire
  cfg : s'.cfg = s.cfg
  settled : s'.state = .upgrading → s.state = .upgrading

theorem Basic.refl (s : WsSession) : Basic s s := ⟨List.suffix_rfl, List.suffix_rfl, List.suffix_rfl, rfl, id⟩

theorem Basic.enter {s₀ : WsSession} {st : WsState} (hlog : s₀.log <:+ s.log) (hmarks : s₀.marks <:+ s.marks)
    (hwire : s₀.wire <:+ s.wire) (hcfg : s.cfg = s₀.cfg) (hst : st ≠ .upgrading) : Basic s₀ (s.enter st) := by
  have hsettled : (s.enter st).state = .upgrading → s₀.state = .upgrading := fun h => absurd (s.enter_state st ▸ h) hst
  have hlog' := hlog.trans (s.enter_log st)
  obtain ⟨log, h, -⟩ := s.enter_eq st
  rw [h] at hsettled hlog' ⊢
  exact ⟨hlog', hmarks, hwire, hcfg, hsettled⟩

theorem basic_down (s : WsSession) {next : WsState} (hnext : ¬ next.Live) {s₀ : WsSession} (hlog : s₀.log <:+ s.log)
    (hmarks : s₀.marks <:+ s.marks) (hwire : s₀.wire <:+ s.wire) (hcfg : s.cfg = s₀.cfg) :
    Basic s₀ ((s.shutDown next).enter next) := by
  have hend := hmarks.trans (s.suffix_shutDown next)
  obtain ⟨clocks, t, h⟩ := s.shutDown_eq next
  rw [h]
  exact Basic.enter hlog hend (hwire.trans (List.suffix_cons _ _)) hcfg fun he => hnext (he ▸ by decide)

theorem takes_basic : Takes Basic :=
  Takes.of_frame Basic.refl
    (fun h h' => ⟨h.log.trans h'.log, h.marks.trans h'.marks, h.wire.trans h'.wire, h'.cfg.trans h.cfg,
      fun hs => h.settled (h'.settled hs)⟩)
    (fun h => ⟨h.suffix, h.marks, h.wire, h.cfg, fun hs => h.state ▸ hs⟩)
    (fun s _ hnext => basic_down s hnext List.suffix_rfl List.suffix_rfl List.suffix_rfl rfl)

theorem blocks_basic : Blocks Basic := takes_basic.toBlocks

/-- `register` adds the session to the loop, or finds it registered. -/
theorem keeps_register {R : WsSession → WsSession → Prop} (hrefl : ∀ s, R s s)
    (hadded : ∀ (s : WsSession) ok adds interest, R s { s with
      env := { s.env with adds := adds }, registered := ok, interest := interest, log := .added ok :: s.log })
    (s : WsSession) : R s s.register := by
  rcases s.register_eq with ⟨-, h⟩ | ⟨-, ok, adds, interest, h⟩
  · rw [h]
    exact hrefl s
  · rw [h]
    exact hadded s ok adds interest

theorem basic_register : ∀ s, Basic s s.register :=
  keeps_register Basic.refl fun s _ _ _ => { Basic.refl s with log := List.suffix_cons _ _ }

section Flow

variable {R Q : WsSession → WsSession → Prop}

/-- The steps of `start_connect`. -/
structure Dials (Q : WsSession → WsSession → Prop) : Prop where
  starved : ∀ {s s'}, s.tryDial = (.starved, s') → Q s (s'.enter .failed)
  refused : ∀ {s s'}, s.tryDial = (.refused, s') → Q s ((s'.shutDown .failed).enter .failed)
  dialed : ∀ {s s'}, s.tryDial = (.dialed, s') → Q s (s'.enter .connecting)
  register : ∀ s, Q s s.register

theorem Dials.mono (hQ : Above R Q) (hD : Dials R) : Dials Q where
  starved h := hQ.le (hD.starved h)
  refused h := hQ.le (hD.refused h)
  dialed h := hQ.le (hD.dialed h)
  register s := hQ.le (hD.register s)

/-- `start_connect` in parts: a session on its way is registered after the callback for Connecting. -/
structure Connects (R Q : WsSession → WsSession → Prop) : Prop where
  starved : ∀ {s s'}, s.tryDial = (.starved, s') → Q s (s'.enter .failed)
  refused : ∀ {s s'}, s.tryDial = (.refused, s') → Q s ((s'.shutDown .failed).enter .failed)
  dialed : ∀ {s s' s''}, s.tryDial = (.dialed, s') → R (s'.enter .connecting) s'' → Q s s''.register

theorem Dials.connects (hQ : Above R Q) (hD : Dials Q) : Connects R Q where
  starved := hD.starved
  refused := hD.refused
  dialed h hset := hQ.trans (hQ.trans (hD.dialed h) (hQ.le hset)) (hD.register _)

theorem Dials.lift (hQ : Above R Q) (hD : Dials R) : Connects R Q := (hD.mono hQ).connects hQ

theorem keeps_connecting (hQ : Above R Q) (hrefl : ∀ s, R s s) (hD : Connects R Q) (hcb : Keeping R cb) (s : WsSession) :
    Q s (startConnect cb s) := by
  unfold startConnect
  split
  · next h => exact keeps_setState hQ hcb (hD.starved h)
  · next h => exact keeps_setState hQ hcb (hD.refused h)
  · next s₁ h =>
    refine hD.dialed h ?_
    unfold setState
    split
    · next heq =>
      rw [enter, if_pos heq]
      exact hrefl s₁
    · exact hcb.onState _

theorem keeps_startConnect (hB : Blocks R) (hD : Dials R) (hcb : Keeping R cb) (s : WsSession) :
    R s (startConnect cb s) :=
  keeps_connecting hB.above hB.refl (hD.connects hB.above) hcb s

/-- The close frame is sent: it is queued, the queue is flushed, and the call is noted. -/
theorem keeps_sendClose (hF : Flushes R) (hcb : Keeping R cb) {code : UInt16}
    (hset : R s { s with autoReconnect := false, inClose := true })
    (hqueue : R { s with autoReconnect := false, inClose := true } (queueFrame
      { s with autoReconnect := false, inClose := true } .close [(code >>> 8).toUInt8, code.toUInt8] true).2)
    (hnote : ∀ s' inClose ok count calls,
      R s' { s' with inClose := inClose, log := .closing code ok count calls :: s'.log }) :
    R s (sendClose cb s code) := by
  have hsent := hF.trans hset (keeps_enqueueFrame hF hcb hqueue)
  exact hF.trans hsent (hnote _ _ _ _ _)

theorem keeps_close (hB : Blocks R) (hcb : Keeping R cb) (s : WsSession) (code : UInt16)
    (hauto : R s { s with autoReconnect := false })
    (hclose : s.state = .opened → R s ((sendClose cb s code).enter .closing)) : R s (close cb s code) := by
  unfold close
  split
  · next hopen => exact keeps_setState hB.above hcb (hclose hopen)
  · exact hB.trans hauto (keeps_teardown hB hcb _ not_live_disconnected)

end Flow

theorem dials_basic : Dials Basic where
  starved {s _} h := by
    obtain ⟨acquires, recv, hs⟩ := tryDial_starved h
    rw [hs]
    exact Basic.enter (List.suffix_cons _ _) s.suffix_tryDial List.suffix_rfl rfl nofun
  refused {s _} h := by
    obtain ⟨env, recv, deadline, -, hs⟩ := tryDial_refused h
    rw [hs]
    exact basic_down _ not_live_failed List.suffix_rfl s.suffix_tryDial (List.suffix_cons _ _) rfl
  dialed {s _} h := by
    obtain ⟨env, deadline, fd, -, hs⟩ := tryDial_dialed h
    rw [hs]
    exact Basic.enter (List.suffix_cons _ _) s.suffix_tryDial (List.suffix_cons _ _) rfl nofun
  register := basic_register

theorem basic_sendClose (hcb : Keeping Basic cb) (s : WsSession) (code : UInt16) :
    Basic s (sendClose cb s code) :=
  keeps_sendClose blocks_basic.toFlushes hcb { Basic.refl s with } (takes_basic.queueFrame ..)
    fun s _ _ _ _ => { Basic.refl s with log := List.suffix_cons _ _ }

theorem basic_act (hcb : Keeping Basic cb) (s : WsSession) (a : Act) : Basic s (act cb s a) := by
  cases a with
  | connect => exact keeps_startConnect blocks_basic dials_basic hcb s
  | send payload binary => exact keeps_send blocks_basic.toFlushes hcb s payload binary
  | close code =>
    apply keeps_close blocks_basic hcb s code { Basic.refl s with }
    intro _
    have hsend := basic_sendClose hcb s code
    exact Basic.enter hsend.log hsend.marks hsend.wire hsend.cfg nofun

/-- The steps of `on_ready` beside those of `Blocks` and those that poll the transport and read frames, for callbacks
that keep `R`. -/
structure Upgrades (R Q : WsSession → WsSession → Prop) : Prop extends Above R Q, Connects R Q where
  reconnectDue : ∀ s, ¬ s.state.Live → Q s s.reconnectDue.2
  request : ∀ {s s' s''}, s.state = .connecting → R (s.enter .upgrading) s' → s'.queueRequest = (true, s'') → Q s s''
  refuse : ∀ {s s' s''}, s.state = .connecting → R (s.enter .upgrading) s' → s'.queueRequest = (false, s'') →
    Q s ((s''.shutDown .failed).enter .failed)
  wait : ∀ {s s'}, s.state = .upgrading → s.readResponse = (.wait, s') → Q s s'
  reject : ∀ {s s'}, s.state = .upgrading → s.readResponse = (.reject, s') → Q s ((s'.shutDown .failed).enter .failed)
  opens : ∀ {s s' s''}, s.state = .upgrading → s.readResponse = (.accept, s') → R (s'.enter .opened) s'' →
    Q s s''.armPing
  parse : ∀ {cb}, Keeping R cb → Keeping Basic cb → ∀ s, s.state = .opened ∨ s.state = .closing →
    Q s (parseFrames cb s)
  resume : ∀ {cb}, Keeping R cb → Keeping Basic cb → ∀ s, let s' := (setState cb s .opened).armPing
    s'.state ≠ .upgrading → 0 < s'.recv.len → Q s' (parseFrames cb (s'.note (.resumed s'.state)))
  keepalive : ∀ {cb}, Keeping R cb → Keeping Basic cb → ∀ s, s.state = .opened ∨ s.state = .closing →
    Q (driveFrameRead cb s) (checkKeepalive cb (driveFrameRead cb s))

/-- A session that opens, in parts. -/
theorem Above.opens {R Q : WsSession → WsSession → Prop} (hQ : Above R Q)
    (haccept : ∀ {s s'}, s.state = .upgrading → s.readResponse = (.accept, s') → Q s (s'.enter .opened))
    (harm : ∀ s, Q s s.armPing) (hs : s.state = .upgrading) (h : s.readResponse = (.accept, s'))
    (hset : R (s'.enter .opened) s'') : Q s s''.armPing :=
  hQ.trans (hQ.trans (haccept hs h) (hQ.le hset)) (harm s'')

/-- A read of `drive_frame_read`, taken together with the end of the connection if it ends it. -/
structure ReadsFrames (Q : WsSession → WsSession → Prop) (s : WsSession) : Prop where
  read : ∀ {s' r}, s.readFrames = (r, s') → r = .wait ∨ r = .got → Q s s'
  ended : ∀ {s'}, s.readFrames = (.ended, s') → Q s ((s'.shutDown .disconnected).enter .disconnected)
  broken : ∀ {s'}, s.readFrames = (.broken, s') → Q s ((s'.shutDown .failed).enter .failed)

theorem ReadsFrames.of_turn {R Q : WsSession → WsSession → Prop} (hB : Blocks R) (hQ : Above R Q)
    (hread : Q s s.readFrames.2) : ReadsFrames Q s where
  read h _ := by rwa [h] at hread
  ended h := by
    rw [h] at hread
    exact hQ.trans hread (hQ.le (hB.down _ not_live_disconnected))
  broken h := by
    rw [h] at hread
    exact hQ.trans hread (hQ.le (hB.down _ not_live_failed))

/-- The steps of `on_ready`: an answer of the transport that ends the connection is taken together with the end. -/
structure Polls (R Q : WsSession → WsSession → Prop) : Prop extends Upgrades R Q where
  polled : ∀ {s s' ph}, s.transportPollOpen = (ph, s') → ph = .connecting ∨ ph = .opened → Q s s'
  unopened : ∀ {s s' ph}, s.transportPollOpen = (ph, s') → ph = .failed ∨ ph = .closed →
    Q s ((s'.shutDown .failed).enter .failed)
  reads : ∀ {s}, s.state = .opened ∨ s.state = .closing → ReadsFrames Q s

/-- The steps of `on_ready`, for a relation that takes the answers of the transport by themselves. -/
structure Drives (R Q : WsSession → WsSession → Prop) : Prop extends Upgrades R Q where
  pollOpen : ∀ s, Q s s.transportPollOpen.2
  readFrames : ∀ {s}, s.state = .opened ∨ s.state = .closing → Q s s.readFrames.2

theorem Drives.polls {R Q : WsSession → WsSession → Prop} (hB : Blocks R) (hD : Drives R Q) : Polls R Q where
  toUpgrades := hD.toUpgrades
  polled {s _ _} h _ := by
    have hpoll := hD.pollOpen s
    rwa [h] at hpoll
  unopened {s _ _} h _ := by
    have hpoll := hD.pollOpen s
    rw [h] at hpoll
    exact hD.trans hpoll (hD.le (hB.down _ not_live_failed))
  reads hs := ReadsFrames.of_turn hB hD.toAbove (hD.readFrames hs)

section Flow

variable {R Q : WsSession → WsSession → Prop}

/-- A rule for `parse_frames`, for a property `P` of the state that upgraded connections have: a frame is
dispatched, and its bytes are consumed. A Ping is answered with the payload it was found with. -/
theorem keeps_parsePings {P : WsState → Prop} (hsettled : ∀ st, P st → st ≠ .upgrading) (hup : ∀ st, st.Up → P st)
    (hT : Receives P R) (hQ : Above R Q)
    (hpong : ∀ (s : WsSession) (hdr : WsFrameHeader) (payload : List UInt8) (total : Nat), P s.state →
      s.nextFrame = .frame hdr payload total → hdr.opcode = .ping →
      R (s.countFrame hdr payload) ((s.countFrame hdr payload).queueFrame .pong payload true).2)
    (hconsume : ∀ s n, s.state ≠ .upgrading → Q s (s.consumeRecv n))
    (hcompact : ∀ s, s.state ≠ .upgrading → Q s s.compactRecv) (hcb : Keeping R cb) (hbasic : Keeping Basic cb)
    (s : WsSession) (hs : P s.state) : Q s (parseFrames cb s) := by
  have hloop (fuel : Nat) (s : WsSession) (hs : P s.state) : Q s (parseLoop cb fuel s) := by
    induction fuel generalizing s with
    | zero => exact hQ.le (hT.exhausted s _)
    | succ fuel ih =>
      rw [parseLoop]
      refine hQ.trans (hQ.le (hT.countHeader s)) ?_
      have hs₁ : P s.countHeader.state := hs
      generalize s.countHeader = s₁ at hs₁ ⊢
      dsimp only
      split
      · exact hcompact s₁ (hsettled _ hs₁)
      · exact hQ.le (keeps_teardown hT.toBlocks hcb s₁ not_live_failed)
      · next hdr payload total hnext =>
        have hcount := hT.countFrame s₁ hdr payload hs₁
        have hs₂ : P (s₁.countFrame hdr payload).state := hs₁
        have hping := hpong s₁ hdr payload total hs₁ hnext
        generalize s₁.countFrame hdr payload = s₂ at hcount hs₂ hping ⊢
        have hdispatch := hQ.le (hT.trans hcount (keeps_dispatchPing hT.toDispatches hcb s₂ hdr payload hs₂ hping))
        have hstill : (dispatchFrame cb s₂ hdr payload).state ≠ .upgrading := fun h =>
          hsettled _ hs₂ ((keeps_dispatchFrame takes_basic.toDispatches hbasic s₂ hdr payload trivial
            (takes_basic.queueFrame ..)).settled h)
        have hturn := hQ.trans hdispatch (hconsume _ total hstill)
        split
        · next hgo => exact hQ.trans hturn (ih _ (hup _ hgo))
        · exact hturn
  exact hloop _ s hs

theorem keeps_parseFrames {P : WsState → Prop} (hsettled : ∀ st, P st → st ≠ .upgrading) (hup : ∀ st, st.Up → P st)
    (hT : Receives P R) (hQ : Above R Q) (hpong : ∀ s payload, P s.state → R s (s.queueFrame .pong payload true).2)
    (hconsume : ∀ s n, s.state ≠ .upgrading → Q s (s.consumeRecv n))
    (hcompact : ∀ s, s.state ≠ .upgrading → Q s s.compactRecv) (hcb : Keeping R cb) (hbasic : Keeping Basic cb)
    (s : WsSession) (hs : P s.state) : Q s (parseFrames cb s) :=
  keeps_parsePings hsettled hup hT hQ (fun s hdr payload _ hs _ _ => hpong (s.countFrame hdr payload) payload hs) hconsume
    hcompact hcb hbasic s hs

theorem basic_parseFrames (hbasic : Keeping Basic cb) (s : WsSession) (hs : s.state ≠ .upgrading) :
    Basic s (parseFrames cb s) := by
  refine keeps_parseFrames (P := (· ≠ .upgrading)) (fun _ h => h) ?_ takes_basic.receives blocks_basic.above
    (fun s payload _ => takes_basic.queueFrame s .pong payload true) ?_ ?_ hbasic hbasic s hs
  · exact fun _ h => h.not_upgrading
  · exact fun s _ _ => { Basic.refl s with marks := List.suffix_cons _ _ }
  · intro s _
    obtain ⟨recv, faults, h⟩ := s.compactRecv_eq
    rw [h]
    exact { Basic.refl s with }

theorem Takes.parseFrames (hT : Takes R) (hQ : Above R Q) (hsilent : ∀ {s s'}, Silent s s' → Q s s') (hcb : Keeping R cb)
    (hbasic : Keeping Basic cb) (s : WsSession) (hs : s.state ≠ .upgrading) : Q s (parseFrames cb s) :=
  keeps_parseFrames (P := (· ≠ .upgrading)) (fun _ h => h) (fun _ h => h.not_upgrading) hT.receives hQ
    (fun s payload _ => hT.queueFrame s .pong payload true) (fun s _ _ => hsilent { Silent.refl s with })
    (fun s _ => hsilent s.silent_compactRecv) hcb hbasic s hs

/-- A relation that reads and time keeping keep. -/
theorem Drives.of_inward (hB : Blocks R) (hQ : Above R Q) (hC : Connects R Q)
    (hinward : ∀ {s s'}, Inward s s' → Q s s')
    (hrequest : ∀ {s s' s'' ok}, s.state = .connecting → R (s.enter .upgrading) s' → s'.queueRequest = (ok, s'') → Q s s'')
    (hopen : ∀ {s}, s.state = .upgrading → Q s (s.enter .opened))
    (hparse : ∀ {cb}, Keeping R cb → Keeping Basic cb → ∀ s, s.state ≠ .upgrading → Q s (parseFrames cb s))
    (hkeepalive : ∀ {cb}, Keeping R cb → ∀ s, Q s (checkKeepalive cb s)) : Drives R Q where
  toAbove := hQ
  toConnects := hC
  reconnectDue s _ := hinward s.silent_reconnectDue.toInward
  request := hrequest
  refuse hs hset h := hQ.trans (hrequest hs hset h) (hQ.le (hB.down _ not_live_failed))
  wait _ h := hinward (inward_readResponse h)
  reject _ h := hQ.trans (hinward (inward_readResponse h)) (hQ.le (hB.down _ not_live_failed))
  opens := hQ.opens
    (fun hs h => hQ.trans (hinward (inward_readResponse h)) (hopen ((inward_readResponse h).state.trans hs)))
    fun s => hinward s.silent_armPing.toInward
  parse hcb hbasic s hs := hparse hcb hbasic s (WsState.Up.not_upgrading hs)
  resume {cb} hcb hbasic s hs _ := by
    generalize (setState cb s .opened).armPing = s at hs ⊢
    exact hQ.trans (hinward (s.silent_note (e := .resumed s.state) trivial).toInward) (hparse hcb hbasic _ hs)
  keepalive hcb _ _ _ := hkeepalive hcb _
  pollOpen s := hinward s.inward_transportPollOpen
  readFrames {s} _ := hinward s.inward_readFrames

theorem Takes.drives (hT : Takes R) (hQ : Above R Q) (hC : Connects R Q) (hinward : ∀ {s s'}, Inward s s' → Q s s')
    (hrequest : ∀ {s s' s'' ok}, s.state = .connecting → R (s.enter .upgrading) s' → s'.queueRequest = (ok, s'') → Q s s'')
    (hopen : ∀ {s}, s.state = .upgrading → Q s (s.enter .opened)) : Drives R Q :=
  Drives.of_inward hT.toBlocks hQ hC hinward hrequest hopen (hT.parseFrames hQ fun h => hinward h.toInward)
    fun hcb s => hQ.le (keeps_checkKeepalive hT hcb s)

theorem keeps_sendUpgradeRequest (hB : Blocks R) (hD : Upgrades R Q) (hcb : Keeping R cb)
    (hs : s.state = .connecting) : Q s (sendUpgradeRequest cb s) := by
  have hset : R (s.enter .upgrading) (setState cb s .upgrading) :=
    keeps_setState hB.above hcb (hB.refl _)
  unfold sendUpgradeRequest
  split
  · next h => exact hD.trans (hD.request hs hset h) (hD.le (keeps_flushPending hB.toFlushes hcb _))
  · next h => exact keeps_setState hD.toAbove hcb (hD.refuse hs hset h)

theorem keeps_driveUpgradeRead (hB : Blocks R) (hD : Upgrades R Q) (hcb : Keeping R cb) (hbasic : Keeping Basic cb)
    (hs : s.state = .upgrading) : Q s (driveUpgradeRead cb s) := by
  unfold driveUpgradeRead
  split
  · next h => exact hD.wait hs h
  · next h => exact keeps_setState hD.toAbove hcb (hD.reject hs h)
  · next s₁ h =>
    have hset : R (s₁.enter .opened) (setState cb s₁ .opened) := keeps_setState hB.above hcb (hB.refl _)
    have hsettled : (setState cb s₁ .opened).state ≠ .upgrading := fun hup => by
      have hbase : Basic (s₁.enter .opened) (setState cb s₁ .opened) :=
        keeps_setState blocks_basic.above hbasic (blocks_basic.refl _)
      exact absurd ((s₁.enter_state .opened).symm.trans (hbase.settled hup)) nofun
    have harm := hD.opens hs h hset
    unfold parseRest
    split
    · next hlen =>
      refine hD.trans harm (hD.resume hcb hbasic _ ?_ hlen)
      obtain ⟨clocks, t, heq⟩ := (setState cb s₁ .opened).armPing_eq
      rw [heq]
      exact hsettled
    · exact harm

theorem keeps_driveFrameRead (hQ : Above R Q) (hcb : Keeping R cb)
    (hs : s.state = .opened ∨ s.state = .closing) (hreads : ReadsFrames Q s)
    (hparse : ∀ s, s.state = .opened ∨ s.state = .closing → Q s (parseFrames cb s)) : Q s (driveFrameRead cb s) := by
  have hstate : s.readFrames.2.state = .opened ∨ s.readFrames.2.state = .closing := by
    obtain ⟨reads, input, recv, wire, faults, h, -⟩ := s.readFrames_snd
    rw [h]
    exact hs
  unfold driveFrameRead
  split
  · next h => exact hreads.read h (Or.inl rfl)
  · next h => exact keeps_setState hQ hcb (hreads.ended h)
  · next h => exact keeps_setState hQ hcb (hreads.broken h)
  · next h =>
    rw [h] at hstate
    exact hQ.trans (hreads.read h (Or.inr rfl)) (hparse _ hstate)

theorem keeps_drive (hB : Blocks R) (hP : Polls R Q) (hcb : Keeping R cb) (hbasic : Keeping Basic cb) (s : WsSession) :
    Q s (drive cb s) := by
  unfold drive
  split
  · next h => exact keeps_driveUpgradeRead hB hP.toUpgrades hcb hbasic h
  · split
    · next h =>
      have hread := keeps_driveFrameRead hP.toAbove hcb h (hP.reads h) (hP.parse hcb hbasic)
      exact hP.trans hread (hP.keepalive hcb hbasic _ h)
    · exact hP.le (hB.refl _)

/-- A rule for what `on_ready` does after `check_timeouts`. -/
theorem keeps_checked (hB : Blocks R) (hP : Polls R Q) (hcb : Keeping R cb) (hbasic : Keeping Basic cb)
    (s : WsSession) : Q (checkTimeouts cb s) (onReady cb s) := by
  unfold onReady
  generalize checkTimeouts cb s = s₁
  dsimp only
  split
  · next hdead =>
    have hdue := hP.reconnectDue s₁ fun hlive => hdead.elim hlive.1 hlive.2
    unfold maybeReconnect
    split
    · next h =>
      rw [h] at hdue
      exact hP.trans hdue (keeps_connecting hP.toAbove hB.refl hP.toConnects hcb _)
    · next h =>
      rw [h] at hdue
      exact hdue
  · split
    · next hconn =>
      have hstate : s₁.transportPollOpen.2.state = .connecting := by
        obtain ⟨opens, h⟩ := s₁.transportPollOpen_snd
        rw [h]
        exact hconn
      split
      · next h => exact hP.polled h (Or.inl rfl)
      · next h =>
        rw [h] at hstate
        exact hP.trans (hP.polled h (Or.inr rfl)) (keeps_sendUpgradeRequest hB hP.toUpgrades hcb hstate)
      · next h => exact keeps_setState hP.toAbove hcb (hP.unopened h (Or.inl rfl))
      · next h => exact keeps_setState hP.toAbove hcb (hP.unopened h (Or.inr rfl))
    · exact hP.trans (hP.le (keeps_flushPending hB.toFlushes hcb s₁)) (keeps_drive hB hP hcb hbasic _)

/-- **The rule for `on_ready`.** -/
theorem keeps_onReady (hB : Blocks R) (hP : Polls R Q) (hcb : Keeping R cb) (hbasic : Keeping Basic cb)
    (s : WsSession) : Q s (onReady cb s) :=
  hP.trans (hP.le (keeps_checkTimeouts hB hcb s)) (keeps_checked hB hP hcb hbasic s)

end Flow

theorem basic_callbacksOf (allowed : Act → Bool) (depth : Nat) : Keeping Basic (callbacksOf allowed depth) :=
  keeping_callbacksOf blocks_basic.refl blocks_basic.trans
    (fun s _ => { Basic.refl s with }) (fun _ hcb s a _ => basic_act hcb s a) depth

theorem basic_callbacks (depth : Nat) : Keeping Basic (callbacks depth) :=
  callbacksOf_all depth ▸ basic_callbacksOf (fun _ => true) depth

section Flow

variable {R Q : WsSession → WsSession → Prop}

theorem keeps_callWith (hB : Blocks R) (hP : Polls R Q) (hcb : Keeping R cb) (hbasic : Keeping Basic cb)
    (henv : ∀ s env, Q s { s with env := env }) (hact : ∀ s a, Q s (act cb s a)) (s : WsSession) (c : Api × Env) :
    Q s (callWith cb s c) := by
  refine hP.trans (henv s c.2) ?_
  unfold callWith
  cases c.1 with
  | act a => exact hact _ a
  | onReady => exact keeps_onReady hB hP hcb hbasic _
  | checkTimeouts => exact hP.le (keeps_checkTimeouts hB hcb _)

/-- **The rule for runs.** -/
theorem keeps_polling (hB : Blocks R) (hP : Polls R Q) (hcb : Keeping R cb) (hbasic : Keeping Basic cb)
    (henv : ∀ s env, Q s { s with env := env }) (hact : ∀ s a, Q s (act cb s a)) (s : WsSession)
    (calls : List (Api × Env)) : Q s (runWith cb s calls) := by
  induction calls generalizing s with
  | nil => exact hP.le (hB.refl s)
  | cons c rest ih => exact hP.trans (keeps_callWith hB hP hcb hbasic henv hact s c) (ih _)

theorem keeps_runWith (hB : Blocks R) (hD : Drives R Q) (hcb : Keeping R cb) (hbasic : Keeping Basic cb)
    (henv : ∀ s env, Q s { s with env := env }) (hact : ∀ s a, Q s (act cb s a)) (s : WsSession)
    (calls : List (Api × Env)) : Q s (runWith cb s calls) :=
  keeps_polling hB (hD.polls hB) hcb hbasic henv hact s calls

theorem keeps_run {depth : Nat} (hB : Blocks R) (hD : Drives R Q) (hcb : Keeping R (callbacks depth))
    (henv : ∀ s env, Q s { s with env := env }) (hact : ∀ s a, Q s (act (callbacks depth) s a)) (s : WsSession)
    (calls : List (Api × Env)) : Q s (run depth s calls) :=
  keeps_runWith hB hD hcb (basic_callbacks depth) henv hact s calls

end Flow

end WsSession

end Lepton.Ws

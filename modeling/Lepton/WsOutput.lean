import Lepton.WsLink

/-! The byte stream of a connection. What the transport has accepted and what is left in the ring
are, put together, the upgrade request and the accepted frames in the order in which they were accepted. -/

namespace Lepton.Ws

variable {s s' s'' : WsSession} {cb : Callbacks}

/-- The unsent bytes of queued slots, of which the first may be sent in part. -/
def unsentOf : List Pending → List UInt8
  | [] => []
  | p :: rest => p.buf.bytes.drop p.sent ++ rest.flatMap (·.buf.bytes)

/-- The unsent bytes of the ring. -/
def WsSession.unsent (s : WsSession) : List UInt8 := unsentOf s.pending.toList

theorem unsentOf_whole {ps : List Pending} (h : ∀ p ∈ ps, p.sent = 0) : unsentOf ps = ps.flatMap (·.buf.bytes) := by
  cases ps with
  | nil => rfl
  | cons p rest => rw [unsentOf, h p List.mem_cons_self, List.drop_zero, List.flatMap_cons]

theorem unsentOf_append (ps : List Pending) (b : IoBuffer) : unsentOf (ps ++ [{ buf := b }]) = unsentOf ps ++ b.bytes := by
  cases ps with
  | nil => exact List.append_nil _
  | cons p rest =>
    rw [List.cons_append, unsentOf, unsentOf, List.flatMap_append, List.flatMap_singleton, List.append_assoc]

/-- The states of a connection that has been upgraded, or is dead. -/
def WsState.Late (st : WsState) : Prop := st ≠ .connecting ∧ st ≠ .upgrading

theorem WsState.Up.late {st : WsState} (h : st.Up) : st.Late := by
  rcases h with rfl | rfl
  · exact ⟨nofun, nofun⟩
  · exact ⟨nofun, nofun⟩

theorem WsState.Late.up {st : WsState} (h : st.Late) (hlive : st.Live) : st.Up := by
  cases st with
  | opened => exact Or.inl rfl
  | closing => exact Or.inr rfl
  | connecting => exact absurd rfl h.1
  | upgrading => exact absurd rfl h.2
  | disconnected | failed => exact absurd hlive (by decide)

theorem late_of_not_live {st : WsState} (h : ¬ st.Live) : st.Late :=
  ⟨fun hst => h (hst ▸ by decide), fun hst => h (hst ▸ by decide)⟩

/-- The calls that do not start a connection. -/
def Act.keepsOn : Act → Bool
  | .connect => false
  | .send _ _ | .close _ => true

/-- Every queued buffer is well formed. -/
def Stowed (s : WsSession) : Prop := ∀ p ∈ s.pending.toList, p.buf.Fits

theorem Stowed.of_eq (h : Stowed s) (hpending : s'.pending = s.pending) : Stowed s' := by
  unfold Stowed
  rw [hpending]
  exact h

theorem stowed_of_empty (h : s.pending.toList = []) : Stowed s := by
  unfold Stowed
  rw [h]
  exact nofun

theorem Stowed.push (h : Stowed s) {b : IoBuffer} (hb : b.Fits)
    (hpush : s.pending.push { buf := b } = some s'.pending) : Stowed s' := by
  intro p hp
  rw [Ring.toList_push hpush] at hp
  rcases List.mem_append.mp hp with hp | hp
  · exact h p hp
  · exact List.mem_singleton.mp hp ▸ hb

theorem Stowed.front (h : Stowed s) (hcount : s.pending.count ≠ 0) : s.pending.front.buf.Fits := by
  unfold Stowed at h
  rw [Ring.toList_eq_front_cons (Nat.pos_of_ne_zero hcount)] at h
  exact h _ List.mem_cons_self

theorem Stowed.pop (h : Stowed s) (hcount : s.pending.count ≠ 0) (hpop : s'.pending = s.pending.pop) :
    Stowed s' := by
  unfold Stowed at h ⊢
  rw [Ring.toList_eq_front_cons (Nat.pos_of_ne_zero hcount)] at h
  rw [hpop]
  exact fun p hp => h p (List.mem_cons_of_mem _ hp)

theorem Stowed.setFront (h : Stowed s) (hcount : s.pending.count ≠ 0) {sent : Nat}
    (hset : s'.pending = s.pending.setFront { s.pending.front with sent := sent }) : Stowed s' := by
  have hfront := h.front hcount
  unfold Stowed at h ⊢
  rw [Ring.toList_eq_front_cons (Nat.pos_of_ne_zero hcount)] at h
  rw [hset, Ring.toList_setFront (Nat.pos_of_ne_zero hcount)]
  intro p hp
  rcases List.mem_cons.mp hp with rfl | hp
  · exact hfront
  · exact h p (List.mem_cons_of_mem _ hp)

/-- The connection is on its way or up, and its transport has not been closed. -/
def WsSession.Joined (s : WsSession) : Prop := s.linked = true ∧ s.state.Live

/-- The message of a frame, and whether it is a binary one. A control frame carries none. -/
def messageOf (opcode : WsOpcode) (payload : List UInt8) : Option (List UInt8 × Bool) :=
  if opcode = .text then some (payload, false) else if opcode = .binary then some (payload, true) else none

def Frame.message (f : Frame) : Option (List UInt8 × Bool) := messageOf f.opcode f.payload

/-- The slots of the ring are in order, the stream is the request followed by the frames, and these carry what `send`
has been given. A young connection has accepted no frame, and one that is not yet open has nothing to send. -/
structure InOrder (s : WsSession) : Prop where
  stowed : Stowed s
  whole : ∀ p ∈ s.pending.toList.tail, p.sent = 0
  stream : s.Joined → s.output ++ s.unsent = s.request ++ s.frames.flatMap Frame.encode
  told : s.Joined → s.frames.filterMap Frame.message = s.said
  young : s.Joined → ¬ s.state.Up → s.frames = []
  idle : s.Joined → s.state = .connecting → s.request = [] ∧ s.pending.count = 0

/-- The upgrade request of a connection that has left Connecting has been queued. -/
def Asked (s : WsSession) : Prop :=
  s.Joined → s.state ≠ .connecting → buildWsUpgrade s.cfg.cap s.cfg.host s.cfg.path s.cfg.secKey = some s.request

/-- What happens to a connection other than its start and its request: while its transport is open its
state stays or moves from Open to Closing, and what is in order stays in order. -/
structure Orders (s s' : WsSession) : Prop where
  cfg : s'.cfg = s.cfg
  request : s'.request = s.request
  late : s.state.Late → s'.state.Late
  stays : s'.linked = true → s.linked = true ∧ (s'.state = s.state ∨ s.state.Up ∧ s'.state.Up)
  idle : s'.linked = true → s'.state = .upgrading → s.pending.count = 0 → s'.pending.count = 0
  order : InOrder s → InOrder s'

theorem Orders.refl (s : WsSession) : Orders s s := ⟨rfl, rfl, id, fun h => ⟨h, Or.inl rfl⟩, fun _ _ h => h, id⟩

theorem Orders.trans (h : Orders s s') (h' : Orders s' s'') : Orders s s'' := by
  refine ⟨h'.cfg.trans h.cfg, h'.request.trans h.request, fun hs => h'.late (h.late hs), fun hlinked => ?_,
    fun hlinked hup hcount => ?_, fun hs => h'.order (h.order hs)⟩
  · obtain ⟨hlinked', hstate'⟩ := h'.stays hlinked
    obtain ⟨hlinked, hstate⟩ := h.stays hlinked'
    refine ⟨hlinked, ?_⟩
    rcases hstate' with heq' | ⟨hup, hup'⟩
    · exact heq'.symm ▸ hstate
    · rcases hstate with heq | ⟨hs, -⟩
      · exact Or.inr ⟨heq ▸ hup, hup'⟩
      · exact Or.inr ⟨hs, hup'⟩
  · obtain ⟨hlinked', heq | ⟨-, hup'⟩⟩ := h'.stays hlinked
    · exact h'.idle hlinked hup (h.idle hlinked' (heq ▸ hup) hcount)
    · exact absurd (hup ▸ hup') (by decide)

theorem Orders.of_order (hcfg : s'.cfg = s.cfg) (hrequest : s'.request = s.request)
    (hlinked : s'.linked = s.linked) (hstate : s'.state = s.state)
    (hidle : s.state = .upgrading → s.pending.count = 0 → s'.pending.count = 0) (horder : InOrder s → InOrder s') :
    Orders s s' :=
  ⟨hcfg, hrequest, fun h => hstate ▸ h, fun h => ⟨hlinked ▸ h, Or.inl hstate⟩, fun _ hup => hidle (hstate ▸ hup), horder⟩

/-- A step that leaves all that counts here alone. -/
theorem Orders.same (hcfg : s'.cfg = s.cfg) (hrequest : s'.request = s.request)
    (hlinked : s'.linked = s.linked) (hstate : s'.state = s.state) (hpending : s'.pending = s.pending)
    (houtput : s'.output = s.output) (hframes : s'.frames = s.frames) (hsaid : s'.said = s.said) : Orders s s' := by
  refine Orders.of_order hcfg hrequest hlinked hstate (fun _ h => hpending ▸ h) fun hs => ?_
  have hjoined : s'.Joined = s.Joined := by rw [WsSession.Joined, WsSession.Joined, hlinked, hstate]
  refine ⟨hs.stowed.of_eq hpending, hpending ▸ hs.whole, fun h => ?_, fun h => ?_, fun h => ?_, fun h hc => ?_⟩
  · rw [WsSession.unsent, houtput, hpending, hrequest, hframes]
    exact hs.stream (hjoined ▸ h)
  · rw [hframes, hsaid]
    exact hs.told (hjoined ▸ h)
  · rw [hstate, hframes]
    exact hs.young (hjoined ▸ h)
  · rw [hrequest, hpending]
    exact hs.idle (hjoined ▸ h) (hstate ▸ hc)

theorem Orders.of_inward (h : WsSession.Inward s s') : Orders s s' :=
  Orders.same h.cfg h.request h.linked h.state h.pending h.output h.frames h.said

namespace WsSession

theorem inOrder_dead (hempty : s.pending.toList = []) (hdead : ¬ s.Joined) : InOrder s :=
  ⟨stowed_of_empty hempty, hempty ▸ nofun, fun h => absurd h hdead, fun h => absurd h hdead, fun h => absurd h hdead,
    fun h => absurd h hdead⟩

theorem orders_down {s₀ : WsSession} (hcfg : s.cfg = s₀.cfg) (hrequest : s.request = s₀.request)
    {next : WsState} (hnext : ¬ next.Live) : Orders s₀ ((s.shutDown next).enter next) := by
  obtain ⟨clocks, t, hdown⟩ := s.shutDown_eq next
  obtain ⟨log, h, -⟩ := (s.shutDown next).enter_eq next
  rw [h, hdown]
  refine ⟨hcfg, hrequest, fun _ => late_of_not_live hnext, nofun, nofun, fun _ => inOrder_dead (Ring.toList_drain _) ?_⟩
  exact fun hjoined => absurd hjoined.1 nofun

theorem orders_wrote {src : List UInt8} {r : WriteResult} {writes : List WriteResult}
    (h : taken src r = []) : Orders s (s.wrote src r writes) :=
  Orders.same rfl rfl rfl rfl rfl (by rw [wrote, h, List.append_nil]) rfl rfl

/-- The slot in front is sent, and the next one is whole. -/
theorem orders_pop (hcount : s.pending.count ≠ 0) {n : Nat} {writes : List WriteResult}
    (hall : s.pending.front.buf.len ≤ s.pending.front.sent + n) :
    Orders s { s.wrote s.unsentFront (.accepted n) writes with
      pending := s.pending.pop, marks := s.pending.front.buf.released.map .pool ++ s.marks } := by
  have hlist := Ring.toList_eq_front_cons (Nat.pos_of_ne_zero hcount)
  refine Orders.of_order rfl rfl rfl rfl (fun _ hzero => absurd hzero hcount) fun hs => ?_
  have hwhole := hs.whole
  rw [hlist] at hwhole
  have hpop : unsentOf s.pending.pop.toList = s.pending.pop.toList.flatMap (·.buf.bytes) := unsentOf_whole hwhole
  have hsent : (s.unsentFront).take n = s.unsentFront := by
    apply List.take_of_length_le
    rw [unsentFront, List.length_drop, (hs.stowed.front hcount).length_bytes]
    omega
  refine ⟨hs.stowed.pop hcount rfl, fun p hp => hwhole p (List.mem_of_mem_tail hp), fun h => ?_, hs.told,
    hs.young, fun h hc => absurd (hs.idle h hc).2 hcount⟩
  have hstream := hs.stream h
  rw [unsent, hlist, unsentOf] at hstream
  change (s.output ++ s.unsentFront.take n) ++ unsentOf s.pending.pop.toList = _
  rw [hsent, hpop, List.append_assoc]
  exact hstream

/-- The slot in front is sent in part. -/
theorem orders_setFront (hcount : s.pending.count ≠ 0) {n : Nat} {writes : List WriteResult} :
    Orders s { s.wrote s.unsentFront (.accepted n) writes with
      pending := s.pending.setFront { s.pending.front with sent := s.pending.front.sent + n } } := by
  have hpos := Nat.pos_of_ne_zero hcount
  have hlist := Ring.toList_eq_front_cons hpos
  have hset := Ring.toList_setFront hpos { s.pending.front with sent := s.pending.front.sent + n }
  refine Orders.of_order rfl rfl rfl rfl (fun _ hzero => absurd hzero hcount) fun hs => ?_
  have hwhole := hs.whole
  rw [hlist] at hwhole
  refine ⟨hs.stowed.setFront hcount rfl, hset ▸ hwhole, fun h => ?_, hs.told, hs.young,
    fun h hc => absurd (hs.idle h hc).2 hcount⟩
  have hstream := hs.stream h
  rw [unsent, hlist, unsentOf] at hstream
  have hdrop : s.pending.front.buf.bytes.drop (s.pending.front.sent + n) = s.unsentFront.drop n :=
    List.drop_drop.symm
  change (s.output ++ s.unsentFront.take n) ++ unsentOf (s.pending.setFront _).toList
    = s.request ++ s.frames.flatMap Frame.encode
  rw [hset]
  change (s.output ++ s.unsentFront.take n) ++ (s.pending.front.buf.bytes.drop (s.pending.front.sent + n) ++ _) = _
  rw [hdrop, List.append_assoc, ← List.append_assoc (s.unsentFront.take n), List.take_append_drop]
  exact hstream

theorem orders_flushTurn {turn : FlushTurn} (h : s.flushTurn = (turn, s')) : Orders s s' := by
  rcases flushTurn_cases h with ⟨-, -, rfl⟩ | ⟨hcount, r, writes, h⟩
  · exact Orders.same rfl rfl rfl rfl rfl rfl rfl rfl
  · rcases h with ⟨rfl, -, rfl⟩ | ⟨rfl, -, rfl⟩ | ⟨n, rfl, hall, -, rfl⟩ | ⟨n, rfl, -, -, rfl⟩
    · exact orders_wrote rfl
    · exact orders_wrote rfl
    · exact orders_pop hcount hall
    · exact orders_setFront hcount

/-- The bytes queued for a frame are its encoding. -/
theorem bytes_frameBuffer {id cap : Nat} (hcap : cap < 2 ^ 63) (hmin : 64 ≤ cap) (opcode : WsOpcode) {payload : List UInt8}
    (key : UInt32) (fin : Bool)
    (hroom : payload.length ≤ (IoBuffer.blank id cap (wsClientHeaderSize payload.length)).tailroom) :
    let f : Ws.Frame := { opcode := opcode, payload := payload, key := keyBytes key, fin := fin }
    let b := frameBuffer (IoBuffer.blank id cap (wsClientHeaderSize payload.length)) f
    b.Fits ∧ b.bytes = f.encode := by
  have hhead : wsClientHeaderSize payload.length ≤ cap := by
    have := wsClientHeaderSize_le payload.length
    omega
  have hblank : (IoBuffer.blank id cap (wsClientHeaderSize payload.length)).Fits := IoBuffer.fits_blank hhead hcap
  obtain ⟨hfits, hbytes⟩ := hblank.append hroom
  rw [IoBuffer.bytes_blank, List.nil_append] at hbytes
  obtain ⟨hfits', hbytes'⟩ := hfits.rewrite (f := maskBytes (keyBytes key) 0) (length_maskBytes ..)
  have hlen : (wsEncodeClientHeader (wsClientHeaderSize payload.length) opcode payload.length (keyBytes key) fin).length
      = wsClientHeaderSize payload.length := length_wsEncodeClientHeader (Nat.le_refl _) (length_keyBytes key)
  obtain ⟨hfits'', hbytes''⟩ := hfits'.prepend (Nat.le_of_eq hlen)
  refine ⟨hfits'', ?_⟩
  rw [hbytes', hbytes] at hbytes''
  exact hbytes''

/-- A slot is added to the ring. -/
theorem inOrder_push (hs : InOrder s) {b : IoBuffer} (hb : b.Fits)
    (hpush : s.pending.push { buf := b } = some s'.pending) (hconn : s'.Joined → s'.state ≠ .connecting)
    (hstream : s'.Joined → s'.output ++ (s.unsent ++ b.bytes) = s'.request ++ s'.frames.flatMap Frame.encode)
    (htold : s'.Joined → s'.frames.filterMap Frame.message = s'.said)
    (hyoung : s'.Joined → ¬ s'.state.Up → s'.frames = []) : InOrder s' := by
  have hlist := Ring.toList_push hpush
  refine ⟨hs.stowed.push hb hpush, fun p hp => ?_, fun h => ?_, htold, hyoung, fun h hc => absurd hc (hconn h)⟩
  · rw [hlist] at hp
    cases hps : s.pending.toList with
    | nil =>
      rw [hps] at hp
      cases hp
    | cons q rest =>
      have hwhole := hs.whole
      rw [hps] at hp hwhole
      rcases List.mem_append.mp hp with hp | hp
      · exact hwhole p hp
      · exact List.mem_singleton.mp hp ▸ rfl
  · rw [unsent, hlist, unsentOf_append]
    exact hstream h

theorem orders_refused {opcode : WsOpcode} {payload : List UInt8} {fin : Bool} {status : SendStatus}
    (hqueue : s.queueFrame opcode payload fin = (status, s')) (hrefused : status ≠ .ok) : Orders s s' := by
  obtain ⟨acquires, gen, faults, ⟨-, rfl⟩ | ⟨hok, -⟩⟩ := queueFrame_cases hqueue
  · exact Orders.same rfl rfl rfl rfl rfl rfl rfl rfl
  · exact absurd hok hrefused

/-- A frame is accepted; the message that it carries has been recorded. -/
theorem orders_accepted {said : List (List UInt8 × Bool)} {opcode : WsOpcode} {payload : List UInt8}
    {fin : Bool} (hqueue : { s with said := said }.queueFrame opcode payload fin = (.ok, s')) (hlate : s.state.Late)
    (hsaid : said = s.said ++ (messageOf opcode payload).toList) : Orders s s' := by
  obtain ⟨acquires, gen, faults, ⟨hrefused, -⟩ | ⟨-, id, key, ring, hroom, hpush, rfl⟩⟩ := queueFrame_cases hqueue
  · exact absurd rfl hrefused
  refine Orders.of_order rfl rfl rfl rfl (fun hup => absurd hup hlate.2) fun hs => ?_
  obtain ⟨hfits, hbytes⟩ := bytes_frameBuffer s.cfg.cap_lt s.cfg.cap_ge opcode key fin hroom
  refine inOrder_push hs hfits hpush (fun _ => hlate.1) (fun h => ?_) (fun h => ?_) fun h hup => ?_
  · have hstream := hs.stream h
    rw [List.flatMap_append, List.flatMap_singleton, ← List.append_assoc, ← List.append_assoc]
    exact congrArg₂ _ hstream hbytes
  · change (s.frames ++ [_]).filterMap Frame.message = said
    rw [List.filterMap_append, hs.told h, hsaid, List.filterMap_eq_flatMap_toList _ [_], List.flatMap_singleton]
    rfl
  · exact absurd (hlate.up h.2) hup

/-- A control frame is accepted, or nothing happens to the ring. -/
theorem orders_queueFrame {opcode : WsOpcode} (payload : List UInt8) (fin : Bool)
    (hcontrol : opcode.isControl = true) (hlate : s.state.Late) : Orders s (s.queueFrame opcode payload fin).2 := by
  obtain ⟨status, s', hqueue⟩ : ∃ status s', s.queueFrame opcode payload fin = (status, s') := ⟨_, _, rfl⟩
  have hnone : messageOf opcode payload = none := by cases opcode <;> first | rfl | cases hcontrol
  rw [hqueue]
  by_cases hok : status = .ok
  · subst hok
    have hsame : { s with said := s.said }.queueFrame opcode payload fin = (.ok, s') := hqueue
    exact orders_accepted hsame hlate (by rw [hnone, Option.toList_none, List.append_nil])
  · exact orders_refused hqueue hok

/-- A message is recorded and accepted, or nothing happens to the ring. -/
theorem orders_queueSend (s : WsSession) (payload : List UInt8) (binary : Bool) (hopen : s.state = .opened) :
    Orders s (s.queueSend payload binary) := by
  obtain ⟨status, s', hqueue⟩ : ∃ status s',
    (s.recorded payload binary).queueFrame (messageOpcode binary) payload true = (status, s') := ⟨_, _, rfl⟩
  have hmessage : messageOf (messageOpcode binary) payload = some (payload, binary) := by cases binary <;> rfl
  rw [queueSend, hqueue]
  unfold recorded at hqueue
  split at hqueue
  · next hok =>
    rw [← queueFrame_tells, hqueue] at hok
    subst hok
    exact orders_accepted hqueue (hopen ▸ ⟨nofun, nofun⟩) (by rw [hmessage]; rfl)
  · next hrefused =>
    rw [hqueue] at hrefused
    exact orders_refused hqueue hrefused

theorem blocks_orders : Blocks Orders where
  refl := Orders.refl
  trans := Orders.trans
  down _ _ := orders_down rfl rfl
  flushTurn h _ := orders_flushTurn h
  flushFatal h := (orders_flushTurn h).trans (orders_down rfl rfl not_live_failed)
  flushFinished h := (orders_flushTurn h).trans (orders_down rfl rfl not_live_disconnected)
  queueSend := orders_queueSend
  deadlinePassed s := .of_inward s.silent_deadlinePassed.toInward

/-- `close` of an open session: while the transport is open, so was the session when its frame was sent. -/
theorem orders_close (hcb : Keeping Orders cb) (s : WsSession) (code : UInt16) :
    Orders s (close cb s code) := by
  apply keeps_close blocks_orders hcb s code (.of_inward { Silent.refl s with })
  intro hopen
  have hsend : Orders s (sendClose cb s code) :=
    keeps_sendClose blocks_orders.toFlushes hcb (.of_inward { Silent.refl s with })
      (orders_queueFrame _ true rfl (WsState.Up.late (Or.inl hopen)))
      fun _ _ _ _ _ => Orders.same rfl rfl rfl rfl rfl rfl rfl rfl
  obtain ⟨log, h, -⟩ := (sendClose cb s code).enter_eq .closing
  rw [h]
  have hup (hlinked : (sendClose cb s code).linked = true) : (sendClose cb s code).state.Up := by
    obtain ⟨-, heq | ⟨-, hup⟩⟩ := hsend.stays hlinked
    · exact Or.inl (heq.trans hopen)
    · exact hup
  refine ⟨hsend.cfg, hsend.request, fun _ => ⟨nofun, nofun⟩,
    fun hlinked => ⟨(hsend.stays hlinked).1, Or.inr ⟨Or.inl hopen, Or.inr rfl⟩⟩, fun _ => nofun, fun hs => ?_⟩
  have hsent := hsend.order hs
  have hjoined (hlinked : (sendClose cb s code).linked = true) : (sendClose cb s code).Joined :=
    ⟨hlinked, (hup hlinked).live⟩
  exact ⟨hsent.stowed, hsent.whole, fun hj => hsent.stream (hjoined hj.1), fun hj => hsent.told (hjoined hj.1),
    fun _ hearly => absurd (Or.inr rfl) hearly, fun _ => nofun⟩

theorem orders_act (hcb : Keeping Orders cb) (s : WsSession) {a : Act} (ha : a.keepsOn = true) :
    Orders s (act cb s a) := by
  cases a with
  | connect => cases ha
  | send payload binary => exact keeps_send blocks_orders.toFlushes hcb s payload binary
  | close code => exact orders_close hcb s code

theorem orders_callbacksOf (depth : Nat) : Keeping Orders (callbacksOf Act.keepsOn depth) :=
  keeping_callbacksOf Orders.refl Orders.trans (fun s _ => .of_inward { Silent.refl s with })
    (fun _ hcb s _ ha => orders_act hcb s ha) depth

/-- Received frames are answered on a connection that is up, or on a dead one. -/
theorem orders_parseFrames (hcb : Keeping Orders cb) (hbasic : Keeping Basic cb) (s : WsSession)
    (hs : s.state.Late) : Orders s (parseFrames cb s) :=
  keeps_parseFrames (P := WsState.Late) (fun _ h => h.2) (fun _ h => h.late)
    (Receives.of_silent blocks_orders fun h => .of_inward h.toInward) blocks_orders.above
    (fun _ payload hs => orders_queueFrame payload true rfl hs) (fun s _ _ => .of_inward { Silent.refl s with })
    (fun s _ => .of_inward s.silent_compactRecv.toInward) hcb hbasic s hs

theorem orders_driveFrameRead (hcb : Keeping Orders cb) (hbasic : Keeping Basic cb) (s : WsSession)
    (hs : s.state.Up) : Orders s (driveFrameRead cb s) := by
  have hread := ReadsFrames.of_turn blocks_orders blocks_orders.above (.of_inward s.inward_readFrames)
  exact keeps_driveFrameRead blocks_orders.above hcb hs hread fun s hs => orders_parseFrames hcb hbasic s (WsState.Up.late hs)

theorem orders_checkKeepalive (hcb : Keeping Orders cb) (hs : s.state.Late) :
    Orders s (checkKeepalive cb s) :=
  keeps_keepalive blocks_orders hcb (.of_inward s.silent_keepaliveTurn.toInward)
    (fun _ hstate => orders_queueFrame [] true rfl (hstate ▸ hs)) fun s _ => .of_inward { Silent.refl s with }

end WsSession

/-- `s'` is in order and has asked for its upgrade if `s` is and has. -/
def Sends (s s' : WsSession) : Prop := InOrder s ∧ Asked s → InOrder s' ∧ Asked s'

theorem Sends.trans (h : Sends s s') (h' : Sends s' s'') : Sends s s'' := fun hs => h' (h hs)

theorem Orders.sends (h : Orders s s') : Sends s s' := by
  refine fun ⟨horder, hasked⟩ => ⟨h.order horder, fun hjoined hconn => ?_⟩
  obtain ⟨hlinked, hstate⟩ := h.stays hjoined.1
  rw [h.cfg, h.request]
  rcases hstate with heq | ⟨hup, -⟩
  · exact hasked ⟨hlinked, heq ▸ hjoined.2⟩ (heq ▸ hconn)
  · exact hasked ⟨hlinked, hup.live⟩ hup.late.1

namespace WsSession

theorem sends_dead (hempty : s'.pending.toList = []) (hdead : ¬ s'.Joined) : Sends s s' :=
  fun _ => ⟨inOrder_dead hempty hdead, fun h => absurd h hdead⟩

theorem sends_down (s₀ s : WsSession) (next : WsState) : Sends s₀ ((s.shutDown next).enter next) := by
  obtain ⟨clocks, t, hdown⟩ := s.shutDown_eq next
  obtain ⟨log, h, -⟩ := (s.shutDown next).enter_eq next
  rw [h, hdown]
  exact sends_dead (Ring.toList_drain _) fun hjoined => absurd hjoined.1 nofun

theorem dials_sends : Dials Sends where
  starved {s s'} h := by
    obtain ⟨acquires, recv, hs⟩ := tryDial_starved h
    obtain ⟨log, heq, -⟩ := s'.enter_eq .failed
    rw [heq, hs]
    exact sends_dead (Ring.toList_drain _) fun hjoined => absurd hjoined.2 not_live_failed
  refused _ := sends_down _ _ _
  dialed {s s'} h := by
    obtain ⟨env, deadline, fd, -, hs⟩ := tryDial_dialed h
    obtain ⟨log, heq, -⟩ := s'.enter_eq .connecting
    have hempty := Ring.toList_drain s.pending
    rw [heq, hs]
    refine fun _ => ⟨⟨stowed_of_empty hempty, hempty ▸ nofun, fun _ => ?_, fun _ => rfl, fun _ _ => rfl,
      fun _ _ => ⟨rfl, Ring.count_drain _⟩⟩, fun _ hconn => absurd rfl hconn⟩
    rw [unsent, hempty]
    rfl
  register := keeps_register (fun _ => id) fun _ _ _ _ => Orders.sends (Orders.same rfl rfl rfl rfl rfl rfl rfl rfl)

/-- The upgrade request comes first. -/
theorem sends_request (hs : s.state = .connecting) (hset : Orders (s.enter .upgrading) s')
    (hrequest : s'.queueRequest = (true, s'')) : Sends s s'' := by
  intro ⟨horder, _⟩
  obtain ⟨log, henter, -⟩ := s.enter_eq .upgrading
  rw [henter] at hset
  have hjoined (hlinked : s.linked = true) : s.Joined := ⟨hlinked, hs ▸ by decide⟩
  have horder' := hset.order ⟨horder.stowed, horder.whole, fun h => horder.stream (hjoined h.1),
    fun h => horder.told (hjoined h.1), fun h _ => horder.young (hjoined h.1) (hs ▸ by decide), fun _ => nofun⟩
  have hstate (hlinked : s'.linked = true) : s'.state = .upgrading :=
    (hset.stays hlinked).2.resolve_right fun h => (by decide : ¬ WsState.upgrading.Up) h.1
  have hidle (hlinked : s'.linked = true) : s'.request = [] ∧ s'.pending.count = 0 := by
    obtain ⟨hempty, hcount⟩ := horder.idle (hjoined (hset.stays hlinked).1) hs
    exact ⟨hset.request.trans hempty, hset.idle hlinked (hstate hlinked) hcount⟩
  have hcfg : s'.cfg = s.cfg := hset.cfg
  obtain ⟨acquires, faults, ⟨rfl, hfull⟩ | ⟨-, id, text, ring, htext, hpush, rfl⟩⟩ := queueRequest_cases hrequest
  · have hdead (hlinked : s'.linked = true) : False := by
      have hfull' := (hidle hlinked).2.symm.trans (hfull rfl)
      exact absurd hfull' (by decide)
    refine ⟨Orders.order (s := s') ?_ horder', fun h => absurd h.1 hdead⟩
    exact Orders.same rfl rfl rfl rfl rfl rfl rfl rfl
  · have hblank : (IoBuffer.blank id s'.cfg.cap 0).Fits := IoBuffer.fits_blank (Nat.zero_le _) s'.cfg.cap_lt
    have hcap : (IoBuffer.blank id s'.cfg.cap 0).tailroom = s'.cfg.cap := hblank.tailroom_eq
    obtain ⟨hfits, hbytes⟩ := hblank.append (length_buildWsUpgrade htext)
    rw [IoBuffer.bytes_blank, List.nil_append] at hbytes
    rw [hcap] at htext
    refine ⟨inOrder_push horder' hfits hpush (fun h => ?_) (fun h => ?_) horder'.told fun h hup => ?_, fun _ _ => htext⟩
    · exact fun hc => absurd ((hstate h.1).symm.trans hc) nofun
    · have hnot : ¬ s'.state.Up := hstate h.1 ▸ by decide
      have hstream := horder'.stream h
      have hframes := horder'.young h hnot
      rw [(hidle h.1).1, hframes] at hstream
      change s'.output ++ (s'.unsent ++ _) = text ++ s'.frames.flatMap Frame.encode
      rw [← List.append_assoc, hstream, hbytes, hframes]
      exact (List.append_nil text).symm
    · exact horder'.young h hup

theorem above_sends : Above Orders Sends := ⟨Orders.sends, Sends.trans⟩

theorem drives_sends : Drives Orders Sends where
  toAbove := above_sends
  toConnects := dials_sends.connects above_sends
  reconnectDue s _ := (Orders.of_inward s.silent_reconnectDue.toInward).sends
  pollOpen s := (Orders.of_inward s.inward_transportPollOpen).sends
  request := sends_request
  refuse _ _ _ := sends_down _ _ _
  wait _ h := (Orders.of_inward (inward_readResponse h)).sends
  reject _ _ := sends_down _ _ _
  opens := above_sends.opens
    (fun {s s'} hs h => by
      have hread := inward_readResponse h
      have hstate : s'.state = .upgrading := hread.state.trans hs
      refine (Orders.of_inward hread).sends.trans fun ⟨horder, hasked⟩ => ?_
      obtain ⟨log, henter, -⟩ := s'.enter_eq .opened
      rw [henter]
      have hjoined (hlinked : s'.linked = true) : s'.Joined := ⟨hlinked, hstate ▸ by decide⟩
      refine ⟨⟨horder.stowed, horder.whole, fun hj => horder.stream (hjoined hj.1), fun hj => horder.told (hjoined hj.1),
        fun _ hup => ?_, fun _ => nofun⟩, fun hj _ => ?_⟩
      · exact absurd (Or.inl rfl) hup
      · exact hasked (hjoined hj.1) (hstate ▸ nofun))
    fun s => (Orders.of_inward s.silent_armPing.toInward).sends
  readFrames {s} _ := (Orders.of_inward s.inward_readFrames).sends
  parse hcb hbasic s hs := (orders_parseFrames hcb hbasic s (WsState.Up.late hs)).sends
  resume {cb} hcb hbasic s _ _ := by
    have hset : Orders (s.enter .opened) (setState cb s .opened) :=
      keeps_setState blocks_orders.above hcb (Orders.refl _)
    have hopen : (s.enter .opened).state.Late := WsState.Up.late (Or.inl (s.enter_state .opened))
    have hlate := (hset.trans (.of_inward (silent_armPing _).toInward)).late hopen
    generalize (setState cb s .opened).armPing = s' at hlate ⊢
    have hevent : Orders s' (s'.note (.resumed s'.state)) := Orders.same rfl rfl rfl rfl rfl rfl rfl rfl
    exact (hevent.trans (orders_parseFrames hcb hbasic _ hlate)).sends
  keepalive hcb hbasic s hs :=
    (orders_checkKeepalive hcb ((orders_driveFrameRead hcb hbasic s hs).late (WsState.Up.late hs))).sends

theorem sends_run (depth : Nat) (s : WsSession) (calls : List (Api × Env)) :
    Sends s (runWith (callbacksOf Act.keepsOn depth) s calls) := by
  have hcb := orders_callbacksOf depth
  refine keeps_runWith blocks_orders drives_sends hcb (basic_callbacksOf Act.keepsOn depth) (fun s env => ?_) (fun s a => ?_)
    s calls
  · exact Orders.sends (.of_inward { Silent.refl s with })
  · cases a with
    | connect => exact keeps_connecting drives_sends.toAbove blocks_orders.refl drives_sends.toConnects hcb s
    | send payload binary => exact (keeps_send blocks_orders.toFlushes hcb s payload binary).sends
    | close code => exact (orders_close hcb s code).sends

end WsSession

/-- **The output is a queue.** In every run whose callbacks call `send` and `close` only: on a connection that
is alive, what the transport has accepted followed by what is unsent in the ring is what has been queued,
in order, and nothing else: the upgrade request, once it is built, and the frames accepted since. The messages in these
are those given to the calls of `send` that returned Ok, in the order of the calls. -/
theorem output_in_order (cfg : Config) (seed : UInt64) (autoReconnect : Bool) (depth : Nat) (calls : List (Api × Env)) :
    let s := WsSession.runWith (WsSession.callbacksOf Act.keepsOn depth) (fresh cfg seed autoReconnect) calls
    s.linked = true → s.state.Live →
      s.output ++ s.unsent = s.request ++ s.frames.flatMap Frame.encode ∧
      s.frames.filterMap Frame.message = s.said ∧
      (s.state = .connecting → s.request = [] ∧ s.frames = []) ∧
      (s.state ≠ .connecting → buildWsUpgrade s.cfg.cap s.cfg.host s.cfg.path s.cfg.secKey = some s.request) := by
  intro s hlinked hlive
  have hdead : ¬ (fresh cfg seed autoReconnect).Joined := fun h => absurd h.1 nofun
  have ⟨horder, hasked⟩ := WsSession.sends_run depth _ calls ⟨WsSession.inOrder_dead rfl hdead, fun h => absurd h hdead⟩
  have hjoined : s.Joined := ⟨hlinked, hlive⟩
  refine ⟨horder.stream hjoined, horder.told hjoined, fun hconn => ?_, hasked hjoined⟩
  exact ⟨(horder.idle hjoined hconn).1, horder.young hjoined (hconn ▸ by decide)⟩

/-- A frame that is sent in part when the session is closed. -/
theorem pieces_in_order :
    let calls := opening ++ [(.act (.send [0x41, 0x42] false), { writes := [.accepted 3] }),
      (.act (.close 1000), { writes := [.accepted 1] })]
    let s := WsSession.runWith (WsSession.callbacksOf Act.keepsOn 1) (fresh plainConfig 1 false) calls
    s.linked = true ∧ s.state.Live ∧ s.output ++ s.unsent = s.request ++ s.frames.flatMap Frame.encode ∧
      s.frames.filterMap Frame.message = [([0x41, 0x42], false)] := by
  intro calls s
  have hlive : s.linked = true ∧ s.state.Live ∧ s.said = [([0x41, 0x42], false)] := by decide +kernel
  obtain ⟨hstream, htold, -⟩ := output_in_order plainConfig 1 false 1 _ hlive.1 hlive.2.1
  exact ⟨hlive.1, hlive.2.1, hstream, htold.trans hlive.2.2⟩

/-- In the callback for Upgrading, before the request is built, the session is driven to Open and a frame is sent. -/
def earlyFrame : List (Api × Env) :=
  [(.act .connect, { connects := [some 7] }),
   (.onReady, { opens := [.opened], reads := [.data (Http.ascii "HTTP/1.1 101 Switching Protocols\r\n\r\n")],
                writes := [.accepted 256, .accepted 256], reentries := [[.onReady, .act (.send [0x41] false)]] })]

/-- The frame is written ahead of the request. -/
theorem earlyFrame_not_in_order :
    let s := WsSession.runWith (WsSession.reentrant 1) (fresh plainConfig 1 false) earlyFrame
    s.linked = true ∧ s.state.Live ∧ s.unsent = [] ∧ s.frames.length = 1 ∧
      s.output = s.frames.flatMap Frame.encode ++ s.request ∧
      s.output ++ s.unsent ≠ s.request ++ s.frames.flatMap Frame.encode := by
  decide +kernel

end Lepton.Ws

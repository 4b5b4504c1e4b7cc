import Lepton.Backlog
import Lepton.HttpOutput
import Lepton.WsKeepalive
import Lepton.WsServer

/-! Writes that the transport has not taken whole. OpenSSL wants a write that it has pushed back to be made again with
the same bytes, and a byte stream has no use for anything else: what the client writes next on the connection is the rest
of what it wrote last. -/

namespace Lepton

/-- The transport is connected after these calls, the latest first. -/
def joined : List StreamCall → Bool
  | [] => false
  | .connect ok :: _ => ok
  | .close :: _ => false
  | .pollOpen _ :: before | .read _ _ :: before | .write _ _ :: before => joined before

/-- What a write leaves to be written. -/
def leftOver (src : List UInt8) : WriteResult → List UInt8
  | .accepted n => src.drop n
  | .again => src
  | .error => []

/-- The bytes of the connection's last write that the transport has not taken. -/
def owed : List StreamCall → List UInt8
  | [] => []
  | .connect _ :: _ | .close :: _ => []
  | .write src answer :: before => if joined before = true then leftOver src answer else []
  | .pollOpen _ :: before | .read _ _ :: before => owed before

/-- No write is empty, and each goes on with what is owed. -/
def Persistent (calls : List StreamCall) : Prop :=
  ∀ src answer before, .write src answer :: before <:+ calls → src ≠ [] ∧ (owed before = [] ∨ src = owed before)

theorem owed_of_not_joined {calls : List StreamCall} (h : joined calls = false) : owed calls = [] := by
  induction calls with
  | nil => rfl
  | cons c before ih =>
    cases c with
    | connect ok => rfl
    | close => rfl
    | pollOpen ph => exact ih h
    | read room answer => exact ih h
    | write src answer =>
      change joined before = false at h
      simp [owed, h]

theorem persistent_nil : Persistent [] := fun _ _ _ h => absurd (List.suffix_nil.mp h) nofun

/-- A call that is not a write. -/
theorem Persistent.cons {c : StreamCall} {calls : List StreamCall} (h : Persistent calls)
    (hc : ∀ src answer, c ≠ .write src answer) : Persistent (c :: calls) := by
  intro src answer before hsuffix
  rcases List.suffix_cons_iff.mp hsuffix with heq | hsuffix
  · injection heq with hcall
    exact absurd hcall.symm (hc src answer)
  · exact h src answer before hsuffix

theorem Persistent.write {calls : List StreamCall} (h : Persistent calls) {src : List UInt8} (hsrc : src ≠ [])
    (howed : owed calls = [] ∨ src = owed calls) (answer : WriteResult) : Persistent (.write src answer :: calls) := by
  intro src' answer' before hsuffix
  rcases List.suffix_cons_iff.mp hsuffix with heq | hsuffix
  · cases heq
    exact ⟨hsrc, howed⟩
  · exact h src' answer' before hsuffix

/-- A call other than a write leaves what is owed, or ends the connection. -/
theorem owed_cons {c : StreamCall} {calls : List StreamCall} (hc : ∀ src answer, c ≠ .write src answer) :
    owed (c :: calls) = [] ∨ owed (c :: calls) = owed calls := by
  cases c with
  | connect ok => exact Or.inl rfl
  | close => exact Or.inl rfl
  | pollOpen ph => exact Or.inr rfl
  | read room answer => exact Or.inr rfl
  | write src answer => exact absurd rfl (hc src answer)

namespace Ws

/-- No connect has run out of buffers over a connected transport. -/
def Fed (s : WsSession) : Prop := .starved true ∉ s.log

instance : DecidablePred Fed := fun s => inferInstanceAs (Decidable (.starved true ∉ s.log))

/-- Something of every slot is unsent, and what is owed is the unsent part of the first. -/
structure Resumable (s : WsSession) : Prop where
  persistent : Persistent s.wire
  linked : joined s.wire = s.linked
  slots : ∀ p ∈ s.pending.toList, p.buf.Fits ∧ p.sent < p.buf.len
  kept : owed s.wire = [] ∨ s.pending.count ≠ 0 ∧ s.unsentFront = owed s.wire

/-- `s'` continues `s`, and a session that was fed can still resume its writes. -/
structure Resumes (s s' : WsSession) : Prop where
  log : s.log <:+ s'.log
  resumable : Fed s' → Resumable s → Resumable s'

theorem Resumes.refl (s : WsSession) : Resumes s s := ⟨List.suffix_rfl, fun _ h => h⟩

theorem Resumes.trans {s s' s'' : WsSession} (h : Resumes s s') (h' : Resumes s' s'') : Resumes s s'' :=
  ⟨h.log.trans h'.log, fun hfed hs => h'.resumable hfed (h.resumable (fun he => hfed (h'.log.subset he)) hs)⟩

/-- A step that makes no call and leaves the ring alone. -/
theorem Resumes.same {s s' : WsSession} (hlog : s.log <:+ s'.log) (hwire : s'.wire = s.wire)
    (hlinked : s'.linked = s.linked) (hpending : s'.pending = s.pending) : Resumes s s' := by
  refine ⟨hlog, fun _ hs => ⟨hwire ▸ hs.persistent, ?_, hpending ▸ hs.slots, ?_⟩⟩
  · rw [hwire, hlinked]
    exact hs.linked
  · rw [hwire, WsSession.unsentFront, hpending]
    exact hs.kept

theorem Resumes.of_silent {s s' : WsSession} (h : WsSession.Silent s s') : Resumes s s' :=
  Resumes.same h.suffix h.wire h.linked h.pending

/-- A step that makes a call other than connect, write and close. -/
theorem Resumes.heard {s s' : WsSession} {c : StreamCall} (hlog : s.log <:+ s'.log) (hwire : s'.wire = c :: s.wire)
    (hc : (∃ ph, c = .pollOpen ph) ∨ ∃ room r, c = .read room r) (hlinked : s'.linked = s.linked)
    (hpending : s'.pending = s.pending) : Resumes s s' := by
  have hquiet : (∀ src answer, c ≠ .write src answer) ∧ joined s'.wire = joined s.wire ∧ owed s'.wire = owed s.wire := by
    rw [hwire]
    rcases hc with ⟨ph, rfl⟩ | ⟨room, r, rfl⟩
    · exact ⟨nofun, rfl, rfl⟩
    · exact ⟨nofun, rfl, rfl⟩
  obtain ⟨hwrite, hjoined, howed⟩ := hquiet
  refine ⟨hlog, fun _ hs => ⟨hwire ▸ hs.persistent.cons hwrite, ?_, hpending ▸ hs.slots, ?_⟩⟩
  · rw [hjoined, hlinked]
    exact hs.linked
  · rw [howed, WsSession.unsentFront, hpending]
    exact hs.kept

namespace WsSession

variable {s s' : WsSession} {cb : Callbacks}

theorem Resumes.enter {s₀ : WsSession} (h : Resumes s₀ s) (st : WsState) : Resumes s₀ (s.enter st) := by
  have hlog := s.enter_log st
  obtain ⟨log, heq, -⟩ := s.enter_eq st
  rw [heq] at hlog ⊢
  exact h.trans (Resumes.same hlog rfl rfl rfl)

/-- What is left of the slot in front. -/
theorem unsentFront_ne_nil (hs : Resumable s) (hcount : s.pending.count ≠ 0) :
    s.pending.front.buf.Fits ∧ s.unsentFront ≠ [] := by
  have hslots := hs.slots
  rw [Ring.toList_eq_front_cons (Nat.pos_of_ne_zero hcount)] at hslots
  obtain ⟨hfits, hsent⟩ := hslots _ List.mem_cons_self
  refine ⟨hfits, fun hnil => ?_⟩
  rw [unsentFront, List.drop_eq_nil_iff, hfits.length_bytes] at hnil
  omega

/-- A connection ends: nothing is owed. The calls before are those of `s₀` and at most one more. -/
theorem resumes_down {s₀ : WsSession} (hlog : s₀.log <:+ s.log) (hwires : Resumable s₀ → Persistent s.wire)
    (next : WsState) : Resumes s₀ ((s.shutDown next).enter next) := by
  refine Resumes.enter ?_ next
  obtain ⟨clocks, t, hdown⟩ := s.shutDown_eq next
  rw [hdown]
  refine ⟨hlog, fun _ hs => ⟨(hwires hs).cons nofun, rfl, ?_, Or.inl rfl⟩⟩
  change ∀ p ∈ s.pending.drain.toList, _
  rw [Ring.toList_drain]
  exact nofun

/-- The call of a turn of the flush goes on with what is owed. -/
theorem persistent_flushTurn {turn : FlushTurn} (h : s.flushTurn = (turn, s')) (hs : Resumable s) :
    Persistent s'.wire := by
  have hwrite (hcount : s.pending.count ≠ 0) (r : WriteResult) : Persistent (.write s.unsentFront r :: s.wire) :=
    hs.persistent.write (unsentFront_ne_nil hs hcount).2 (hs.kept.imp id And.right) r
  rcases flushTurn_cases h with ⟨-, -, rfl⟩ | ⟨hcount, r, writes, h⟩
  · exact hs.persistent
  · rcases h with ⟨-, -, rfl⟩ | ⟨-, -, rfl⟩ | ⟨n, -, -, -, rfl⟩ | ⟨n, -, -, -, rfl⟩
    · exact hwrite hcount r
    · exact hwrite hcount r
    · exact hwrite hcount r
    · exact hwrite hcount r

/-- A write that leaves in front what the transport has not taken. -/
theorem kept_write {src : List UInt8} {r : WriteResult} {before : List StreamCall} (hcount : s.pending.count ≠ 0)
    (hwire : s.wire = .write src r :: before) (hleft : s.unsentFront = leftOver src r) :
    owed s.wire = [] ∨ s.pending.count ≠ 0 ∧ s.unsentFront = owed s.wire := by
  rw [hwire, owed]
  split
  · exact Or.inr ⟨hcount, hleft⟩
  · exact Or.inl rfl

theorem resumes_flushTurn {turn : FlushTurn} (h : s.flushTurn = (turn, s')) : Resumes s s' := by
  have hlog : s.log <:+ s'.log := by
    have hquiet := s.frame_flushTurn.suffix
    rwa [h] at hquiet
  refine ⟨hlog, fun _ hs => ?_⟩
  have hpersistent := persistent_flushTurn h hs
  have howed (r : WriteResult) (hleft : leftOver s.unsentFront r = []) : owed (.write s.unsentFront r :: s.wire) = [] := by
    rw [owed, hleft, ite_self]
  rcases flushTurn_cases h with ⟨-, -, rfl⟩ | ⟨hcount, r, writes, h⟩
  · exact ⟨hs.persistent, hs.linked, hs.slots, hs.kept⟩
  · have hpos := Nat.pos_of_ne_zero hcount
    have hfits := (unsentFront_ne_nil hs hcount).1
    have hslots := hs.slots
    rw [Ring.toList_eq_front_cons hpos] at hslots
    rcases h with ⟨rfl, -, rfl⟩ | ⟨rfl, -, rfl⟩ | ⟨n, rfl, hall, -, rfl⟩ | ⟨n, rfl, hpart, -, rfl⟩
    · -- pushed back: the slot stays as it is
      exact ⟨hpersistent, hs.linked, hs.slots, kept_write hcount rfl rfl⟩
    · exact ⟨hpersistent, hs.linked, hs.slots, Or.inl (howed .error rfl)⟩
    · refine ⟨hpersistent, hs.linked, fun p hp => hslots p (List.mem_cons_of_mem _ hp), Or.inl (howed _ ?_)⟩
      rw [leftOver, List.drop_eq_nil_iff, unsentFront, List.length_drop, hfits.length_bytes]
      omega
    · refine ⟨hpersistent, hs.linked, fun p hp => ?_, ?_⟩
      · change p ∈ (s.pending.setFront _).toList at hp
        rw [Ring.toList_setFront hpos] at hp
        rcases List.mem_cons.mp hp with rfl | hp
        · exact ⟨hfits, hpart⟩
        · exact hslots p (List.mem_cons_of_mem _ hp)
      · refine kept_write hcount rfl ?_
        have hfront := s.pending.front_setFront { s.pending.front with sent := s.pending.front.sent + n }
        exact (congrArg (fun p => p.buf.bytes.drop p.sent) hfront).trans List.drop_drop.symm

/-- A slot is added behind the others. -/
theorem resumable_push (hs : Resumable s) {b : IoBuffer} (hb : b.Fits) (hlen : b.bytes ≠ []) (hwire : s'.wire = s.wire)
    (hlinked : s'.linked = s.linked) (hpush : s.pending.push { buf := b } = some s'.pending) : Resumable s' := by
  have hlist := Ring.toList_push hpush
  have hcount := Ring.count_push hpush
  refine ⟨hwire ▸ hs.persistent, by rw [hwire, hlinked, hs.linked], fun p hp => ?_, ?_⟩
  · rw [hlist] at hp
    rcases List.mem_append.mp hp with hold | hnew
    · exact hs.slots p hold
    · rw [List.mem_singleton.mp hnew]
      refine ⟨hb, Nat.pos_of_ne_zero fun hzero => hlen ?_⟩
      exact List.eq_nil_of_length_eq_zero (hb.length_bytes.trans hzero)
  · rw [hwire]
    refine hs.kept.imp id fun ⟨hpos, hfront⟩ => ⟨by omega, ?_⟩
    rw [Ring.toList_eq_front_cons (Nat.pos_of_ne_zero hpos), Ring.toList_eq_front_cons (by omega)] at hlist
    injection hlist with hsame
    rw [unsentFront, hsame]
    exact hfront

theorem resumes_queueFrame (s : WsSession) (opcode : WsOpcode) (payload : List UInt8) (fin : Bool) :
    Resumes s (s.queueFrame opcode payload fin).2 := by
  obtain ⟨status, s', hqueue⟩ : ∃ status s', s.queueFrame opcode payload fin = (status, s') := ⟨_, _, rfl⟩
  rw [hqueue]
  obtain ⟨acquires, gen, faults, ⟨-, rfl⟩ | ⟨-, id, key, ring, hroom, hpush, rfl⟩⟩ := queueFrame_cases hqueue
  · exact Resumes.same (List.suffix_cons _ _) rfl rfl rfl
  · refine ⟨List.suffix_cons _ _, fun _ hs => ?_⟩
    obtain ⟨hfits, hbytes⟩ := bytes_frameBuffer s.cfg.cap_lt s.cfg.cap_ge opcode key fin hroom
    refine resumable_push hs hfits ?_ rfl rfl hpush
    rw [hbytes, Frame.encode, wsEncodeClientHeader, if_neg (Nat.lt_irrefl _)]
    exact List.cons_ne_nil _ _

theorem blocks_resumes : Blocks Resumes where
  refl := Resumes.refl
  trans := Resumes.trans
  down _ _ _ := resumes_down List.suffix_rfl Resumable.persistent _
  flushTurn h _ := resumes_flushTurn h
  flushFatal h := resumes_down (resumes_flushTurn h).log (persistent_flushTurn h) _
  flushFinished h := resumes_down (resumes_flushTurn h).log (persistent_flushTurn h) _
  queueSend := keeps_queueSend Resumes.trans (fun _ _ _ => Resumes.same List.suffix_rfl rfl rfl rfl)
    fun s opcode payload fin _ _ => s.resumes_queueFrame opcode payload fin
  deadlinePassed s := .of_silent s.silent_deadlinePassed

theorem takes_resumes : Takes Resumes := Takes.of_silent blocks_resumes Resumes.of_silent resumes_queueFrame

theorem dials_resumes : Dials Resumes where
  starved {s s'} h := by
    obtain ⟨acquires, recv, heq⟩ := tryDial_starved h
    refine Resumes.enter ?_ _
    rw [heq]
    refine ⟨List.suffix_cons _ _, fun hfed hs => ⟨hs.persistent, hs.linked, ?_, ?_⟩⟩
    · change ∀ p ∈ s.pending.drain.toList, _
      rw [Ring.toList_drain]
      exact nofun
    · -- the ring is drained, and the transport is not connected
      have hlinked : s.linked = false := by
        cases hl : s.linked with
        | false => rfl
        | true => exact absurd (hl ▸ List.mem_cons_self) hfed
      exact Or.inl (owed_of_not_joined (hs.linked.trans hlinked))
  refused {s s'} h := by
    obtain ⟨env, recv, deadline, -, heq⟩ := tryDial_refused h
    have hwire : s'.wire = .connect false :: s.wire := by rw [heq]
    have hlog : s'.log = s.log := by rw [heq]; rfl
    exact resumes_down (hlog ▸ List.suffix_rfl) (fun hs => hwire ▸ hs.persistent.cons fun _ _ => nofun) _
  dialed {s s'} h := by
    obtain ⟨env, deadline, fd, -, heq⟩ := tryDial_dialed h
    refine Resumes.enter ?_ _
    rw [heq]
    refine ⟨List.suffix_cons _ _, fun _ hs => ⟨hs.persistent.cons fun _ _ => nofun, rfl, ?_, Or.inl rfl⟩⟩
    change ∀ p ∈ s.pending.drain.toList, _
    rw [Ring.toList_drain]
    exact nofun
  register := keeps_register Resumes.refl fun _ _ _ _ => Resumes.same (List.suffix_cons _ _) rfl rfl rfl

theorem resumes_act (hcb : Keeping Resumes cb) (s : WsSession) (a : Act) : Resumes s (act cb s a) := by
  cases a with
  | connect => exact keeps_startConnect blocks_resumes dials_resumes hcb s
  | send payload binary => exact keeps_send blocks_resumes.toFlushes hcb s payload binary
  | close code =>
    have hsame : Resumes s { s with autoReconnect := false, inClose := true } := Resumes.same List.suffix_rfl rfl rfl rfl
    apply keeps_close blocks_resumes hcb s code (Resumes.same List.suffix_rfl rfl rfl rfl)
    intro _
    have hsend : Resumes s (sendClose cb s code) :=
      keeps_sendClose blocks_resumes.toFlushes hcb hsame (resumes_queueFrame _ .close _ true)
        fun _ _ _ _ _ => Resumes.same (List.suffix_cons _ _) rfl rfl rfl
    exact Resumes.enter hsend .closing

theorem resumes_callbacks (depth : Nat) : Keeping Resumes (callbacks depth) :=
  keeping_callbacks Resumes.refl Resumes.trans (fun _ _ => Resumes.same List.suffix_rfl rfl rfl rfl)
    (fun _ hcb => resumes_act hcb) depth

theorem resumes_parseFrames (hcb : Keeping Resumes cb) (hbasic : Keeping Basic cb) (s : WsSession)
    (hs : s.state ≠ .upgrading) : Resumes s (parseFrames cb s) :=
  takes_resumes.parseFrames blocks_resumes.above Resumes.of_silent hcb hbasic s hs

theorem resumes_request {s'' : WsSession} {ok : Bool} (hset : Resumes (s.enter .upgrading) s')
    (h : s'.queueRequest = (ok, s'')) : Resumes s s'' := by
  refine (Resumes.enter (Resumes.refl s) .upgrading).trans (hset.trans ?_)
  obtain ⟨acquires, faults, ⟨rfl, -⟩ | ⟨-, id, text, ring, htext, hpush, rfl⟩⟩ := queueRequest_cases h
  · exact Resumes.same (List.suffix_cons _ _) rfl rfl rfl
  · refine ⟨List.suffix_cons _ _, fun _ hs => ?_⟩
    have hblank : (IoBuffer.blank id s'.cfg.cap 0).Fits := IoBuffer.fits_blank (Nat.zero_le _) s'.cfg.cap_lt
    obtain ⟨hfits, hbytes⟩ := hblank.append (length_buildWsUpgrade htext)
    refine resumable_push hs hfits ?_ rfl rfl hpush
    rw [hbytes, buildWsUpgrade_lines htext]
    exact List.append_ne_nil_of_right_ne_nil _ (List.append_ne_nil_of_right_ne_nil _ nofun)

theorem resumes_readResponse {v : Verdict} (h : s.readResponse = (v, s')) : Resumes s s' := by
  have hlog := (readResponse_fields h).1
  obtain ⟨reads, input, recv, wire, faults, log, rfl, hwire, -⟩ := readResponse_snd h
  rcases hwire with hwire | ⟨r, hwire⟩
  · exact Resumes.same hlog hwire rfl rfl
  · exact Resumes.heard hlog hwire (Or.inr ⟨_, r, rfl⟩) rfl rfl

theorem drives_resumes : Drives Resumes Resumes where
  toAbove := blocks_resumes.above
  toConnects := dials_resumes.connects blocks_resumes.above
  reconnectDue s _ := .of_silent s.silent_reconnectDue
  pollOpen s := by
    obtain ⟨opens, h⟩ := s.transportPollOpen_snd
    rw [h]
    exact Resumes.heard List.suffix_rfl rfl (Or.inl ⟨_, rfl⟩) rfl rfl
  request _ hset h := resumes_request hset h
  refuse _ hset h := (resumes_request hset h).trans (blocks_resumes.down _ not_live_failed)
  wait _ h := resumes_readResponse h
  reject _ h := (resumes_readResponse h).trans (blocks_resumes.down _ not_live_failed)
  opens := blocks_resumes.above.opens (fun _ h => Resumes.enter (resumes_readResponse h) .opened)
    fun s => .of_silent s.silent_armPing
  readFrames {s} _ := by
    obtain ⟨reads, input, recv, wire, faults, h, hwire⟩ := s.readFrames_snd
    rw [h]
    rcases hwire with hwire | ⟨r, hwire⟩
    · exact Resumes.same List.suffix_rfl hwire rfl rfl
    · exact Resumes.heard List.suffix_rfl hwire (Or.inr ⟨_, r, rfl⟩) rfl rfl
  parse hcb hbasic s hs := resumes_parseFrames hcb hbasic s (WsState.Up.not_upgrading hs)
  resume {cb} hcb hbasic s hs _ := by
    generalize (setState cb s .opened).armPing = s at hs ⊢
    have hnote : Resumes s (s.note (.resumed s.state)) := .of_silent (s.silent_note trivial)
    exact hnote.trans (resumes_parseFrames hcb hbasic _ hs)
  keepalive hcb _ _ _ := keeps_checkKeepalive takes_resumes hcb _

theorem persistent_run (cfg : Config) (seed : UInt64) (autoReconnect : Bool) (depth : Nat) (calls : List (Api × Env))
    (hfed : Fed (run depth (fresh cfg seed autoReconnect) calls)) :
    Persistent (run depth (fresh cfg seed autoReconnect) calls).wire := by
  have hrun := keeps_run blocks_resumes drives_resumes (resumes_callbacks depth)
    (fun _ _ => Resumes.same List.suffix_rfl rfl rfl rfl) (resumes_act (resumes_callbacks depth))
    (fresh cfg seed autoReconnect) calls
  exact (hrun.resumable hfed ⟨persistent_nil, rfl, nofun, Or.inl rfl⟩).persistent

end WsSession

end Ws

namespace Http

namespace HttpClient

variable {s s' : HttpClient}

/-- What callbacks do to the calls of a client that accepts no request: they write nothing. -/
def Mute (s s' : HttpClient) : Prop :=
  (Persistent s.wire → Persistent s'.wire) ∧ (owed s.wire = [] → owed s'.wire = [])

/-- Callbacks that end the connection at most. -/
def Hushed (s s' : HttpClient) : Prop := Withheld s → Parked s s' ∧ Mute s s'

theorem Mute.trans {s'' : HttpClient} (h : Mute s s') (h' : Mute s' s'') : Mute s s'' :=
  ⟨fun hs => h'.1 (h.1 hs), fun hs => h'.2 (h.2 hs)⟩

theorem mute_call {c : StreamCall} (hwire : s'.wire = c :: s.wire) (hc : ∀ src answer, c ≠ .write src answer) :
    Mute s s' := by
  refine ⟨fun h => hwire ▸ h.cons hc, fun h => ?_⟩
  rw [hwire]
  exact (owed_cons hc).elim id fun heq => heq.trans h

theorem mute_shutDown (s : HttpClient) : Mute s s.shutDown := mute_call (c := .close) rfl fun _ _ => nofun

theorem mute_refused {s₁ : HttpClient} (h : s.tryDial = (false, s₁)) : Mute s s₁ := by
  obtain ⟨env, send, recv, deadline, armed, fd, linked, wire, interest, pool, heq, -, hwire⟩ := tryDial_false h
  rcases hwire with rfl | rfl
  · rw [heq]
    exact ⟨id, id⟩
  · exact mute_call (c := .connect false) (by rw [heq]) fun _ _ => nofun

theorem aside_hushed : Aside Hushed where
  refl s hs := ⟨aside_parked.refl s hs, id, id⟩
  trans h h' hs :=
    have hfirst := h hs
    have hsecond := h' (hfirst.1.withheld hs)
    ⟨hfirst.1.trans hsecond.1, hfirst.2.trans hsecond.2⟩
  idle hidle hs := absurd hidle hs.1
  refused h h' hs :=
    have hrest := h' (gone_refused h).withheld
    ⟨aside_parked.refused h (fun _ => hrest.1) hs, (mute_refused h).trans ((mute_shutDown _).trans hrest.2)⟩
  dialed h hs := ⟨aside_parked.dialed h hs, mute_call (dialed_wire h) fun _ _ => nofun⟩
  close s hs := ⟨aside_parked.close s hs, mute_call (c := .close) rfl fun _ _ => nofun⟩

/-- What is owed is what `flush_send` has left of the request. -/
structure Resumable (s : HttpClient) : Prop where
  persistent : Persistent s.wire
  fits : s.state.Live → s.send.Fits
  kept : owed s.wire = [] ∨ s.state = .sending ∧ s.send.bytes.drop s.sendOff = owed s.wire

theorem Resumable.settled (h : Resumable s) (hs : s.state ≠ .sending) : owed s.wire = [] :=
  h.kept.resolve_right fun hsending => hs hsending.1

theorem resumable_failed (h : Hushed s.shutDown s') (hs : Persistent s.wire) : Resumable s' := by
  obtain ⟨hparked, hmute⟩ := h ⟨nofun, nofun⟩
  refine ⟨hmute.1 ((mute_shutDown s).1 hs), fun hlive => ?_, Or.inl (hmute.2 rfl)⟩
  obtain ⟨env, rfl⟩ | hgone := hparked
  · exact absurd hlive not_live_failed
  · exact hgone.state.elim (fun hdead => absurd hlive hdead) fun hfresh => hfresh.send.1

/-- A step outside sending that makes at most one call, and no write. -/
theorem Resumable.step (h : Resumable s) (hstate : s.state ≠ .sending) (hmute : Mute s s')
    (hfits : s'.state.Live → s'.send.Fits) : Resumable s' :=
  ⟨hmute.1 h.persistent, hfits, Or.inl (hmute.2 (h.settled hstate))⟩

theorem Resumable.same (h : Resumable s) (hwire : s'.wire = s.wire) (hstate : s'.state = s.state) (hsend : s'.send = s.send)
    (hoff : s'.sendOff = s.sendOff) : Resumable s' := by
  refine ⟨hwire ▸ h.persistent, ?_, ?_⟩
  · rw [hstate, hsend]
    exact h.fits
  · rw [hwire, hstate, hsend, hoff]
    exact h.kept

theorem owed_write {src : List UInt8} {r : WriteResult} {before : List StreamCall} {rest : List UInt8}
    (hleft : rest = leftOver src r) : owed (.write src r :: before) = [] ∨ rest = owed (.write src r :: before) := by
  rw [owed]
  split
  · exact Or.inr hleft
  · exact Or.inl rfl

/-- The loop of `flush_send` goes on with what is owed, and leaves it in the buffer unless the transport fails. -/
theorem persistent_flushLoop {n : Nat} {how : Sending} (h : flushLoop n s = (how, s')) (hfits : s.send.Fits)
    (hs : Persistent s.wire) (hkept : owed s.wire = [] ∨ s.send.bytes.drop s.sendOff = owed s.wire) :
    Persistent s'.wire ∧ (how ≠ .broken → owed s'.wire = [] ∨ s'.send.bytes.drop s'.sendOff = owed s'.wire) ∧
      (how = .sent → s'.send.len ≤ s'.sendOff) := by
  induction n generalizing s with
  | zero =>
    cases h
    exact ⟨hs, fun _ => hkept, fun h => by cases h⟩
  | succ n ih =>
    rw [flushLoop] at h
    split at h
    · next hmore =>
      have hne : s.send.bytes.drop s.sendOff ≠ [] := by
        intro hnil
        rw [List.drop_eq_nil_iff, hfits.length_bytes] at hnil
        omega
      have hwrite (r : WriteResult) := hs.write hne hkept r
      split at h
      · next s₁ hanswer =>
        obtain ⟨writes, output, sends, rfl⟩ := transportWrite_eq hanswer
        obtain ⟨interest, armed, harm, -⟩ := arm_eq _ true
        rw [harm] at h
        cases h
        exact ⟨hwrite .again, fun _ => owed_write rfl, fun h => by cases h⟩
      · next s₁ hanswer =>
        obtain ⟨writes, output, sends, rfl⟩ := transportWrite_eq hanswer
        cases h
        exact ⟨hwrite .error, fun h => absurd rfl h, fun h => by cases h⟩
      · next k s₁ hanswer =>
        obtain ⟨writes, output, sends, rfl⟩ := transportWrite_eq hanswer
        exact ih h hfits (hwrite (.accepted k)) (owed_write List.drop_drop.symm)
    · next hdone =>
      cases h
      obtain ⟨interest, armed, harm, -⟩ := ({ s with state := .receiving } : HttpClient).arm_eq false
      rw [harm]
      exact ⟨hs, fun _ => hkept, fun _ => Nat.le_of_not_lt hdone⟩

theorem resumable_flushLoop {n : Nat} {how : Sending} (hstate : s.state = .sending) (h : flushLoop n s = (how, s'))
    (hs : Resumable s) : Persistent s'.wire ∧ (how ≠ .broken → Resumable s') := by
  have hfits := hs.fits (hstate ▸ by decide)
  obtain ⟨hpersistent, hkept, hsent⟩ := persistent_flushLoop h hfits hs.persistent (hs.kept.imp id And.right)
  obtain ⟨writes, output, sends, wire, sendOff, interest, armed, heq, -, -⟩ := flushLoop_eq h
  have hsend : s'.send = s.send := by rw [heq]
  refine ⟨hpersistent, fun hhow => ⟨hpersistent, fun _ => hsend ▸ hfits, ?_⟩⟩
  by_cases hdone : how = .sent
  · -- nothing of the request is left
    have hnil : s'.send.bytes.drop s'.sendOff = [] := by
      rw [List.drop_eq_nil_iff, hsend, hfits.length_bytes, ← hsend]
      exact hsent hdone
    exact Or.inl ((hkept hhow).elim id fun hrest => hrest.symm.trans hnil)
  · refine (hkept hhow).imp id fun hrest => ⟨?_, hrest⟩
    rw [heq]
    change (if how = .sent then HttpState.receiving else s.state) = .sending
    rw [if_neg hdone]
    exact hstate

theorem mute_recvTurn {t : RecvTurn} (h : s.recvTurn = (t, s')) : Mute s s' := by
  rcases recvTurn_wire h with hwire | ⟨r, hwire, -⟩
  · rw [Mute, hwire]
    exact ⟨id, id⟩
  · exact mute_call hwire fun _ _ => nofun

theorem steps_resumable : Steps Hushed fun s s' => Resumable s → Resumable s' where
  refl _ := id
  trans h h' := fun hs => h' (h hs)
  expired h h' := by
    obtain ⟨⟨clocks, rfl⟩, -⟩ := deadlinePassed_eq h
    exact fun hs => resumable_failed h' hs.persistent
  unexpired h := by
    obtain ⟨⟨clocks, rfl⟩, -⟩ := deadlinePassed_eq h
    exact fun hs => hs.same rfl rfl rfl rfl
  refused h h' := fun hs => resumable_failed h' ((mute_refused h).1 hs.persistent)
  dialed h := fun hs => by
    have hwire := dialed_wire h
    refine ⟨?_, fun _ => (fresh_dialed h).1.send.1, Or.inl ?_⟩
    · rw [hwire]
      exact hs.persistent.cons fun _ _ => nofun
    · rw [hwire]
      rfl
  submit {s r text} hidle hbuilt := fun hs => by
    have hfits := hs.fits (hidle ▸ by decide)
    have howed := hs.settled (by rw [hidle]; decide)
    obtain ⟨clocks, t, heq⟩ := (s.asks r).submit_eq text
    rw [heq]
    exact ⟨hs.persistent, fun _ => (hfits.append (length_buildHttpRequest hbuilt)).1, Or.inl howed⟩
  blocked hs h := fun hall => (resumable_flushLoop hs h hall).2 nofun
  sent hs h := fun hall => (resumable_flushLoop hs h hall).2 nofun
  unsent hs h h' := fun hall => resumable_failed h' (resumable_flushLoop hs h hall).1
  stop {s s'} hs h := fun hall => by
    obtain ⟨-, hstate, hsend, -⟩ := recvTurn_unwritten h
    refine hall.step (by rw [hs]; decide) (mute_recvTurn h) fun hlive => ?_
    rw [hsend]
    exact hall.fits (hstate ▸ hlive)
  more {s s'} hs h := fun hall => by
    obtain ⟨-, hstate, hsend, -⟩ := recvTurn_unwritten h
    refine hall.step (by rw [hs]; decide) (mute_recvTurn h) fun hlive => ?_
    rw [hsend]
    exact hall.fits (hstate ▸ hlive)
  broken hs h h' := fun hall => resumable_failed h' ((mute_recvTurn h).1 hall.persistent)
  answered {s s₁ s' r} hs h h' hended := fun hall => by
    obtain ⟨-, hstate, -⟩ := recvTurn_unwritten h
    have hreceiving : (s₁.deliver r).state = .receiving := hstate.trans hs
    obtain ⟨-, hmute⟩ := h' ⟨by rw [hreceiving]; decide, by rw [hreceiving]; decide⟩
    exact hall.step (by rw [hs]; decide) ((mute_recvTurn h).trans hmute) fun hlive => absurd hlive hended
  rested {s s₁ s' r} hs h h' hlive := fun hall => by
    obtain ⟨-, hstate, hsend, -⟩ := recvTurn_unwritten h
    have hreceiving : (s₁.deliver r).state = .receiving := hstate.trans hs
    obtain ⟨hparked, hmute⟩ := h' ⟨by rw [hreceiving]; decide, by rw [hreceiving]; decide⟩
    have hfits : s'.send.Fits := by
      obtain ⟨env, rfl⟩ | hgone := hparked
      · change s₁.send.Fits
        rw [hsend]
        exact hall.fits (hs ▸ by decide)
      · exact hgone.state.elim (fun hdead => absurd hlive hdead) fun hfresh => hfresh.send.1
    rcases (s'.note (.completed s'.state)).rest_cases r.consumed with ⟨recv, faults, heq, -⟩ | ⟨faults, heq⟩
    · rw [heq]
      exact hall.step (by rw [hs]; decide) ((mute_recvTurn h).trans hmute) fun _ =>
        IoBuffer.Backed.reset ⟨hfits.backed, hfits.small⟩
    · rw [heq]
      exact hall.step (by rw [hs]; decide) ((mute_recvTurn h).trans hmute) fun _ => hfits
  polled h := by
    obtain ⟨opens, rfl⟩ := transportPollOpen_eq h
    refine fun hs => ⟨hs.persistent.cons fun _ _ => nofun, hs.fits, hs.kept⟩
  unopened _ h _ h' := by
    obtain ⟨opens, rfl⟩ := transportPollOpen_eq h
    exact fun hs => resumable_failed h' (hs.persistent.cons fun _ _ => nofun)
  opened {s s'} hs h := by
    obtain ⟨opens, interest, armed, heq, -⟩ := opened_eq h
    rw [heq]
    exact fun hall => hall.step (by rw [hs]; decide) (mute_call rfl fun _ _ => nofun) fun _ => hall.fits (hs ▸ by decide)
  close s := fun hs =>
    ⟨hs.persistent.cons fun _ _ => nofun, fun hlive => absurd hlive not_live_disconnected, Or.inl rfl⟩

theorem persistent_run (cfg : ClientConfig) (depth : Nat) (calls : List (Api × Env)) :
    Persistent (run depth (freshClient cfg) calls).wire := by
  have hcb := keeping_aside aside_hushed (fun s _ hs => ⟨Or.inl ⟨_, rfl⟩, id, id⟩) depth
  have hrun := keeps_run steps_resumable hcb (fun _ _ hs => hs.same rfl rfl rfl rfl) (freshClient cfg) calls
  exact (hrun ⟨persistent_nil, fun hlive => absurd hlive not_live_disconnected, Or.inl rfl⟩).persistent

end HttpClient

end Http

namespace Client

/-- No connect of a session has run out of buffers over a connected transport. -/
def Fed : Client → Prop
  | ws s => Ws.Fed s
  | http _ => True

/-- **Writes are resumed.** In every run of either client, whatever the transport takes of a write, the next write on
the connection is of exactly the bytes that it has not taken, until it has taken all of them; unless a session's
`start_connect` has run out of buffers over a connected transport. -/
theorem writes_resumed (k : Client) (hreached : k.Reached) (hfed : k.Fed) : Persistent k.wire := by
  cases hreached with
  | ws cfg seed autoReconnect depth calls => exact Ws.WsSession.persistent_run cfg seed autoReconnect depth calls hfed
  | http cfg depth calls => exact Http.HttpClient.persistent_run cfg depth calls

/-- A text of which a part is sent, then pushed back, then sent. -/
def stammering : Ws.WsSession :=
  Ws.WsSession.run 0 (Ws.fresh Ws.plainConfig 1 false)
    (Ws.opening ++ [(.act (.send [0x41, 0x42] false), { writes := [.accepted 3] }), (.onReady, { writes := [.again] }),
      (.onReady, { writes := [.accepted 5] })])

theorem stammering_resumed :
    (stammering.wire.filterMap fun
      | .write src answer => some (src.length, answer)
      | _ => none) = [(5, .accepted 5), (5, .again), (8, .accepted 3), (115, .accepted 256)] ∧
    Persistent stammering.wire :=
  ⟨by decide +kernel, writes_resumed (.ws stammering) (.ws _ _ _ _ _) (by unfold Fed; decide +kernel)⟩

/-- A callback's connect fails for want of a buffer: it drops the rest of a frame, but not the connection. -/
def interrupted : Ws.WsSession :=
  Ws.WsSession.run 1 (Ws.fresh Ws.pingConfig 1 false)
    (Ws.opening ++ [(.act (.send [0x41, 0x42] false), { writes := [.accepted 3] }),
      (.onReady, { writes := [.again, .accepted 6], reads := [.data [0x81, 0x01, 0x41]], scripts := [[.connect]],
                   acquires := [none], clocks := [10] })])

/-- The keepalive then writes a Ping in the middle of that frame. -/
theorem interrupted_not_resumed : ¬ Persistent interrupted.wire := by
  intro h
  have hping : interrupted.wire.head? = some (.write [0x89, 0x80, 0x74, 0x57, 0x9C, 0xB9] (.accepted 6)) ∧
      owed interrupted.wire.tail = [0x00, 0x00, 0x00, 0x41, 0x42] := by decide +kernel
  obtain ⟨before, hwire⟩ := List.head?_eq_some_iff.mp hping.1
  have howed := hping.2
  rw [hwire, List.tail_cons] at howed
  rw [hwire] at h
  have hnext := (h _ _ before List.suffix_rfl).2
  rw [howed] at hnext
  exact absurd hnext (by decide)

end Client

end Lepton

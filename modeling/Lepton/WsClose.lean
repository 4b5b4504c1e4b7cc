import Lepton.WsLink

/-! The end of an explicit close. A session rests in Closing as long as something is left to send,
the Close frame included, provided that `close` could queue its frame and that the transport has
pushed back while `close` was sending. -/

namespace Lepton.Ws

variable {s s' s'' : WsSession} {cb : Callbacks}

/-- The payload of a Close frame. -/
def closeBody (code : UInt16) : List UInt8 := [(code >>> 8).toUInt8, code.toUInt8]

/-- A write that did not take all it was offered. -/
def PushedBack : StreamCall → Prop
  | .write _ .again => True
  | .write src (.accepted n) => n < src.length
  | _ => False

instance : DecidablePred PushedBack
  | .write _ .again => isTrue trivial
  | .write src (.accepted n) => inferInstanceAs (Decidable (n < src.length))
  | .write _ .error | .connect _ | .pollOpen _ | .read _ _ | .close => isFalse id

/-- A fatal write. -/
def BrokeOff : StreamCall → Prop
  | .write _ .error => True
  | _ => False

instance : DecidablePred BrokeOff
  | .write _ .error => isTrue trivial
  | .write _ .again | .write _ (.accepted _) | .connect _ | .pollOpen _ | .read _ _ | .close => isFalse id

/-- `close` had a buffer and a slot for its frame, and while it was sending the transport pushed back and
did not fail. -/
def Ev.Held : Ev → Prop
  | .closing _ acquired count calls =>
    acquired = true ∧ count < kMaxPending ∧ (∀ c ∈ calls, ¬ BrokeOff c) ∧ ∃ c ∈ calls, PushedBack c
  | _ => True

instance : DecidablePred Ev.Held
  | .closing _ acquired count calls => inferInstanceAs (Decidable
      (acquired = true ∧ count < kMaxPending ∧ (∀ c ∈ calls, ¬ BrokeOff c) ∧ ∃ c ∈ calls, PushedBack c))
  | .changed _ | .response _ | .dialed _ | .added _ | .written _ _ | .starved _ | .timedOut | .enqueued _ | .pingDue _
  | .pongLate _ | .resumed _ | .requested _ _ => isTrue trivial

def Held (s : WsSession) : Prop := ∀ e ∈ s.log, e.Held

instance : DecidablePred Held := fun s => inferInstanceAs (Decidable (∀ e ∈ s.log, e.Held))

/-- The code of the last `close` of an open session. -/
def lastClose : List Ev → Option UInt16
  | [] => none
  | .closing code _ _ _ :: _ => some code
  | _ :: log => lastClose log

/-- A closing session has something left to send, and has queued a Close frame with the code it was
closed with. -/
def ClosesOrderly (s : WsSession) : Prop :=
  s.state = .closing → 0 < s.pending.count ∧
    ∃ code f, lastClose s.log = some code ∧ f ∈ s.frames ∧ f.opcode = .close ∧ f.payload = closeBody code

/-- `s'` continues `s`, and closes orderly if `s` does and every close was held up. -/
structure Closes (s s' : WsSession) : Prop where
  log : s.log <:+ s'.log
  orderly : Held s' → ClosesOrderly s → ClosesOrderly s'

theorem Closes.refl (s : WsSession) : Closes s s := ⟨List.suffix_rfl, fun _ h => h⟩

theorem Closes.trans (h : Closes s s') (h' : Closes s' s'') : Closes s s'' :=
  ⟨h.log.trans h'.log, fun hheld hs => h'.orderly hheld (h.orderly (fun e he => hheld e (h'.log.subset he)) hs)⟩

/-- A step that neither empties the ring nor forgets a frame. -/
theorem Closes.quiet (hlog : s.log <:+ s'.log) (hlast : lastClose s'.log = lastClose s.log)
    (hstate : s'.state = s.state) (hpending : 0 < s.pending.count → 0 < s'.pending.count)
    (hframes : s.frames ⊆ s'.frames) : Closes s s' := by
  refine ⟨hlog, fun _ hs hclosing => ?_⟩
  obtain ⟨hcount, code, f, hcode, hmem, hop, hbody⟩ := hs (hstate ▸ hclosing)
  exact ⟨hpending hcount, code, f, hlast.trans hcode, hframes hmem, hop, hbody⟩

theorem Closes.same (hlog : s'.log = s.log) (hstate : s'.state = s.state)
    (hpending : s'.pending = s.pending) (hframes : s'.frames = s.frames) : Closes s s' :=
  Closes.quiet (hlog ▸ List.suffix_rfl) (by rw [hlog]) hstate (fun h => hpending ▸ h) (hframes ▸ List.Subset.refl _)

theorem Closes.event {e : Ev} (hlog : s'.log = e :: s.log) (he : lastClose (e :: s.log) = lastClose s.log)
    (hstate : s'.state = s.state) (hpending : s'.pending = s.pending) (hframes : s'.frames = s.frames) : Closes s s' :=
  Closes.quiet (hlog ▸ List.suffix_cons _ _) (by rw [hlog, he]) hstate (fun h => hpending ▸ h)
    (hframes ▸ List.Subset.refl _)

theorem lastClose_append {new : List Ev} (hnew : ∀ e ∈ new, e.Passing) (log : List Ev) :
    lastClose (new ++ log) = lastClose log := by
  induction new with
  | nil => rfl
  | cons e new ih =>
    have hrest := ih fun e he => hnew e (List.mem_cons_of_mem _ he)
    have he := hnew e List.mem_cons_self
    cases e with
    | closing _ _ _ _ => exact absurd he id
    | changed _ | response _ | dialed _ | added _ | written _ _ | starved _ | timedOut | enqueued _ | pingDue _ | pongLate _
    | resumed _ | requested _ _ => exact hrest

theorem Closes.of_inward (h : WsSession.Inward s s') : Closes s s' := by
  obtain ⟨new, hlog, hnew⟩ := h.log
  refine Closes.quiet h.suffix ?_ h.state (fun hpos => h.pending ▸ hpos) (h.frames ▸ List.Subset.refl _)
  rw [hlog, lastClose_append hnew]

namespace WsSession

theorem closes_enter {s₀ : WsSession} {st : WsState} (hlog : s₀.log <:+ s.log) (hst : st ≠ .closing) :
    Closes s₀ (s.enter st) :=
  ⟨hlog.trans (s.enter_log st), fun _ _ hclosing => absurd (s.enter_state st ▸ hclosing) hst⟩

theorem closes_down {s₀ : WsSession} (hlog : s₀.log <:+ s.log) {next : WsState} (hnext : ¬ next.Live) :
    Closes s₀ ((s.shutDown next).enter next) := by
  obtain ⟨clocks, t, heq⟩ := s.shutDown_eq next
  rw [heq]
  exact closes_enter hlog fun h => hnext (h ▸ by decide)

/-- A closing session whose ring runs empty is torn down. -/
theorem closes_flushTurn {turn : FlushTurn} (h : s.flushTurn = (turn, s'))
    (hturn : turn = .stop ∨ turn = .more) : Closes s s' := by
  rcases flushTurn_cases h with ⟨-, -, rfl⟩ | ⟨-, r, writes, h⟩
  · exact Closes.same rfl rfl rfl rfl
  · rcases h with ⟨-, -, rfl⟩ | ⟨-, -, rfl⟩ | ⟨n, -, -, rfl, rfl⟩ | ⟨n, -, -, -, rfl⟩
    · exact Closes.event rfl rfl rfl rfl rfl
    · exact Closes.event rfl rfl rfl rfl rfl
    · refine ⟨List.suffix_cons _ _, fun _ hs hclosing => ?_⟩
      obtain ⟨-, code, f, hcode, hframe⟩ := hs hclosing
      refine ⟨Nat.pos_of_ne_zero fun hzero => ?_, code, f, hcode, hframe⟩
      rw [if_pos ⟨hclosing, hzero⟩] at hturn
      rcases hturn with hturn | hturn
      · cases hturn
      · cases hturn
    · exact Closes.quiet (List.suffix_cons _ _) rfl rfl id (List.Subset.refl _)

theorem closes_queueFrame (s : WsSession) (opcode : WsOpcode) (payload : List UInt8) (fin : Bool) :
    Closes s (s.queueFrame opcode payload fin).2 := by
  obtain ⟨status, s', hqueue⟩ : ∃ status s', s.queueFrame opcode payload fin = (status, s') := ⟨_, _, rfl⟩
  rw [hqueue]
  obtain ⟨acquires, gen, faults, ⟨-, rfl⟩ | ⟨-, id, key, ring, -, hpush, rfl⟩⟩ := queueFrame_cases hqueue
  · exact Closes.event rfl rfl rfl rfl rfl
  · refine Closes.quiet (List.suffix_cons _ _) rfl rfl ?_ (List.subset_append_left _ _)
    intro _
    rw [Ring.count_push hpush]
    exact Nat.succ_pos _

theorem blocks_closes : Blocks Closes where
  refl := Closes.refl
  trans := Closes.trans
  down _ _ hnext := closes_down List.suffix_rfl hnext
  flushTurn := closes_flushTurn
  flushFatal {s s'} h := by
    have hframe := s.frame_flushTurn
    rw [h] at hframe
    exact closes_down hframe.suffix not_live_failed
  flushFinished {s s'} h := by
    have hframe := s.frame_flushTurn
    rw [h] at hframe
    exact closes_down hframe.suffix not_live_disconnected
  queueSend := keeps_queueSend Closes.trans (fun s _ _ => Closes.same rfl rfl rfl rfl)
    fun s opcode payload fin _ _ => closes_queueFrame s opcode payload fin
  deadlinePassed s := .of_inward s.silent_deadlinePassed.toInward

theorem takes_closes : Takes Closes := Takes.of_silent blocks_closes (fun h => .of_inward h.toInward) closes_queueFrame

theorem dials_closes : Dials Closes where
  starved h := by
    obtain ⟨acquires, recv, hs⟩ := tryDial_starved h
    rw [hs]
    exact closes_enter (List.suffix_cons _ _) nofun
  refused h := by
    obtain ⟨env, recv, deadline, -, hs⟩ := tryDial_refused h
    rw [hs]
    refine closes_down ?_ not_live_failed
    exact List.suffix_rfl
  dialed h := by
    obtain ⟨env, deadline, fd, -, hs⟩ := tryDial_dialed h
    rw [hs]
    exact closes_enter (List.suffix_cons _ _) nofun
  register := keeps_register Closes.refl fun _ ok _ _ => Closes.event (e := .added ok) rfl rfl rfl rfl rfl

theorem length_unsentFront_le (s : WsSession) : s.unsentFront.length ≤ s.pending.front.buf.len - s.pending.front.sent := by
  rw [unsentFront, List.length_drop]
  exact Nat.sub_le_sub_right (List.length_take_le ..) _

/-- Sending in Open: a write fails, or the frames stay as they are, and a ring that runs empty was never
pushed back. -/
theorem flushLoop_opened (hbasic : Keeping Basic cb) {fuel : Nat}
    (hopen : s.state = .opened) :
    ∃ new, (flushLoop cb fuel s).wire = new ++ s.wire ∧
      ((∃ c ∈ new, BrokeOff c) ∨
        (flushLoop cb fuel s).frames = s.frames ∧
          ((flushLoop cb fuel s).pending.count = 0 → ∀ c ∈ new, ¬ PushedBack c)) := by
  induction fuel generalizing s with
  | zero => exact ⟨[], rfl, Or.inr ⟨rfl, fun _ _ h => by cases h⟩⟩
  | succ fuel ih =>
    rw [flushLoop]
    split
    · next s₁ h =>
      rcases flushTurn_cases h with ⟨-, -, rfl⟩ | ⟨hcount, r, writes, h⟩
      · exact ⟨[], rfl, Or.inr ⟨rfl, fun _ _ h => by cases h⟩⟩
      · rcases h with ⟨-, -, rfl⟩ | ⟨-, hturn, -⟩ | ⟨n, -, -, hturn, -⟩ | ⟨n, -, -, -, rfl⟩
        · exact ⟨[.write s.unsentFront r], rfl, Or.inr ⟨rfl, fun hzero => absurd hzero hcount⟩⟩
        · cases hturn
        · split at hturn <;> cases hturn
        · exact ⟨[.write s.unsentFront r], rfl, Or.inr ⟨rfl, fun hzero => absurd hzero hcount⟩⟩
    · next s₁ h =>
      obtain ⟨new, hnew⟩ := (keeps_teardown blocks_basic hbasic s₁ not_live_failed).wire
      rw [(flushTurn_fatal h).2, List.append_cons] at hnew
      refine ⟨new ++ [.write s.unsentFront .error], hnew.symm, Or.inl ⟨.write s.unsentFront .error, ?_, trivial⟩⟩
      exact List.mem_append_right _ List.mem_cons_self
    · next h => cases (flushTurn_finished h).symm.trans hopen
    · next s₁ h =>
      rcases flushTurn_cases h with ⟨-, hturn, -⟩ | ⟨-, r, writes, h⟩
      · cases hturn
      · rcases h with ⟨-, hturn, -⟩ | ⟨-, hturn, -⟩ | ⟨n, rfl, hall, -, rfl⟩ | ⟨n, -, -, hturn, -⟩
        · cases hturn
        · cases hturn
        · have hwhole : ¬ PushedBack (.write s.unsentFront (.accepted n)) := by
            have := s.length_unsentFront_le
            change ¬ n < _
            omega
          obtain ⟨new, hwire, hnew⟩ := ih (s := { s.wrote s.unsentFront (.accepted n) writes with
            pending := s.pending.pop, marks := s.pending.front.buf.released.map .pool ++ s.marks }) hopen
          refine ⟨new ++ [.write s.unsentFront (.accepted n)], ?_, ?_⟩
          · rw [hwire, List.append_assoc]
            rfl
          · rcases hnew with ⟨c, hc, hbroke⟩ | ⟨hframes, hempty⟩
            · exact Or.inl ⟨c, List.mem_append_left _ hc, hbroke⟩
            · refine Or.inr ⟨hframes, fun hzero c hc => ?_⟩
              rcases List.mem_append.mp hc with hc | hc
              · exact hempty hzero c hc
              · exact List.mem_singleton.mp hc ▸ hwhole
        · cases hturn

theorem enqueueFrame_opened (hbasic : Keeping Basic cb) {opcode : WsOpcode}
    {payload : List UInt8} {fin : Bool} (hopen : s.state = .opened) (hok : (s.queueFrame opcode payload fin).1 = .ok) :
    let s' := (enqueueFrame cb s opcode payload fin).2
    ∃ new, s'.wire = new ++ s.wire ∧
      ((∃ c ∈ new, BrokeOff c) ∨
        (∃ f ∈ s'.frames, f.opcode = opcode ∧ f.payload = payload) ∧
          (s'.pending.count = 0 → ∀ c ∈ new, ¬ PushedBack c)) := by
  obtain ⟨status, s₁, hqueue⟩ : ∃ status s', s.queueFrame opcode payload fin = (status, s') := ⟨_, _, rfl⟩
  rw [hqueue] at hok
  cases hok
  rw [enqueueFrame, hqueue]
  obtain ⟨acquires, gen, faults, ⟨hne, -⟩ | ⟨-, id, key, ring, -, -, hs₁⟩⟩ := queueFrame_cases hqueue
  · exact absurd rfl hne
  · have hstate : s₁.state = .opened := by rw [hs₁]; exact hopen
    have hwire₁ : s₁.wire = s.wire := by rw [hs₁]
    obtain ⟨new, hwire, hnew⟩ := flushLoop_opened hbasic hstate
    have hmem : ∃ f ∈ s₁.frames, f.opcode = opcode ∧ f.payload = payload := by
      rw [hs₁]
      exact ⟨_, List.mem_append_right _ List.mem_cons_self, rfl, rfl⟩
    refine ⟨new, hwire.trans (by rw [hwire₁]), hnew.imp_right fun ⟨hframes, hempty⟩ => ⟨?_, hempty⟩⟩
    exact hframes.symm ▸ hmem

/-- A held close leaves its frame behind, and something to send. -/
theorem closes_sendClose (hbasic : Keeping Basic cb) (code : UInt16)
    (hopen : s.state = .opened) : Closes s ((sendClose cb s code).enter .closing) := by
  refine ⟨(basic_sendClose hbasic s code).log.trans (enter_log ..), fun hheld _ _ => ?_⟩
  obtain ⟨s₁, hs₁⟩ : ∃ s₁ : WsSession, { s with autoReconnect := false, inClose := true } = s₁ := ⟨_, rfl⟩
  obtain ⟨s', hs'⟩ : ∃ s', (enqueueFrame cb s₁ .close (closeBody code) true).2 = s' := ⟨_, rfl⟩
  have hsend : sendClose cb s code = { s' with
      inClose := s.inClose
      log := .closing code (s.env.acquires.head? ≠ some none) s.pending.count
        (s'.wire.take (s'.wire.length - s.wire.length)) :: s'.log } := by
    rw [← hs', ← hs₁]
    rfl
  rw [hsend] at hheld ⊢
  obtain ⟨hpool, hslot, hsound, c, hc, hback⟩ := hheld _ ((enter_log ..).subset List.mem_cons_self)
  have hok : (s₁.queueFrame .close (closeBody code) true).1 = .ok := by
    rw [← hs₁]
    exact queueFrame_ok_iff.mpr ⟨of_decide_eq_true hpool, le_trans (show 8 ≤ 64 by decide) s.cfg.cap_ge, hslot⟩
  obtain ⟨new, hwire, hnew⟩ := enqueueFrame_opened hbasic (hs₁ ▸ hopen) hok
  have hwire₁ : s₁.wire = s.wire := by rw [← hs₁]
  rw [hs', hwire₁] at hwire
  rw [hs'] at hnew
  rw [hwire, List.length_append, Nat.add_sub_cancel, List.take_left] at hsound hc
  obtain ⟨c', hc', hbroke⟩ | ⟨⟨f, hf, hop, hbody⟩, hempty⟩ := hnew
  · exact absurd hbroke (hsound c' hc')
  · obtain ⟨log, h, hlog⟩ := enter_eq _ _
    rw [h]
    refine ⟨Nat.pos_of_ne_zero fun hzero => hempty hzero c hc hback, code, f, ?_, hf, hop, hbody⟩
    rcases hlog with ⟨rfl, -⟩ | rfl
    · rfl
    · rfl

theorem closes_act (hcb : Keeping Closes cb) (hbasic : Keeping Basic cb) (s : WsSession) (a : Act) :
    Closes s (act cb s a) := by
  cases a with
  | connect => exact keeps_startConnect blocks_closes dials_closes hcb s
  | send payload binary => exact keeps_send blocks_closes.toFlushes hcb s payload binary
  | close code => exact keeps_close blocks_closes hcb s code (Closes.same rfl rfl rfl rfl) (closes_sendClose hbasic code)

theorem closes_callbacks (depth : Nat) : Keeping Closes (callbacks depth) :=
  keeping_callbacks Closes.refl Closes.trans (fun _ _ => Closes.same rfl rfl rfl rfl)
    (fun depth hcb => closes_act hcb (basic_callbacks depth)) depth

theorem closes_request {ok : Bool} (_ : s.state = .connecting) (hset : Closes (s.enter .upgrading) s')
    (hrequest : s'.queueRequest = (ok, s'')) : Closes s s'' := by
  have hup : Closes s (s.enter .upgrading) := closes_enter List.suffix_rfl nofun
  refine hup.trans (hset.trans ?_)
  obtain ⟨acquires, faults, ⟨rfl, -⟩ | ⟨-, id, text, ring, -, hpush, rfl⟩⟩ := queueRequest_cases hrequest
  · exact Closes.event (e := .requested s'.state (s'.pending.count < kMaxPending)) rfl rfl rfl rfl rfl
  · refine Closes.quiet (List.suffix_cons _ _) rfl rfl ?_ (List.Subset.refl _)
    intro _
    rw [Ring.count_push hpush]
    exact Nat.succ_pos _

theorem drives_closes : Drives Closes Closes :=
  takes_closes.drives blocks_closes.above (dials_closes.connects blocks_closes.above) Closes.of_inward closes_request
    fun _ => closes_enter List.suffix_rfl nofun

theorem closes_run (depth : Nat) (s : WsSession) (calls : List (Api × Env)) : Closes s (run depth s calls) :=
  keeps_run blocks_closes drives_closes (closes_callbacks depth) (fun _ _ => Closes.same rfl rfl rfl rfl)
    (closes_act (closes_callbacks depth) (basic_callbacks depth)) s calls

end WsSession

/-- **A held close completes.** In every run each of whose closes of an open session could queue its frame
and was pushed back by the transport before all was sent, a session in Closing has queued a Close
frame with its code and has something left to send. -/
theorem held_close_completes (cfg : Config) (seed : UInt64) (autoReconnect : Bool) (depth : Nat)
    (calls : List (Api × Env)) (hheld : Held (WsSession.run depth (fresh cfg seed autoReconnect) calls)) :
    ClosesOrderly (WsSession.run depth (fresh cfg seed autoReconnect) calls) :=
  (WsSession.closes_run depth _ calls).orderly hheld nofun

/-- A close that waits for the transport. -/
theorem waitingClose_orderly :
    ClosesOrderly (WsSession.run 1 (fresh plainConfig 1 false) (opening ++ [(.act (.close 1000), { writes := [.again] })])) :=
  held_close_completes plainConfig 1 false 1 _ (by decide)

/-- The transport takes the Close frame at once: the session rests in Closing with nothing left to send. -/
theorem promptClose_not_orderly :
    let s := WsSession.run 0 (fresh plainConfig 1 false) (opening ++ [(.act (.close 1000), { writes := [.accepted 99] })])
    s.state = .closing ∧ s.pending.count = 0 ∧ ¬ ClosesOrderly s := by
  intro s
  have hrun : s.state = .closing ∧ s.pending.count = 0 := by decide
  exact ⟨hrun.1, hrun.2, fun h => absurd (h hrun.1).1 (hrun.2 ▸ Nat.lt_irrefl 0)⟩

end Lepton.Ws

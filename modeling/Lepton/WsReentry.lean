import Lepton.WsSafe
import Lepton.WsEdge
import Lepton.WsMarks

/-! Callbacks that connect anew. They swap the receive buffer of the session for a fresh one, which does no harm except
inside `dispatch_frame`: `parse_frames` goes on to consume the frame it has dispatched, from whatever buffer the
session then has. -/

namespace Lepton.Ws

open Words

variable {s s' s'' : WsSession} {cb : Callbacks}

/-- The bytes that are consumed next were counted on the connection that stands. -/
def Counted : List Mark → Prop
  | [] | .dial :: _ => False
  | .frame _ _ :: _ | .opened :: _ => True
  | _ :: before => Counted before

instance decidableCounted : DecidablePred Counted
  | [] | .dial :: _ => isFalse id
  | .frame _ _ :: _ | .opened :: _ => isTrue trivial
  | .redial _ :: before | .ended _ :: before | .ping _ _ :: before | .pong :: before | .lapse _ :: before
  | .message _ _ :: before | .consumed :: before | .pool _ :: before => decidableCounted before

/-- If bytes have been consumed last, then from the buffer they were counted on. -/
def Matched : List Mark → Prop
  | .consumed :: before => Counted before
  | _ => True

instance : DecidablePred Matched
  | [] => isTrue trivial
  | .consumed :: before => decidableCounted before
  | .dial :: _ | .redial _ :: _ | .ended _ :: _ | .opened :: _ | .ping _ _ :: _ | .pong :: _ | .lapse _ :: _
  | .frame _ _ :: _ | .message _ _ :: _ | .pool _ :: _ => isTrue trivial

/-- So it is throughout the run: no callback connects while a frame is dispatched. -/
def Undisturbed (s : WsSession) : Prop := ∀ past ∈ s.marks.tails, Matched past

instance : DecidablePred Undisturbed := fun s => inferInstanceAs (Decidable (∀ past ∈ s.marks.tails, Matched past))

/-- The marks of the user's code and of a dispatch. -/
def Mark.Inner : Mark → Prop
  | .frame _ _ | .opened => False
  | _ => True

theorem not_dial_of_counted {new before : List Mark} (hnew : ∀ m ∈ new, m.Inner) (h : Counted (new ++ before)) :
    .dial ∉ new := by
  induction new with
  | nil => exact List.not_mem_nil
  | cons m new ih =>
    have hm : m.Inner := hnew m List.mem_cons_self
    have hrest : Counted (new ++ before) → .dial ∉ new := ih fun m' hm' => hnew m' (List.mem_cons_of_mem _ hm')
    cases m with
    | dial => exact absurd h id
    | frame | opened => exact absurd hm id
    | _ =>
      rw [List.mem_cons]
      rintro (hdial | hdial)
      · cases hdial
      · exact hrest h hdial

namespace WsSession

/-- What callbacks and dispatches do: the buffers stay well formed, and the receive buffer is the same one unless the
session has connected. -/
structure Reenters (s s' : WsSession) : Prop where
  log : s.log <:+ s'.log
  marks : ∃ new, s'.marks = new ++ s.marks ∧ (∀ m ∈ new, m.Inner) ∧ (.dial ∈ new ∨ s'.recv = s.recv)
  sane : Sane s → Sane s'

theorem Reenters.refl (s : WsSession) : Reenters s s :=
  ⟨List.suffix_rfl, ⟨[], rfl, nofun, Or.inr rfl⟩, id⟩

theorem Reenters.trans (h : Reenters s s') (h' : Reenters s' s'') : Reenters s s'' := by
  obtain ⟨new, hmarks, hinner, hrecv⟩ := h.marks
  obtain ⟨new', hmarks', hinner', hrecv'⟩ := h'.marks
  refine ⟨h.log.trans h'.log, ⟨new' ++ new, ?_, ?_, ?_⟩, fun hs => h'.sane (h.sane hs)⟩
  · rw [hmarks', hmarks, List.append_assoc]
  · exact List.forall_mem_append.mpr ⟨hinner', hinner⟩
  · rw [List.mem_append]
    rcases hrecv' with hdial | hsame'
    · exact Or.inl (Or.inl hdial)
    · rcases hrecv with hdial | hsame
      · exact Or.inl (Or.inr hdial)
      · exact Or.inr (hsame'.trans hsame)

theorem Reenters.suffix (h : Reenters s s') : s.marks <:+ s'.marks := by
  obtain ⟨new, hmarks, -⟩ := h.marks
  exact ⟨new, hmarks.symm⟩

theorem reenters_pooled (hlog : s.log <:+ s'.log) (hmarks : Pooled s.marks s'.marks)
    (h : Spares s s') : Reenters s s' := by
  obtain ⟨calls, hmarks⟩ := hmarks
  refine ⟨hlog, ⟨_, hmarks, ?_, Or.inr h.recv⟩, h.sane⟩
  rintro m hm
  obtain ⟨call, -, rfl⟩ := List.mem_map.mp hm
  exact trivial

theorem reenters_cons {m : Mark} (hlog : s.log <:+ s'.log) (hmarks : s'.marks = m :: s.marks)
    (hm : m.Inner) (h : Spares s s') : Reenters s s' :=
  ⟨hlog, ⟨[m], hmarks, List.forall_mem_singleton.mpr hm, Or.inr h.recv⟩, h.sane⟩

theorem reenters_enter (s : WsSession) (st : WsState) : Reenters s (s.enter st) :=
  reenters_pooled (s.enter_log st) (by rw [enter_marks]; exact Pooled.refl _) (s.spares_enter st)

theorem reenters_shutDown (s : WsSession) (next : WsState) : Reenters s (s.shutDown next) := by
  have hlog : s.log <:+ (s.shutDown next).log := by
    obtain ⟨clocks, t, h⟩ := s.shutDown_eq next
    rw [h]
    exact List.suffix_rfl
  have hspares : Spares s (s.shutDown next) := by
    obtain ⟨clocks, t, h⟩ := s.shutDown_eq next
    rw [h]
    exact ⟨rfl, IoBuffer.Fits.release, rfl⟩
  obtain ⟨marks, hpooled, ⟨hmarks, -⟩ | ⟨t, hmarks, -⟩⟩ := s.marks_shutDown next
  · exact reenters_pooled hlog (hmarks ▸ hpooled) hspares
  · obtain ⟨calls, rfl⟩ := hpooled
    refine ⟨hlog, ⟨.ended t :: calls.map .pool, hmarks, ?_, Or.inr hspares.recv⟩, hspares.sane⟩
    rw [List.forall_mem_cons]
    refine ⟨trivial, fun m hm => ?_⟩
    obtain ⟨call, -, rfl⟩ := List.mem_map.mp hm
    exact trivial

theorem reenters_queueFrame (s : WsSession) (opcode : WsOpcode) (payload : List UInt8) (fin : Bool) :
    Reenters s (s.queueFrame opcode payload fin).2 :=
  have h := s.quiet_queueFrame opcode payload fin
  reenters_pooled h.log h.marks (s.spares_queueFrame opcode payload fin)

theorem blocks_reenters : Blocks Reenters := by
  refine Blocks.of_turn Reenters.refl Reenters.trans ?_ ?_ ?_ ?_ ?_
  · exact fun s next _ => (s.reenters_shutDown next).trans (reenters_enter _ next)
  · exact fun s => reenters_pooled s.quiet_flushTurn.log s.quiet_flushTurn.marks s.spares_flushTurn
  · exact fun s opcode payload fin _ _ => s.reenters_queueFrame opcode payload fin
  · exact fun _ _ _ => reenters_pooled List.suffix_rfl (Pooled.refl _) (Spares.same rfl rfl rfl)
  · intro s
    refine reenters_pooled s.quiet_deadlinePassed.log s.quiet_deadlinePassed.marks ?_
    obtain ⟨clocks, log, h, -⟩ := s.deadlinePassed_snd
    rw [h]
    exact Spares.same rfl rfl rfl

theorem dispatches_reenters {P : WsState → Prop} : Dispatches P Reenters where
  toBlocks := blocks_reenters
  addMessage _ _ _ := reenters_cons List.suffix_rfl rfl trivial (Spares.same rfl rfl rfl)
  storeFragment s chunk _ :=
    have h := s.quiet_storeFragment chunk
    reenters_pooled h.log h.marks (s.spares_storeFragment chunk)
  dropFragment _ := reenters_pooled List.suffix_rfl ⟨_, rfl⟩ ⟨rfl, IoBuffer.Fits.release, rfl⟩
  openFragment s op _ :=
    have h := s.quiet_openFragment op
    reenters_pooled h.log h.marks (s.spares_openFragment op)
  takePong _ := reenters_cons List.suffix_rfl rfl trivial (Spares.same rfl rfl rfl)

/-- An attempt to connect, which has a receive buffer of its own. -/
theorem reenters_tryDial {how : Dialing} (h : s.tryDial = (how, s')) : Reenters s s' := by
  have hlog : s.log <:+ s'.log := by
    cases how with
    | starved =>
      obtain ⟨acquires, recv, heq⟩ := tryDial_starved h
      rw [heq]
      exact List.suffix_cons _ _
    | refused =>
      obtain ⟨env, recv, deadline, -, heq⟩ := tryDial_refused h
      rw [heq]
      exact List.suffix_rfl
    | dialed =>
      obtain ⟨env, deadline, fd, -, heq⟩ := tryDial_dialed h
      rw [heq]
      exact List.suffix_cons _ _
  have hsane : Sane s → Sane s' := fun hs => by
    have hdial := sane_tryDial hs
    rwa [h] at hdial
  have hmarks := s.marks_tryDial
  rw [h] at hmarks
  obtain ⟨calls, hmarks⟩ := hmarks
  refine ⟨hlog, ⟨calls.map .pool ++ [.dial], ?_, ?_, Or.inl ?_⟩, hsane⟩
  · rw [List.append_assoc]
    exact hmarks
  · refine List.forall_mem_append.mpr ⟨fun m hm => ?_, List.forall_mem_singleton.mpr trivial⟩
    obtain ⟨call, -, rfl⟩ := List.mem_map.mp hm
    exact trivial
  · exact List.mem_append_right _ (List.mem_singleton_self _)

theorem dials_reenters : Dials Reenters where
  starved h := (reenters_tryDial h).trans (reenters_enter _ .failed)
  refused h := (reenters_tryDial h).trans ((reenters_shutDown _ .failed).trans (reenters_enter _ .failed))
  dialed h := (reenters_tryDial h).trans (reenters_enter _ .connecting)
  register s := reenters_pooled s.quiet_register.log s.quiet_register.marks
    (keeps_register Spares.refl (fun _ _ _ _ => Spares.same rfl rfl rfl) s)

theorem reenters_act (hcb : Keeping Reenters cb) (s : WsSession) (a : Act) : Reenters s (act cb s a) := by
  cases a with
  | connect => exact keeps_startConnect blocks_reenters dials_reenters hcb s
  | send payload binary => exact keeps_send blocks_reenters.toFlushes hcb s payload binary
  | close code =>
    have hauto : Reenters s { s with autoReconnect := false } :=
      reenters_pooled List.suffix_rfl (Pooled.refl _) (Spares.same rfl rfl rfl)
    apply keeps_close blocks_reenters hcb s code hauto
    intro _
    have hsend : Reenters s (sendClose cb s code) :=
      keeps_sendClose blocks_reenters.toFlushes hcb
        (reenters_pooled List.suffix_rfl (Pooled.refl _) (Spares.same rfl rfl rfl)) (reenters_queueFrame ..)
        fun _ _ _ _ _ => reenters_pooled (List.suffix_cons _ _) (Pooled.refl _) (Spares.same rfl rfl rfl)
    exact hsend.trans (reenters_enter _ .closing)

theorem reenters_callbacks (depth : Nat) : Keeping Reenters (callbacks depth) :=
  keeping_callbacks Reenters.refl Reenters.trans
    (fun _ _ => reenters_pooled List.suffix_rfl (Pooled.refl _) (Spares.same rfl rfl rfl))
    (fun _ hcb => reenters_act hcb) depth

theorem undisturbed_past (hmarks : s.marks <:+ s'.marks) (h : Undisturbed s') : Undisturbed s :=
  fun past hpast => h past ((List.mem_tails ..).mpr (((List.mem_tails ..).mp hpast).trans hmarks))

/-- `s'` continues `s`, and the buffers stay well formed in undisturbed runs. -/
structure Survives (s s' : WsSession) : Prop where
  marks : s.marks <:+ s'.marks
  sane : Undisturbed s' → Sane s → Sane s'

theorem Survives.trans (h : Survives s s') (h' : Survives s' s'') : Survives s s'' :=
  ⟨h.marks.trans h'.marks, fun hC hs => h'.sane hC (h.sane (undisturbed_past h'.marks hC) hs)⟩

theorem Reenters.survives (h : Reenters s s') : Survives s s' := ⟨h.suffix, fun _ => h.sane⟩

theorem survives_still (h : Quiet s s') (hsane : Sane s → Sane s') : Survives s s' :=
  ⟨h.marks.suffix, fun _ => hsane⟩

/-- A turn of the parse loop: the frame is consumed from the buffer it was dispatched from. -/
theorem survives_turn (hcb : Keeping Reenters cb) {hdr : WsFrameHeader}
    {payload : List UInt8} {total : Nat} (hframe : s.nextFrame = .frame hdr payload total)
    (h : dispatchFrame cb (s.countFrame hdr payload) hdr payload = s') :
    s.marks <:+ (s'.consumeRecv total).marks ∧
      (Undisturbed (s'.consumeRecv total) → Sane s → Sane (s'.consumeRecv total) ∧
        (s'.consumeRecv total).recv.len < s.recv.len) := by
  obtain ⟨htotal, hlen, hmin⟩ := nextFrame_bounds hframe
  have hcount : Spares s (s.countFrame hdr payload) := Spares.same rfl rfl (tally_of ⟨htotal ▸ hlen, htotal ▸ hmin⟩)
  have hdispatch : Reenters (s.countFrame hdr payload) s' := by
    rw [← h]
    exact keeps_dispatchFrame (P := fun _ => True) dispatches_reenters hcb _ hdr payload trivial
      (reenters_queueFrame _ .pong payload true)
  have hmarks : s.marks <:+ (s'.consumeRecv total).marks :=
    (List.suffix_cons _ _).trans (hdispatch.suffix.trans (List.suffix_cons _ _))
  refine ⟨hmarks, fun hC hs => ?_⟩
  have hrecv : s'.recv = s.recv := by
    obtain ⟨new, hnew, hinner, hdial | hrecv⟩ := hdispatch.marks
    · have hcounted : Counted s'.marks := hC (.consumed :: s'.marks) ((List.mem_tails ..).mpr List.suffix_rfl)
      rw [hnew] at hcounted
      exact absurd hdial (not_dial_of_counted hinner hcounted)
    · exact hrecv
  have hs' := hdispatch.sane (hcount.sane hs)
  have hlen' : total ≤ s'.recv.len := hrecv ▸ hlen
  refine ⟨sane_consumeRecv hs' hlen', ?_⟩
  change sub s'.recv.len total < s.recv.len
  have hsmall := hs'.recv.small
  have hinside := hs'.recv.inside
  have hword : wordSize = 2 ^ 64 := rfl
  rw [sub_of_le (by omega) hlen', hrecv]
  omega

theorem survives_parseLoop (hcb : Keeping Reenters cb) (fuel : Nat) (s : WsSession) :
    s.marks <:+ (parseLoop cb fuel s).marks ∧
      (Undisturbed (parseLoop cb fuel s) → Sane s → s.recv.len < fuel → Sane (parseLoop cb fuel s)) := by
  induction fuel generalizing s with
  | zero => exact ⟨List.suffix_rfl, fun _ _ hfuel => absurd hfuel (Nat.not_lt_zero _)⟩
  | succ fuel ih =>
    rw [parseLoop, countHeader_eq]
    dsimp only
    split
    · exact ⟨s.quiet_compactRecv.marks.suffix, fun _ hs _ => sane_compactRecv hs⟩
    · have hdown := keeps_teardown blocks_reenters hcb s not_live_failed
      exact ⟨hdown.suffix, fun _ hs _ => hdown.sane hs⟩
    · next hdr payload total hframe =>
      obtain ⟨s₁, h⟩ : ∃ s₁, dispatchFrame cb (s.countFrame hdr payload) hdr payload = s₁ := ⟨_, rfl⟩
      obtain ⟨hmarks, hturn⟩ := survives_turn hcb hframe h
      rw [h]
      split
      · obtain ⟨hmarks', hloop⟩ := ih (s₁.consumeRecv total)
        refine ⟨hmarks.trans hmarks', fun hC hs hfuel => ?_⟩
        obtain ⟨hs₁, hless⟩ := hturn (undisturbed_past hmarks' hC) hs
        exact hloop hC hs₁ (by omega)
      · exact ⟨hmarks, fun hC hs _ => (hturn hC hs).1⟩

theorem survives_parseFrames (hcb : Keeping Reenters cb) (s : WsSession) :
    Survives s (parseFrames cb s) := by
  obtain ⟨hmarks, hloop⟩ := survives_parseLoop hcb (s.recv.mem.length + 1) s
  refine ⟨hmarks, fun hC hs => hloop hC hs ?_⟩
  have hinside := hs.recv.inside
  have hbacked := hs.recv.backed
  omega

theorem reenters_keepaliveTurn (s : WsSession) : Reenters s s.keepaliveTurn.2 := by
  have hlog := s.frame_keepaliveTurn.suffix
  have hspares : Spares s s.keepaliveTurn.2 := by
    obtain ⟨clocks, log, h, -⟩ := s.keepaliveTurn_snd
    rw [h]
    exact Spares.same rfl rfl rfl
  obtain ⟨found, s', h⟩ : ∃ found s', s.keepaliveTurn = (found, s') := ⟨_, _, rfl⟩
  rw [h] at hlog hspares ⊢
  rcases marks_keepaliveTurn h with ⟨-, hmarks⟩ | ⟨t, -, hmarks, -⟩ | ⟨t, answer, -, hmarks⟩
  · exact reenters_pooled hlog (hmarks ▸ Pooled.refl _) hspares
  · exact reenters_cons hlog hmarks trivial hspares
  · exact reenters_cons hlog hmarks trivial hspares

theorem above_survives : Above Reenters Survives := ⟨Reenters.survives, Survives.trans⟩

theorem survives_request {ok : Bool} (hset : Reenters (s.enter .upgrading) s')
    (h : s'.queueRequest = (ok, s'')) : Survives s s'' := by
  refine (((reenters_enter s .upgrading).trans hset).survives).trans (survives_still (quiet_queueRequest h) fun hs => ?_)
  exact sanely_queueRequest h hs

theorem drives_survives : Drives Reenters Survives where
  toAbove := above_survives
  toConnects := dials_reenters.lift above_survives
  reconnectDue s _ := by
    refine ⟨s.suffix_reconnectDue, fun _ hs => ?_⟩
    obtain ⟨clocks, delay, h⟩ := s.reconnectDue_snd
    rw [h]
    exact ⟨hs.recv, hs.frag, hs.faults⟩
  pollOpen s := by
    refine survives_still s.quiet_pollOpen fun hs => ?_
    obtain ⟨opens, h⟩ := s.transportPollOpen_snd
    rw [h]
    exact ⟨hs.recv, hs.frag, hs.faults⟩
  request _ hset h := survives_request hset h
  refuse _ hset h := (survives_request hset h).trans (blocks_reenters.down _ not_live_failed).survives
  wait _ h := ⟨suffix_readResponse h, fun _ => sanely_readResponse h⟩
  reject _ h := Survives.trans ⟨suffix_readResponse h, fun _ => sanely_readResponse h⟩
    (blocks_reenters.down _ not_live_failed).survives
  opens := above_survives.opens
    (fun _ h => Survives.trans ⟨suffix_readResponse h, fun _ => sanely_readResponse h⟩ (reenters_enter _ _).survives)
    fun s => by
      have hmarks := s.frame_armPing.marks
      refine ⟨hmarks, fun _ hs => ?_⟩
      obtain ⟨clocks, t, h⟩ := s.armPing_eq
      rw [h]
      exact ⟨hs.recv, hs.frag, hs.faults⟩
  readFrames {s} _ := survives_still s.quiet_readFrames sane_readFrames
  parse hcb _ s _ := survives_parseFrames hcb s
  resume {cb} hcb _ s _ _ := by
    generalize (setState cb s .opened).armPing = s
    have hnote : Survives s (s.note (.resumed s.state)) :=
      ⟨List.suffix_rfl, fun _ hs => ⟨hs.recv, hs.frag, hs.faults⟩⟩
    exact hnote.trans (survives_parseFrames hcb _)
  keepalive hcb _ s _ := Reenters.survives <| keeps_keepalive blocks_reenters hcb (reenters_keepaliveTurn _)
    (fun s' _ => s'.reenters_queueFrame .ping [] true)
    fun _ _ => reenters_pooled List.suffix_rfl (Pooled.refl _) (Spares.same rfl rfl rfl)

theorem survives_run (depth : Nat) (s : WsSession) (calls : List (Api × Env)) : Survives s (run depth s calls) :=
  keeps_run blocks_reenters drives_survives (reenters_callbacks depth)
    (fun _ _ => ⟨List.suffix_rfl, fun _ hs => ⟨hs.recv, hs.frag, hs.faults⟩⟩)
    (fun s a => (reenters_act (reenters_callbacks depth) s a).survives) s calls

/-- No assertion of the buffers has failed, and the payload of every handle lies inside its buffer. -/
structure WellFormed (s : WsSession) : Prop where
  faults : s.faults = 0
  recv : s.recv.head + s.recv.len ≤ s.recv.cap
  frag : s.frag.head + s.frag.len ≤ s.frag.cap
  pending : ∀ p ∈ s.pending.toList, p.buf.head + p.buf.len ≤ p.buf.cap

/-- The buffers of a session whose callbacks connect anew, but not inside a dispatch. -/
theorem wellFormed_run (cfg : Config) (seed : UInt64) (autoReconnect : Bool) (depth : Nat) (calls : List (Api × Env))
    (h : Undisturbed (run depth (fresh cfg seed autoReconnect) calls)) :
    WellFormed (run depth (fresh cfg seed autoReconnect) calls) := by
  have hsane := (survives_run depth _ calls).sane h ⟨IoBuffer.fits_empty, IoBuffer.fits_empty, rfl⟩
  have hstowed := stows_run depth (fresh cfg seed autoReconnect) calls (stowed_of_empty rfl)
  exact ⟨hsane.faults, hsane.recv.inside, hsane.frag.inside, fun p hp => (hstowed p hp).inside⟩

end WsSession

end Lepton.Ws

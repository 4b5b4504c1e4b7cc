import Lepton.WsSession

/-! What the small steps of the session leave alone: between two calls of the user's code each step is
an update of a few fields, named here once so that no later proof unfolds a step for it. -/

namespace Lepton.Ws

variable {s s' : WsSession}

theorem not_live_failed : ¬ WsState.failed.Live := by decide

theorem not_live_disconnected : ¬ WsState.disconnected.Live := by decide

theorem WsState.Up.live {st : WsState} (h : st.Up) : st.Live := by
  rcases h with rfl | rfl
  · decide
  · decide

theorem WsState.Up.not_upgrading {st : WsState} (h : st.Up) : st ≠ .upgrading := by
  rcases h with rfl | rfl
  · nofun
  · nofun

/-- The events of sending and time keeping. -/
def Ev.Routine (inClose : Bool) : Ev → Prop
  | .timedOut | .enqueued _ | .pingDue _ | .pongLate _ => True
  | .written c _ => c = inClose
  | _ => False

/-- The events of receiving and time keeping. -/
def Ev.Passing : Ev → Prop
  | .response _ | .timedOut | .pingDue _ | .pongLate _ | .resumed _ => True
  | _ => False

namespace WsSession

theorem acquire_snd (s : WsSession) (n : Nat) :
    ∃ acquires, (s.acquire n).2
      = { s with
          env := { s.env with acquires := acquires }
          marks := .pool (.acquired (s.acquire n).1.base) :: s.marks } := by
  unfold acquire
  split
  · exact ⟨s.env.acquires, rfl⟩
  · exact ⟨_, rfl⟩
  · exact ⟨_, rfl⟩

theorem acquire_fst {n : Nat} (h : (s.acquire n).1.base ≠ none) :
    ∃ id, (s.acquire n).1 = .blank id s.cfg.cap n := by
  unfold acquire at h ⊢
  split
  · exact ⟨0, rfl⟩
  · next heq =>
    rw [heq] at h
    exact absurd rfl h
  · exact ⟨_, rfl⟩

theorem nextKey_eq (s : WsSession) : ∃ key gen, s.nextKey = (key, { s with maskGen := gen }) := ⟨_, _, rfl⟩

theorem now_snd (s : WsSession) : ∃ clocks, s.now.2 = { s with env := { s.env with clocks := clocks } } := ⟨_, rfl⟩

theorem transportPollOpen_snd (s : WsSession) :
    ∃ opens, s.transportPollOpen.2
      = { s with env := { s.env with opens := opens }, wire := .pollOpen s.transportPollOpen.1 :: s.wire } := by
  unfold transportPollOpen
  split
  · exact ⟨s.env.opens, rfl⟩
  · exact ⟨_, rfl⟩

/-- The session after a read into the rest of the receive buffer, with answer `r`. -/
def heard (s : WsSession) (r : ReadResult) (reads : List ReadResult) (input : List UInt8) : WsSession :=
  { s with
    env := { s.env with reads := reads }
    input := input
    wire := .read s.recv.tailroom r :: s.wire }

/-- A read adds what it returns to the input. -/
theorem transportRead_cases (s : WsSession) :
    ∃ reads, (∃ bytes, bytes.length ≤ s.recv.tailroom ∧
        s.transportRead s.recv.tailroom = (.data bytes, s.heard (.data bytes) reads (s.input ++ bytes))) ∨
      ∃ r, (r = .again ∨ r = .error) ∧ s.transportRead s.recv.tailroom = (r, s.heard r reads s.input) := by
  unfold transportRead
  split
  · exact ⟨s.env.reads, Or.inr ⟨.again, Or.inl rfl, rfl⟩⟩
  · next r rest _ =>
    refine ⟨rest, ?_⟩
    cases r with
    | data bytes => exact Or.inl ⟨_, List.length_take_le _ _, rfl⟩
    | again => exact Or.inr ⟨.again, Or.inl rfl, rfl⟩
    | error => exact Or.inr ⟨.error, Or.inr rfl, rfl⟩

/-- The bytes a write takes. -/
def taken (src : List UInt8) : WriteResult → List UInt8
  | .accepted n => src.take n
  | _ => []

/-- The session after a write of `src` with answer `r`. -/
def wrote (s : WsSession) (src : List UInt8) (r : WriteResult) (writes : List WriteResult) : WsSession :=
  { s with
    env := { s.env with writes := writes }
    output := s.output ++ taken src r
    wire := .write src r :: s.wire
    log := .written s.inClose r :: s.log }

theorem transportWrite_eq (s : WsSession) (src : List UInt8) :
    ∃ r writes, s.transportWrite src = (r, s.wrote src r writes) := by
  have hnone (r : WriteResult) (writes : List WriteResult) (h : taken src r = []) :
      s.wrote src r writes
        = { s with
            env := { s.env with writes := writes }
            wire := .write src r :: s.wire
            log := .written s.inClose r :: s.log } := by
    rw [wrote, h, List.append_nil]
  unfold transportWrite
  split
  · exact ⟨.again, s.env.writes, Prod.ext rfl (hnone .again _ rfl).symm⟩
  · next r answers _ =>
    cases r with
    | accepted n => exact ⟨.accepted n, answers, rfl⟩
    | again => exact ⟨.again, answers, Prod.ext rfl (hnone .again _ rfl).symm⟩
    | error => exact ⟨.error, answers, Prod.ext rfl (hnone .error _ rfl).symm⟩

/-- Every answer but the last takes one from the tape. -/
theorem length_transportWrite (src : List UInt8) (h : (s.transportWrite src).1 ≠ .again) :
    (s.transportWrite src).2.env.writes.length < s.env.writes.length := by
  unfold transportWrite at h ⊢
  split at h
  · exact absurd rfl h
  · next r answers heq =>
    rw [heq]
    cases r with
    | accepted n => exact Nat.lt_succ_self _
    | again => exact Nat.lt_succ_self _
    | error => exact Nat.lt_succ_self _

/-- The poller's entries after `notify_write_interest(true)` for the first buffer of the ring. -/
def armed (s : WsSession) : Interest :=
  if s.pending.count = 0 then (s.notifyWriteInterest true).interest else s.interest

theorem pushPending_cases {b : IoBuffer} {ok : Bool} (h : s.pushPending b = (ok, s')) :
    (ok = false ∧ s.pending.push { buf := b } = none ∧ s' = s) ∨
    (ok = true ∧ ∃ ring, s.pending.push { buf := b } = some ring ∧ s' = { s with pending := ring, interest := s.armed }) := by
  unfold pushPending at h
  split at h
  · next hfull =>
    cases h
    exact Or.inl ⟨rfl, hfull, rfl⟩
  · next ring hring =>
    cases h
    refine Or.inr ⟨rfl, ring, hring, ?_⟩
    unfold armed
    split
    · rfl
    · rfl

theorem shutDown_eq (s : WsSession) (next : WsState) :
    ∃ clocks t, s.shutDown next
      = { s.transportClose with
          pending := s.pending.drain
          frag := s.frag.release
          env := { s.env with clocks := clocks }
          reconnectAtNs := t
          marks := (s.shutDown next).marks } := by
  unfold shutDown
  dsimp only
  split
  · obtain ⟨clocks, h⟩ := now_snd { s.transportClose.drainPending with
      frag := s.frag.release, marks := s.frag.released.map .pool ++ s.drainPending.marks }
    rw [h]
    exact ⟨clocks, _, rfl⟩
  · exact ⟨s.env.clocks, s.reconnectAtNs, rfl⟩

/-- The unsent part of the pending slot in front. -/
def unsentFront (s : WsSession) : List UInt8 := s.pending.front.buf.bytes.drop s.pending.front.sent

/-- What a turn of the loop of `flush_pending` can do. -/
theorem flushTurn_cases {turn : FlushTurn} (h : s.flushTurn = (turn, s')) :
    (s.pending.count = 0 ∧ turn = .stop ∧ s' = { s with interest := (s.notifyWriteInterest false).interest }) ∨
    (s.pending.count ≠ 0 ∧ ∃ r writes,
      (r = .again ∧ turn = .stop ∧ s' = s.wrote s.unsentFront r writes) ∨
      (r = .error ∧ turn = .fatal ∧ s' = s.wrote s.unsentFront r writes) ∨
      (∃ n, r = .accepted n ∧ s.pending.front.buf.len ≤ s.pending.front.sent + n ∧
        turn = (if s.state = .closing ∧ s.pending.pop.count = 0 then .finished else .more) ∧
        s' = { s.wrote s.unsentFront r writes with
               pending := s.pending.pop, marks := s.pending.front.buf.released.map .pool ++ s.marks }) ∨
      (∃ n, r = .accepted n ∧ s.pending.front.sent + n < s.pending.front.buf.len ∧ turn = .stop ∧
        s' = { s.wrote s.unsentFront r writes with
               pending := s.pending.setFront { s.pending.front with sent := s.pending.front.sent + n } })) := by
  unfold flushTurn at h
  split at h
  · next hcount =>
    cases h
    exact Or.inl ⟨hcount, rfl, rfl⟩
  · next hcount =>
    obtain ⟨r, writes, hw⟩ := s.transportWrite_eq s.unsentFront
    refine Or.inr ⟨hcount, r, writes, ?_⟩
    dsimp only at h
    rw [unsentFront] at hw
    rw [hw] at h
    cases r with
    | again =>
      cases h
      exact Or.inl ⟨rfl, rfl, rfl⟩
    | error =>
      cases h
      exact Or.inr (Or.inl ⟨rfl, rfl, rfl⟩)
    | accepted n =>
      dsimp only at h
      split at h
      · next hlen =>
        cases h
        exact Or.inr (Or.inr (Or.inl ⟨n, rfl, hlen, rfl, rfl⟩))
      · next hlen =>
        cases h
        exact Or.inr (Or.inr (Or.inr ⟨n, rfl, by omega, rfl, rfl⟩))

theorem flushTurn_snd (s : WsSession) :
    (∃ interest, s.flushTurn.2 = { s with interest := interest } ∧ interest = (s.notifyWriteInterest false).interest) ∨
    (s.pending.count ≠ 0 ∧
      ∃ r writes pending, s.flushTurn.2
        = { s.wrote s.unsentFront r writes with pending := pending, marks := s.flushTurn.2.marks }) := by
  obtain ⟨turn, s', hturn⟩ : ∃ turn s', s.flushTurn = (turn, s') := ⟨_, _, rfl⟩
  rw [hturn]
  obtain ⟨-, -, h⟩ | ⟨hcount, r, writes, h⟩ := flushTurn_cases hturn
  · exact Or.inl ⟨_, h, rfl⟩
  · refine Or.inr ⟨hcount, r, writes, ?_⟩
    rcases h with ⟨-, -, h⟩ | ⟨-, -, h⟩ | ⟨n, -, -, -, h⟩ | ⟨n, -, -, -, h⟩
    · exact ⟨s.pending, by rw [h]; rfl⟩
    · exact ⟨s.pending, by rw [h]; rfl⟩
    · exact ⟨_, by rw [h]⟩
    · exact ⟨_, by rw [h]⟩

theorem flushTurn_fields {turn : FlushTurn} (h : s.flushTurn = (turn, s')) :
    s'.state = s.state ∧ s'.linked = s.linked ∧ s'.inClose = s.inClose := by
  obtain rfl : s.flushTurn.2 = s' := congrArg Prod.snd h
  rcases s.flushTurn_snd with ⟨interest, hs, -⟩ | ⟨-, r, writes, pending, hs⟩
  · rw [hs]
    exact ⟨rfl, rfl, rfl⟩
  · rw [hs]
    exact ⟨rfl, rfl, rfl⟩

theorem flushTurn_fatal (h : s.flushTurn = (.fatal, s')) :
    s'.log = .written s.inClose .error :: s.log ∧ s'.wire = .write s.unsentFront .error :: s.wire := by
  rcases flushTurn_cases h with ⟨-, hturn, -⟩ | ⟨-, r, writes, h⟩
  · cases hturn
  · rcases h with ⟨-, hturn, -⟩ | ⟨rfl, -, rfl⟩ | ⟨n, -, -, hturn, -⟩ | ⟨n, -, -, hturn, -⟩
    · cases hturn
    · exact ⟨rfl, rfl⟩
    · split at hturn <;> cases hturn
    · cases hturn

/-- The tape of answers gets shorter with every turn that is not the last. -/
theorem flushTurn_more (h : s.flushTurn = (.more, s')) :
    s'.env.writes.length < s.env.writes.length := by
  unfold flushTurn at h
  split at h
  · cases h
  · have htape := length_transportWrite (s := s) s.unsentFront
    unfold unsentFront at htape
    dsimp only at h
    split at h
    · cases h
    · cases h
    · next n s₁ heq =>
      rw [heq] at htape
      split at h
      · obtain ⟨-, rfl⟩ := Prod.mk.inj h
        exact htape nofun
      · cases h

theorem flushTurn_finished (h : s.flushTurn = (.finished, s')) : s.state = .closing := by
  rcases flushTurn_cases h with ⟨-, hturn, -⟩ | ⟨-, r, writes, h⟩
  · cases hturn
  · rcases h with ⟨-, hturn, -⟩ | ⟨-, hturn, -⟩ | ⟨n, -, -, hturn, -⟩ | ⟨n, -, -, hturn, -⟩
    · cases hturn
    · cases hturn
    · split at hturn
      · next hclosing => exact hclosing.1
      · cases hturn
    · cases hturn

theorem acquire_none (h : s.env.acquires.head? = some none) (n : Nat) :
    s.acquire n =
      ({}, { s with
             env := { s.env with acquires := s.env.acquires.tail }, marks := .pool (.acquired none) :: s.marks }) := by
  unfold acquire
  split
  · next heq =>
    rw [heq] at h
    cases h
  · next heq =>
    rw [heq]
    rfl
  · next heq =>
    rw [heq] at h
    cases h

theorem acquire_some (h : s.env.acquires.head? ≠ some none) (n : Nat) :
    ∃ id, s.acquire n =
      (.blank id s.cfg.cap n,
        { s with
          env := { s.env with acquires := s.env.acquires.tail }
          marks := .pool (.acquired (some id)) :: s.marks }) := by
  unfold acquire
  split
  · next heq =>
    refine ⟨0, ?_⟩
    rw [heq, List.tail_nil, ← heq]
    rfl
  · next heq =>
    rw [heq] at h
    exact absurd rfl h
  · next id rest heq =>
    refine ⟨id, ?_⟩
    rw [heq]
    rfl

/-- The session behind a refusal: the pool was called, and a key was drawn or not. -/
def refused (s : WsSession) (gen : UInt64) (calls : List PoolCall) : WsSession :=
  { s with
    env := { s.env with acquires := s.env.acquires.tail }
    maskGen := gen
    log := .enqueued s.state :: s.log
    marks := calls.map .pool ++ s.marks }

/-- The session with a frame queued in the buffer `id`. -/
def queued (s : WsSession) (gen : UInt64) (id : Nat) (ring : Ring Pending kMaxPending) (f : Ws.Frame) : WsSession :=
  { s with
    env := { s.env with acquires := s.env.acquires.tail }
    maskGen := gen
    pending := ring
    interest := s.armed
    frames := s.frames ++ [f]
    log := .enqueued s.state :: s.log
    marks := .pool (.acquired (some id)) :: s.marks }

/-- What is left behind the front reserved for a header. -/
theorem tailroom_reserved (cfg : Config) (id n : Nat) :
    (IoBuffer.blank id cfg.cap (wsClientHeaderSize n)).tailroom = cfg.cap - wsClientHeaderSize n := by
  have hsize := wsClientHeaderSize_le n
  have hmin := cfg.cap_ge
  have hfits : (IoBuffer.blank id cfg.cap (wsClientHeaderSize n)).Fits := IoBuffer.fits_blank (by omega) cfg.cap_lt
  exact hfits.tailroom_eq

/-- **What `enqueue_frame` does up to its flush**: no buffer, a payload too large for it, no slot, or one more frame. -/
theorem queueFrame_outcome (s : WsSession) (opcode : WsOpcode) (payload : List UInt8) (fin : Bool) :
    (s.env.acquires.head? = some none ∧
      s.queueFrame opcode payload fin = (.wouldBlock, s.refused s.maskGen [.acquired none])) ∨
    s.env.acquires.head? ≠ some none ∧ ∃ id,
      (s.cfg.cap < payload.length + wsClientHeaderSize payload.length ∧
        s.queueFrame opcode payload fin =
          (.tooLarge, s.refused s.maskGen [.released id, .acquired (some id)])) ∨
      payload.length + wsClientHeaderSize payload.length ≤ s.cfg.cap ∧ ∃ key gen,
        (kMaxPending ≤ s.pending.count ∧
          s.queueFrame opcode payload fin = (.wouldBlock, s.refused gen [.released id, .acquired (some id)])) ∨
        ∃ ring,
          let f : Ws.Frame := { opcode := opcode, payload := payload, key := keyBytes key, fin := fin }
          let b := frameBuffer (.blank id s.cfg.cap (wsClientHeaderSize payload.length)) f
          s.pending.push { buf := b } = some ring ∧
            s.queueFrame opcode payload fin = (.ok, s.queued gen id ring f) := by
  obtain ⟨status, s', h⟩ : ∃ status s', s.queueFrame opcode payload fin = (status, s') := ⟨_, _, rfl⟩
  rw [h]
  unfold queueFrame at h
  dsimp only at h
  by_cases hpool : s.env.acquires.head? = some none
  · refine Or.inl ⟨hpool, ?_⟩
    have hacquire := acquire_none (s := s.note (.enqueued s.state)) hpool (wsClientHeaderSize payload.length)
    rw [hacquire] at h
    exact h.symm
  · refine Or.inr ⟨hpool, ?_⟩
    obtain ⟨id, hacquire⟩ := acquire_some (s := s.note (.enqueued s.state)) hpool (wsClientHeaderSize payload.length)
    obtain ⟨b, s₁, hpair⟩ : ∃ b s₁, (s.note (.enqueued s.state)).acquire (wsClientHeaderSize payload.length) = (b, s₁) :=
      ⟨_, _, rfl⟩
    rw [hpair] at h hacquire
    obtain ⟨hb, hs₁⟩ := Prod.mk.inj hacquire
    have hsize := wsClientHeaderSize_le payload.length
    have hmin := s.cfg.cap_ge
    have htail : b.tailroom = s.cfg.cap - wsClientHeaderSize payload.length := by
      rw [hb]
      exact tailroom_reserved s.cfg id payload.length
    refine ⟨id, ?_⟩
    dsimp only at h
    split at h
    · next hbase =>
      rw [hb] at hbase
      cases hbase
    · split at h
      · next hlarge =>
        refine Or.inl ⟨by omega, ?_⟩
        rw [← h, hb, hs₁]
        rfl
      · next hroom =>
        refine Or.inr ⟨by omega, ?_⟩
        obtain ⟨key, gen, hkey⟩ := s₁.nextKey_eq
        have htally : tally (tally s₁.faults (payload.length ≤ b.tailroom))
            (wsClientHeaderSize payload.length ≤ b.head) = s₁.faults := by
          have hhead : wsClientHeaderSize payload.length ≤ b.head := by
            rw [hb]
            exact Nat.le_refl _
          rw [tally, if_pos hhead, tally, if_pos (Nat.not_lt.mp hroom)]
        rw [hkey] at h
        dsimp only at h
        rw [htally, if_neg (not_not.mpr (length_wsEncodeClientHeader (Nat.le_refl _) (length_keyBytes key)))] at h
        refine ⟨key, gen, ?_⟩
        split at h
        · next s₂ hpush =>
          obtain ⟨hfalse, -⟩ | ⟨-, ring, hring, hs₂⟩ := pushPending_cases hpush
          · cases hfalse
          · right
            rw [hb, hs₁] at hring
            refine ⟨ring, hring, ?_⟩
            rw [← h, hs₂, hs₁]
            rfl
        · next s₂ hpush =>
          obtain ⟨-, hfull, rfl⟩ | ⟨htrue, -⟩ := pushPending_cases hpush
          · left
            rw [← Option.not_isSome_iff_eq_none, Ring.push_isSome, hs₁, not_lt] at hfull
            refine ⟨hfull, ?_⟩
            rw [← h, hb, hs₁]
            rfl
          · cases htrue

/-- What `enqueue_frame` can do up to its flush: the frame is refused, or it is the last of the ring. -/
theorem queueFrame_cases {opcode : WsOpcode} {payload : List UInt8} {fin : Bool}
    {status : SendStatus} (h : s.queueFrame opcode payload fin = (status, s')) :
    ∃ acquires gen faults,
      (status ≠ .ok ∧ s' =
        { s with
          env := { s.env with acquires := acquires }
          maskGen := gen
          faults := faults
          log := .enqueued s.state :: s.log
          marks := (s.queueFrame opcode payload fin).2.marks }) ∨
      (status = .ok ∧ ∃ id key ring, let b := IoBuffer.blank id s.cfg.cap (wsClientHeaderSize payload.length)
        let f : Ws.Frame := { opcode := opcode, payload := payload, key := keyBytes key, fin := fin }
        payload.length ≤ b.tailroom ∧ s.pending.push { buf := frameBuffer b f } = some ring ∧ s' =
          { s with
            env := { s.env with acquires := acquires }
            maskGen := gen
            faults := faults
            pending := ring
            interest := s.armed
            frames := s.frames ++ [f]
            log := .enqueued s.state :: s.log
            marks := (s.queueFrame opcode payload fin).2.marks }) := by
  rw [h]
  obtain ⟨-, hqueue⟩ | ⟨-, id, ⟨-, hqueue⟩ | ⟨hroom, key, gen, ⟨-, hqueue⟩ | ⟨ring, hpush, hqueue⟩⟩⟩ :=
    s.queueFrame_outcome opcode payload fin
  · cases h.symm.trans hqueue
    exact ⟨_, _, _, Or.inl ⟨nofun, rfl⟩⟩
  · cases h.symm.trans hqueue
    exact ⟨_, _, _, Or.inl ⟨nofun, rfl⟩⟩
  · cases h.symm.trans hqueue
    exact ⟨_, _, _, Or.inl ⟨nofun, rfl⟩⟩
  · cases h.symm.trans hqueue
    refine ⟨_, _, _, Or.inr ⟨rfl, id, key, ring, ?_, hpush, rfl⟩⟩
    rw [tailroom_reserved]
    omega

/-- A frame is queued exactly if it fits a buffer and there are a buffer and a slot for it. -/
theorem queueFrame_ok_iff {opcode : WsOpcode} {payload : List UInt8} {fin : Bool} :
    (s.queueFrame opcode payload fin).1 = .ok ↔
      s.env.acquires.head? ≠ some none ∧ payload.length + wsClientHeaderSize payload.length ≤ s.cfg.cap ∧
        s.pending.count < kMaxPending := by
  obtain ⟨hpool, hqueue⟩ | ⟨hpool, id, ⟨hlarge, hqueue⟩ | ⟨hroom, key, gen, ⟨hfull, hqueue⟩ | ⟨ring, hpush, hqueue⟩⟩⟩ :=
    s.queueFrame_outcome opcode payload fin
  · rw [hqueue]
    exact ⟨nofun, fun h => absurd hpool h.1⟩
  · rw [hqueue]
    exact ⟨nofun, fun h => absurd h.2.1 (Nat.not_le.mpr hlarge)⟩
  · rw [hqueue]
    exact ⟨nofun, fun h => absurd h.2.2 (Nat.not_lt.mpr hfull)⟩
  · rw [hqueue]
    exact ⟨fun _ => ⟨hpool, hroom, Ring.push_isSome.mp (Option.isSome_of_eq_some hpush)⟩, fun _ => rfl⟩

theorem queueFrame_snd (s : WsSession) (opcode : WsOpcode) (payload : List UInt8) (fin : Bool) :
    ∃ acquires gen faults pending interest frames, (s.queueFrame opcode payload fin).2
      = { s with
          env := { s.env with acquires := acquires }
          maskGen := gen
          faults := faults
          pending := pending
          interest := interest
          frames := frames
          log := .enqueued s.state :: s.log
          marks := (s.queueFrame opcode payload fin).2.marks } ∧ (interest = s.interest ∨ interest = s.armed) := by
  obtain ⟨acquires, gen, faults, ⟨-, h⟩ | ⟨-, id, key, ring, -, -, h⟩⟩ :=
    queueFrame_cases (rfl : s.queueFrame opcode payload fin = (_, _))
  · exact ⟨acquires, gen, faults, s.pending, s.interest, s.frames, h, Or.inl rfl⟩
  · exact ⟨acquires, gen, faults, ring, s.armed, _, h, Or.inr rfl⟩

theorem armDeadline_eq (s : WsSession) :
    ∃ clocks t, s.armDeadline = { s with env := { s.env with clocks := clocks }, connectDeadlineNs := t } := by
  unfold armDeadline
  split
  · obtain ⟨clocks, h⟩ := s.now_snd
    dsimp only
    rw [h]
    exact ⟨clocks, _, rfl⟩
  · exact ⟨s.env.clocks, 0, rfl⟩

theorem armPing_eq (s : WsSession) :
    ∃ clocks t, s.armPing
      = { s with env := { s.env with clocks := clocks }, awaitingPong := false, nextPingAtNs := t } := by
  unfold armPing
  dsimp only
  split
  · obtain ⟨clocks, h⟩ := now_snd { s with awaitingPong := false }
    rw [h]
    exact ⟨clocks, _, rfl⟩
  · exact ⟨s.env.clocks, s.nextPingAtNs, rfl⟩

theorem compactRecv_eq (s : WsSession) : ∃ recv faults, s.compactRecv = { s with recv := recv, faults := faults } := by
  unfold compactRecv
  split
  · exact ⟨_, s.faults, rfl⟩
  · split
    · exact ⟨s.recv, s.faults, rfl⟩
    · exact ⟨_, _, rfl⟩

theorem enter_eq (s : WsSession) (st : WsState) :
    ∃ log, s.enter st = { s with state := st, log := log } ∧
      (log = s.log ∧ s.state = st ∨ log = .changed st :: s.log) := by
  unfold enter
  split
  · next heq =>
    subst heq
    exact ⟨s.log, rfl, Or.inl ⟨rfl, rfl⟩⟩
  · exact ⟨_, rfl, Or.inr rfl⟩

theorem enter_state (s : WsSession) (st : WsState) : (s.enter st).state = st := by
  obtain ⟨log, h, -⟩ := s.enter_eq st
  rw [h]

theorem enter_marks (s : WsSession) (st : WsState) : (s.enter st).marks = s.marks := by
  obtain ⟨log, h, -⟩ := s.enter_eq st
  rw [h]

theorem enter_log (s : WsSession) (st : WsState) : s.log <:+ (s.enter st).log := by
  obtain ⟨log, h, hlog⟩ := s.enter_eq st
  rw [h]
  rcases hlog with ⟨rfl, -⟩ | rfl
  · exact List.suffix_rfl
  · exact List.suffix_cons _ _

theorem transportConnect_false (h : s.transportConnect.1 = false) :
    ∃ connects, s.transportConnect.2
      = { s.transportClose with env := { s.env with connects := connects }, wire := .connect false :: s.wire } := by
  unfold transportConnect at h ⊢
  split
  · next heq =>
    rw [heq] at h
    cases h
  · exact ⟨_, rfl⟩

theorem transportConnect_true (h : s.transportConnect.1 = true) :
    ∃ connects fd, s.transportConnect.2
      = { s.transportClose with
          env := { s.env with connects := connects }
          fd := some fd, linked := true
          request := [], frames := [], said := [], output := [], input := [], received := [], messages := []
          wire := .connect true :: s.wire
          log := .dialed s.registered :: s.log } := by
  unfold transportConnect at h ⊢
  split
  · exact ⟨_, _, rfl⟩
  · next hne =>
    split at h
    · next heq => exact absurd heq (hne _ _)
    · cases h

theorem register_eq (s : WsSession) :
    (s.registered = true ∧ s.register = s) ∨
      (s.registered = false ∧ ∃ ok adds interest, s.register
        = { s with
            env := { s.env with adds := adds }
            registered := ok, interest := interest
            log := .added ok :: s.log }) := by
  unfold register
  split
  · next h => exact Or.inl ⟨h, rfl⟩
  · next h =>
    refine Or.inr ⟨by simpa using h, ?_⟩
    unfold loopAdd
    split
    · exact ⟨true, s.env.adds, s.interest, rfl⟩
    · split
      · exact ⟨false, s.env.adds, s.interest, rfl⟩
      · exact ⟨false, _, s.interest, rfl⟩
      · exact ⟨true, _, _, rfl⟩

/-- A new registration with the poller is one of the transport's descriptor. -/
theorem register_listed (hpoller : s.cfg.busyPoll = false) (hnew : s.registered = false)
    (hdone : s.register.registered = true) : ∃ fd, s.fd = some fd ∧ (s.register.interest fd).isSome := by
  have hregister : s.register = s.loopAdd := by
    rw [register, hnew]
    rfl
  revert hdone
  rw [hregister]
  unfold loopAdd
  rw [hpoller, if_neg Bool.false_ne_true]
  split
  · exact nofun
  · exact nofun
  · next fd hfd _ =>
    refine fun _ => ⟨fd, hfd, ?_⟩
    change (s.interest.add fd s.wantsWrite fd).isSome = true
    rw [Interest.add, Function.update_self]
    rfl

theorem openFragment_snd (s : WsSession) (op : WsOpcode) :
    ∃ acquires frag fragOpcode, (s.openFragment op).2
      = { s with
          env := { s.env with acquires := acquires }
          frag := frag, fragOpcode := fragOpcode
          marks := (s.openFragment op).2.marks } := by
  have hfrag : ∃ acquires frag marks, (if s.frag.base = none then { (s.acquire 0).2 with frag := (s.acquire 0).1 } else s)
      = { s with env := { s.env with acquires := acquires }, frag := frag, marks := marks } := by
    split
    · obtain ⟨acquires, h⟩ := s.acquire_snd 0
      rw [h]
      exact ⟨acquires, _, _, rfl⟩
    · exact ⟨s.env.acquires, s.frag, s.marks, rfl⟩
  obtain ⟨acquires, frag, marks, h⟩ := hfrag
  unfold openFragment
  dsimp only
  rw [h]
  split
  · exact ⟨acquires, frag, s.fragOpcode, rfl⟩
  · exact ⟨acquires, _, op, rfl⟩

theorem storeFragment_snd (s : WsSession) (chunk : List UInt8) :
    ∃ frag faults, (s.storeFragment chunk).2 = { s with frag := frag, faults := faults } := by
  unfold storeFragment
  split
  · exact ⟨s.frag, s.faults, rfl⟩
  · split
    · exact ⟨s.frag, s.faults, rfl⟩
    · exact ⟨_, _, rfl⟩

theorem keepaliveTurn_snd (s : WsSession) :
    ∃ clocks log, s.keepaliveTurn.2
        = { s with env := { s.env with clocks := clocks }, log := log, marks := s.keepaliveTurn.2.marks } ∧
      (log = s.log ∧ s.keepaliveTurn.1 = .idle ∨ log = .pingDue s.state :: s.log ∧ s.keepaliveTurn.1 ≠ .stale ∨
        log = .timedOut :: .pongLate s.state :: s.log) := by
  unfold keepaliveTurn
  split
  · exact ⟨s.env.clocks, s.log, rfl, Or.inl ⟨rfl, rfl⟩⟩
  · obtain ⟨clocks, h⟩ := s.now_snd
    dsimp only
    rw [h]
    refine ⟨clocks, ?_⟩
    dsimp only
    split
    · split
      · exact ⟨_, rfl, Or.inr (Or.inr rfl)⟩
      · exact ⟨_, rfl, Or.inl ⟨rfl, rfl⟩⟩
    · split
      · exact ⟨_, rfl, Or.inr (Or.inl ⟨rfl, nofun⟩)⟩
      · exact ⟨_, rfl, Or.inl ⟨rfl, rfl⟩⟩

theorem keepaliveTurn_due {t : Int} (h : s.keepaliveTurn = (.due t, s')) :
    ∃ clocks, s'
      = { s with
          env := { s.env with clocks := clocks }
          log := .pingDue s.state :: s.log
          marks := s.keepaliveTurn.2.marks } := by
  rw [h]
  unfold keepaliveTurn at h
  split at h
  · cases h
  · obtain ⟨clocks, hnow⟩ := s.now_snd
    dsimp only at h
    rw [hnow] at h
    split at h
    · split at h
      · cases h
      · cases h
    · split at h
      · cases h
        exact ⟨clocks, rfl⟩
      · cases h

theorem deadlinePassed_snd (s : WsSession) :
    ∃ clocks log, s.deadlinePassed.2 = { s with env := { s.env with clocks := clocks }, log := log } ∧
      (log = s.log ∨ log = .timedOut :: s.log) := by
  unfold deadlinePassed
  split
  · obtain ⟨clocks, h⟩ := s.now_snd
    dsimp only
    rw [h]
    refine ⟨clocks, ?_⟩
    dsimp only
    split
    · exact ⟨_, rfl, Or.inr rfl⟩
    · exact ⟨_, rfl, Or.inl rfl⟩
  · exact ⟨s.env.clocks, s.log, rfl, Or.inl rfl⟩

theorem reconnectDue_snd (s : WsSession) :
    ∃ clocks delay, s.reconnectDue.2
      = { s with
          env := { s.env with clocks := clocks }
          reconnectDelayNs := delay
          marks := s.reconnectDue.2.marks } := by
  unfold reconnectDue
  split
  · exact ⟨s.env.clocks, s.reconnectDelayNs, rfl⟩
  · obtain ⟨clocks, h⟩ := s.now_snd
    dsimp only
    rw [h]
    refine ⟨clocks, ?_⟩
    dsimp only
    split
    · exact ⟨s.reconnectDelayNs, rfl⟩
    · exact ⟨_, rfl⟩

theorem takeRecv_snd (s : WsSession) :
    ∃ acquires recv, s.takeRecv.2
      = { s with
          env := { s.env with acquires := acquires }
          pending := s.pending.drain, recv := recv, frag := s.frag.release
          marks := s.takeRecv.2.marks } := by
  unfold takeRecv
  obtain ⟨acquires, h⟩ := s.releaseBuffers.acquire_snd 0
  dsimp only
  rw [h]
  dsimp only [releaseBuffers, drainPending]
  exact ⟨acquires, _, rfl⟩

/-- The session that dials. -/
theorem armed_snd {ok : Bool} (h : s.takeRecv = (ok, s')) :
    ∃ acquires clocks deadline, s'.armDeadline
      = { s with
          env := { s.env with acquires := acquires, clocks := clocks }
          pending := s.pending.drain, recv := s'.recv, frag := s.frag.release, connectDeadlineNs := deadline
          marks := s'.marks } := by
  obtain ⟨acquires, recv, htake⟩ := s.takeRecv_snd
  rw [h] at htake
  change s' = _ at htake
  obtain ⟨clocks, deadline, harm⟩ := s'.armDeadline_eq
  rw [harm, htake]
  exact ⟨acquires, clocks, deadline, rfl⟩

theorem tryDial_starved (h : s.tryDial = (.starved, s')) :
    ∃ acquires recv, s'
      = { s with
          env := { s.env with acquires := acquires }
          pending := s.pending.drain, recv := recv, frag := s.frag.release
          log := .starved s.linked :: s.log
          marks := s.tryDial.2.marks } := by
  rw [h]
  unfold tryDial at h
  split at h
  · next s₁ heq =>
    cases h
    obtain ⟨acquires, recv, htake⟩ := (s.mark .dial).takeRecv_snd
    rw [heq] at htake
    change s₁ = _ at htake
    rw [htake]
    exact ⟨acquires, recv, rfl⟩
  · split at h <;> cases h

theorem tryDial_refused (h : s.tryDial = (.refused, s')) :
    ∃ env recv deadline, env.scripts = s.env.scripts ∧ s'
      = { s.transportClose with
          env := env, pending := s.pending.drain, recv := recv, frag := s.frag.release
          connectDeadlineNs := deadline
          wire := .connect false :: s.wire
          marks := s.tryDial.2.marks } := by
  rw [h]
  unfold tryDial at h
  split at h
  · cases h
  · next s₁ heq =>
    obtain ⟨acquires, clocks, deadline, harm⟩ := armed_snd heq
    split at h
    · cases h
    · next hconn =>
      cases h
      obtain ⟨connects, hs⟩ := transportConnect_false (s := s₁.armDeadline) (by rw [hconn])
      rw [hconn, harm] at hs
      change s' = _ at hs
      rw [hs]
      refine ⟨{ s.env with acquires := acquires, clocks := clocks, connects := connects }, s₁.recv, deadline, rfl, ?_⟩
      rfl

theorem tryDial_dialed (h : s.tryDial = (.dialed, s')) :
    ∃ env deadline fd, env.scripts = s.env.scripts ∧ s'
      = { s.transportClose with
          env := env, pending := s.pending.drain, recv := s'.recv, frag := s.frag.release
          connectDeadlineNs := deadline
          fd := some fd, linked := true
          request := [], frames := [], said := [], output := [], input := [], received := [], messages := []
          wire := .connect true :: s.wire
          log := .dialed s.registered :: s.log
          marks := s.tryDial.2.marks } := by
  rw [h]
  unfold tryDial at h
  split at h
  · cases h
  · next s₁ heq =>
    obtain ⟨acquires, clocks, deadline, harm⟩ := armed_snd heq
    split at h
    · next hconn =>
      cases h
      obtain ⟨connects, fd, hs⟩ := transportConnect_true (s := s₁.armDeadline) (by rw [hconn])
      rw [hconn, harm] at hs
      change s' = _ at hs
      rw [hs]
      refine ⟨{ s.env with acquires := acquires, clocks := clocks, connects := connects }, deadline, fd, rfl, ?_⟩
      rfl
    · cases h

theorem tryDial_recv (h : s.tryDial = (.dialed, s')) : ∃ id, s'.recv = .blank id s.cfg.cap 0 := by
  unfold tryDial at h
  split at h
  · cases h
  · next s₁ heq =>
    have hbase : ((s.mark .dial).releaseBuffers.acquire 0).1.base ≠ none := by
      intro hnone
      have hfirst := congrArg Prod.fst heq
      change ((s.mark .dial).releaseBuffers.acquire 0).1.base.isSome = true at hfirst
      rw [hnone] at hfirst
      cases hfirst
    obtain ⟨id, hid⟩ := acquire_fst hbase
    have hrecv : s₁.recv = .blank id s.cfg.cap 0 := by
      have hsecond := congrArg (fun r : Bool × WsSession => r.2.recv) heq
      change ((s.mark .dial).releaseBuffers.acquire 0).1.reset 0 = s₁.recv at hsecond
      rw [← hsecond, hid]
      rfl
    obtain ⟨acquires, clocks, deadline, harm⟩ := armed_snd heq
    split at h
    · next hconn =>
      cases h
      obtain ⟨connects, fd, hs⟩ := transportConnect_true (s := s₁.armDeadline) (by rw [hconn])
      rw [hconn, harm] at hs
      change s' = _ at hs
      rw [hs]
      exact ⟨id, hrecv⟩
    · cases h

/-- What `send_upgrade_request` can do up to its flush: it fails, or the request is the last of the ring,
or a full ring drops it. -/
theorem queueRequest_cases {ok : Bool} (h : s.queueRequest = (ok, s')) :
    ∃ acquires faults, let s₁ : WsSession :=
        { s with
          env := { s.env with acquires := acquires }
          recv := s.recv.reset 0, input := []
          faults := faults
          log := .requested s.state (s.pending.count < kMaxPending) :: s.log
          marks := s.queueRequest.2.marks }
      s' = s₁ ∧ (ok = true → s.pending.count = kMaxPending) ∨
      (ok = true ∧ ∃ id text ring,
        buildWsUpgrade (IoBuffer.blank id s.cfg.cap 0).tailroom s.cfg.host s.cfg.path s.cfg.secKey = some text ∧
        s.pending.push { buf := (IoBuffer.blank id s.cfg.cap 0).append text } = some ring ∧
        s' = { s₁ with pending := ring, interest := s.armed, request := text }) := by
  obtain ⟨acquires, hs⟩ := acquire_snd
    { s.note (.requested s.state (s.pending.count < kMaxPending)) with recv := s.recv.reset 0, input := [] } 0
  rw [h]
  unfold queueRequest at h
  dsimp only at h
  rw [hs] at h
  refine ⟨acquires, s'.faults, ?_⟩
  split at h
  · cases h
    exact Or.inl ⟨rfl, nofun⟩
  · next hbase =>
    obtain ⟨id, hid⟩ := acquire_fst hbase
    rw [hid] at h
    split at h
    · cases h
      exact Or.inl ⟨rfl, nofun⟩
    · next text htext =>
      split at h
      · next s₁ hpush =>
        cases h
        obtain ⟨hfalse, -⟩ | ⟨-, ring, hring, hs₁⟩ := pushPending_cases hpush
        · cases hfalse
        · rw [hs₁]
          exact Or.inr ⟨rfl, id, text, ring, htext, hring, rfl⟩
      · next s₁ hpush =>
        cases h
        obtain ⟨-, hfull, rfl⟩ | ⟨htrue, -⟩ := pushPending_cases hpush
        · exact Or.inl ⟨rfl, fun _ => Ring.count_of_push_none hfull⟩
        · cases htrue

theorem queueRequest_snd {ok : Bool} (h : s.queueRequest = (ok, s')) :
    ∃ acquires faults pending interest request marks, s'
      = { s with
          env := { s.env with acquires := acquires }
          recv := s.recv.reset 0, input := []
          faults := faults
          pending := pending, interest := interest, request := request
          log := .requested s.state (s.pending.count < kMaxPending) :: s.log
          marks := marks } ∧ (interest = s.interest ∨ interest = s.armed) := by
  obtain ⟨acquires, faults, ⟨h, -⟩ | ⟨-, id, text, ring, -, -, h⟩⟩ := queueRequest_cases h
  · exact ⟨acquires, faults, s.pending, s.interest, s.request, _, h, Or.inl rfl⟩
  · exact ⟨acquires, faults, ring, s.armed, text, _, h, Or.inr rfl⟩

/-- What a read for frames can do. -/
theorem readFrames_cases {r : Reading} (h : s.readFrames = (r, s')) :
    (s.recv.tailroom = 0 ∧ r = .broken ∧ s' = s) ∨
    ∃ reads,
      (r = .wait ∧ s' = s.heard .again reads s.input) ∨
      (r = .broken ∧ s' = s.heard .error reads s.input) ∨
      (r = .ended ∧ s' = s.heard (.data []) reads (s.input ++ [])) ∨
      ∃ bytes, bytes ≠ [] ∧ bytes.length ≤ s.recv.tailroom ∧ r = .got ∧
        s' = (s.heard (.data bytes) reads (s.input ++ bytes)).appendRecv bytes := by
  unfold readFrames at h
  split at h
  · next hfull =>
    cases h
    exact Or.inl ⟨hfull, rfl, rfl⟩
  · obtain ⟨reads, ⟨bytes, hlen, hread⟩ | ⟨answer, hanswer, hread⟩⟩ := s.transportRead_cases
    · rw [hread] at h
      dsimp only at h
      refine Or.inr ⟨reads, Or.inr (Or.inr ?_)⟩
      split at h
      · next hempty =>
        cases h
        cases hempty
        exact Or.inl ⟨rfl, rfl⟩
      · next hne =>
        cases h
        exact Or.inr ⟨bytes, hne, hlen, rfl, rfl⟩
    · rw [hread] at h
      refine Or.inr ⟨reads, ?_⟩
      rcases hanswer with rfl | rfl
      · cases h
        exact Or.inl ⟨rfl, rfl⟩
      · cases h
        exact Or.inr (Or.inl ⟨rfl, rfl⟩)

theorem readFrames_snd (s : WsSession) :
    ∃ reads input recv wire faults, s.readFrames.2
      = { s with
          env := { s.env with reads := reads }
          input := input, recv := recv, wire := wire, faults := faults } ∧
      (wire = s.wire ∨ ∃ r, wire = .read s.recv.tailroom r :: s.wire) := by
  obtain ⟨r, s', h⟩ : ∃ r s', s.readFrames = (r, s') := ⟨_, _, rfl⟩
  rw [h]
  rcases readFrames_cases h with ⟨-, -, rfl⟩ | ⟨reads, ⟨-, rfl⟩ | ⟨-, rfl⟩ | ⟨-, rfl⟩ | ⟨bytes, -, -, -, rfl⟩⟩
  · exact ⟨_, _, _, _, _, rfl, Or.inl rfl⟩
  · exact ⟨_, _, _, _, _, rfl, Or.inr ⟨_, rfl⟩⟩
  · exact ⟨_, _, _, _, _, rfl, Or.inr ⟨_, rfl⟩⟩
  · exact ⟨_, _, _, _, _, rfl, Or.inr ⟨_, rfl⟩⟩
  · exact ⟨_, _, _, _, _, rfl, Or.inr ⟨_, rfl⟩⟩

theorem judgeResponse_snd {v : Verdict} (h : s.judgeResponse = (v, s')) :
    ∃ recv faults log, s'
        = { s with
            recv := recv, faults := faults, log := log
            reconnectDelayNs := if v = .accept then 0 else s.reconnectDelayNs
            marks := if v = .accept then .consumed :: .opened :: s.marks else s.marks } ∧
      (log = s.log ∨ log = .response s.input :: s.log) := by
  unfold judgeResponse at h
  dsimp only at h
  split at h
  · cases h
    exact ⟨s.recv, s.faults, s.log, rfl, Or.inl rfl⟩
  · split at h
    · cases h
      exact ⟨s.recv, s.faults, _, rfl, Or.inr rfl⟩
    · cases h
      obtain ⟨recv, faults, hc⟩ := compactRecv_eq (((s.note (.response s.input)).mark .opened).consumeRecv
        (validateWsUpgrade s.recv.bytes s.cfg.expectedAccept).headersLen)
      rw [hc]
      dsimp only [consumeRecv, mark, note]
      exact ⟨recv, faults, .response s.input :: s.log, rfl, Or.inr rfl⟩

/-- What a read for the response can do. -/
theorem readResponse_turn {v : Verdict} (h : s.readResponse = (v, s')) :
    (s.recv.tailroom = 0 ∧ v = .reject ∧ s' = s) ∨
    ∃ reads,
      (v = .wait ∧ s' = s.heard .again reads s.input) ∨
      (v = .reject ∧ s' = s.heard .error reads s.input) ∨
      (v = .reject ∧ s' = s.heard (.data []) reads (s.input ++ [])) ∨
      ∃ bytes, bytes ≠ [] ∧ bytes.length ≤ s.recv.tailroom ∧
        ((s.heard (.data bytes) reads (s.input ++ bytes)).appendRecv bytes).judgeResponse = (v, s') := by
  unfold readResponse at h
  split at h
  · next hfull =>
    cases h
    exact Or.inl ⟨hfull, rfl, rfl⟩
  · obtain ⟨reads, ⟨bytes, hlen, hread⟩ | ⟨answer, hanswer, hread⟩⟩ := s.transportRead_cases
    · rw [hread] at h
      dsimp only at h
      refine Or.inr ⟨reads, Or.inr (Or.inr ?_)⟩
      split at h
      · next hempty =>
        cases h
        cases hempty
        exact Or.inl ⟨rfl, rfl⟩
      · next hne => exact Or.inr ⟨bytes, hne, hlen, h⟩
    · rw [hread] at h
      refine Or.inr ⟨reads, ?_⟩
      rcases hanswer with rfl | rfl
      · cases h
        exact Or.inl ⟨rfl, rfl⟩
      · cases h
        exact Or.inr (Or.inl ⟨rfl, rfl⟩)

theorem readResponse_snd {v : Verdict} (h : s.readResponse = (v, s')) :
    ∃ reads input recv wire faults log, s'
      = { s with
          env := { s.env with reads := reads }
          input := input, recv := recv, wire := wire, faults := faults, log := log
          reconnectDelayNs := if v = .accept then 0 else s.reconnectDelayNs
          marks := if v = .accept then .consumed :: .opened :: s.marks else s.marks } ∧
      (wire = s.wire ∨ ∃ r, wire = .read s.recv.tailroom r :: s.wire) ∧
      (log = s.log ∨ log = .response input :: s.log) := by
  rcases readResponse_turn h with ⟨-, rfl, rfl⟩ | ⟨reads, ⟨rfl, rfl⟩ | ⟨rfl, rfl⟩ | ⟨rfl, rfl⟩ | ⟨bytes, -, -, hjudge⟩⟩
  · exact ⟨_, _, _, _, _, _, rfl, Or.inl rfl, Or.inl rfl⟩
  · exact ⟨_, _, _, _, _, _, rfl, Or.inr ⟨_, rfl⟩, Or.inl rfl⟩
  · exact ⟨_, _, _, _, _, _, rfl, Or.inr ⟨_, rfl⟩, Or.inl rfl⟩
  · exact ⟨_, _, _, _, _, _, rfl, Or.inr ⟨_, rfl⟩, Or.inl rfl⟩
  · obtain ⟨recv, faults, log, hs, hlog⟩ := judgeResponse_snd hjudge
    exact ⟨_, _, recv, _, faults, log, hs, Or.inr ⟨_, rfl⟩, hlog⟩

theorem wire_grown {wire : List StreamCall} {room : Nat}
    (h : wire = s.wire ∨ ∃ r, wire = .read room r :: s.wire) : s.wire <:+ wire := by
  rcases h with rfl | ⟨r, rfl⟩
  · exact List.suffix_rfl
  · exact List.suffix_cons _ _

theorem marks_accepted (h : s.readResponse = (.accept, s')) :
    s'.marks = .consumed :: .opened :: s.marks := by
  obtain ⟨reads, input, recv, wire, faults, log, heq, -, -⟩ := readResponse_snd h
  rw [heq, if_pos rfl, if_pos rfl]

theorem suffix_readResponse {v : Verdict} (h : s.readResponse = (v, s')) : s.marks <:+ s'.marks := by
  obtain ⟨reads, input, recv, wire, faults, log, hs, -, -⟩ := readResponse_snd h
  rw [hs]
  dsimp only
  split
  · exact (List.suffix_cons _ _).trans (List.suffix_cons _ _)
  · exact List.suffix_rfl

theorem readResponse_fields {v : Verdict} (h : s.readResponse = (v, s')) :
    s.log <:+ s'.log ∧ s.wire <:+ s'.wire ∧ s'.state = s.state ∧ s'.cfg = s.cfg ∧ s'.linked = s.linked := by
  obtain ⟨reads, input, recv, wire, faults, log, hs, hwire, hlog⟩ := readResponse_snd h
  rw [hs]
  refine ⟨?_, wire_grown hwire, rfl, rfl, rfl⟩
  rcases hlog with rfl | rfl
  · exact List.suffix_rfl
  · exact List.suffix_cons _ _

/-- The marks grow by calls of the pool only. -/
def Pooled (old new : List Mark) : Prop := ∃ calls : List PoolCall, new = calls.map .pool ++ old

theorem Pooled.refl (old : List Mark) : Pooled old old := ⟨[], rfl⟩

theorem Pooled.cons (call : PoolCall) (old : List Mark) : Pooled old (.pool call :: old) := ⟨[call], rfl⟩

theorem Pooled.trans {old mid new : List Mark} (h : Pooled old mid) (h' : Pooled mid new) : Pooled old new := by
  obtain ⟨calls, rfl⟩ := h
  obtain ⟨calls', rfl⟩ := h'
  exact ⟨calls' ++ calls, by rw [List.map_append, List.append_assoc]⟩

theorem Pooled.suffix {old new : List Mark} (h : Pooled old new) : old <:+ new := by
  obtain ⟨calls, rfl⟩ := h
  exact List.suffix_append _ _

/-- What does not see the calls of the pool. -/
theorem Pooled.congr {α : Type} {F : List Mark → α} (hF : ∀ call l, F (.pool call :: l) = F l) {old new : List Mark}
    (h : Pooled old new) : F new = F old := by
  obtain ⟨calls, rfl⟩ := h
  induction calls with
  | nil => rfl
  | cons call rest ih => exact (hF call _).trans ih

theorem pooled_giveBack (s : WsSession) (b : IoBuffer) : Pooled s.marks (s.giveBack b).marks := ⟨b.released, rfl⟩

theorem pooled_acquire (s : WsSession) (n : Nat) : Pooled s.marks (s.acquire n).2.marks := by
  obtain ⟨acquires, h⟩ := s.acquire_snd n
  rw [h]
  exact Pooled.cons _ _

theorem pooled_flushTurn (s : WsSession) : Pooled s.marks s.flushTurn.2.marks := by
  obtain ⟨turn, s', hturn⟩ : ∃ turn s', s.flushTurn = (turn, s') := ⟨_, _, rfl⟩
  rw [hturn]
  obtain ⟨-, -, rfl⟩ | ⟨-, r, writes, h⟩ := flushTurn_cases hturn
  · exact Pooled.refl _
  · rcases h with ⟨-, -, rfl⟩ | ⟨-, -, rfl⟩ | ⟨n, -, -, -, rfl⟩ | ⟨n, -, -, -, rfl⟩
    · exact Pooled.refl _
    · exact Pooled.refl _
    · exact ⟨_, rfl⟩
    · exact Pooled.refl _

theorem marks_pushPending {b : IoBuffer} {ok : Bool} (h : s.pushPending b = (ok, s')) :
    s'.marks = s.marks := by
  obtain ⟨-, -, rfl⟩ | ⟨-, ring, -, rfl⟩ := pushPending_cases h
  · rfl
  · rfl

theorem pooled_queueFrame (s : WsSession) (opcode : WsOpcode) (payload : List UInt8) (fin : Bool) :
    Pooled s.marks (s.queueFrame opcode payload fin).2.marks := by
  obtain ⟨b, s₁, heq⟩ : ∃ b s₁, (s.note (.enqueued s.state)).acquire (wsClientHeaderSize payload.length) = (b, s₁) :=
    ⟨_, _, rfl⟩
  have hacquire : Pooled s.marks s₁.marks := by
    have hfirst := (s.note (.enqueued s.state)).pooled_acquire (wsClientHeaderSize payload.length)
    rwa [heq] at hfirst
  obtain ⟨key, gen, hkey⟩ := s₁.nextKey_eq
  unfold queueFrame
  dsimp only
  rw [heq]
  dsimp only
  rw [hkey]
  split
  · exact hacquire
  · split
    · exact hacquire.trans (s₁.pooled_giveBack b)
    · split
      · exact hacquire.trans (pooled_giveBack _ b)
      · split
        · next s₂ h =>
          change Pooled s.marks s₂.marks
          rw [marks_pushPending h]
          exact hacquire
        · next s₂ h =>
          refine Pooled.trans ?_ (s₂.pooled_giveBack b)
          rw [marks_pushPending h]
          exact hacquire

theorem pooled_openFragment (s : WsSession) (op : WsOpcode) : Pooled s.marks (s.openFragment op).2.marks := by
  have hacquire := s.pooled_acquire 0
  unfold openFragment
  dsimp only
  by_cases hfrag : s.frag.base = none
  · rw [if_pos hfrag]
    split
    · exact hacquire
    · exact hacquire
  · rw [if_neg hfrag, if_neg hfrag]
    exact Pooled.refl _

theorem pooled_queueRequest (s : WsSession) : Pooled s.marks s.queueRequest.2.marks := by
  have hacquire := pooled_acquire
    { s.note (.requested s.state (s.pending.count < kMaxPending)) with recv := s.recv.reset 0, input := [] } 0
  unfold queueRequest
  dsimp only
  split
  · exact hacquire
  · split
    · exact hacquire.trans ⟨_, rfl⟩
    · split
      · next h =>
        change Pooled s.marks (WsSession.marks _)
        rw [marks_pushPending h]
        exact hacquire
      · next h =>
        change Pooled s.marks (WsSession.marks _)
        rw [marks_pushPending h]
        exact hacquire

/-- `teardown` gives its buffers back, and sets the time of the next attempt. -/
theorem marks_shutDown (s : WsSession) (next : WsState) :
    ∃ marks, Pooled s.marks marks ∧
      ((s.shutDown next).marks = marks ∧ (s.shutDown next).reconnectAtNs = s.reconnectAtNs ∧
          ¬ ((next = .disconnected ∨ next = .failed) ∧ s.autoReconnect = true) ∨
        ∃ t, (s.shutDown next).marks = .ended t :: marks ∧ (s.shutDown next).reconnectAtNs = t + s.reconnectDelayNs) := by
  have hpooled : Pooled s.marks (s.frag.released.map .pool ++ s.drainPending.marks) :=
    Pooled.trans ⟨_, rfl⟩ ⟨_, rfl⟩
  refine ⟨_, hpooled, ?_⟩
  unfold shutDown
  dsimp only
  split
  · obtain ⟨clocks, h⟩ := now_snd { s.transportClose.drainPending with
      frag := s.frag.release, marks := s.frag.released.map .pool ++ s.drainPending.marks }
    rw [h]
    exact Or.inr ⟨_, rfl, rfl⟩
  · next h => exact Or.inl ⟨rfl, rfl, h⟩

theorem suffix_shutDown (s : WsSession) (next : WsState) : s.marks <:+ (s.shutDown next).marks := by
  obtain ⟨marks, hpooled, ⟨h, -⟩ | ⟨t, h, -⟩⟩ := s.marks_shutDown next
  · rw [h]
    exact hpooled.suffix
  · rw [h]
    exact hpooled.suffix.trans (List.suffix_cons _ _)

/-- An attempt to connect. -/
theorem marks_tryDial (s : WsSession) : Pooled (.dial :: s.marks) s.tryDial.2.marks := by
  have htake : Pooled (.dial :: s.marks) (s.mark .dial).takeRecv.2.marks := by
    have hrelease : Pooled (.dial :: s.marks) (s.mark .dial).releaseBuffers.marks := Pooled.trans ⟨_, rfl⟩ ⟨_, rfl⟩
    exact hrelease.trans ((s.mark .dial).releaseBuffers.pooled_acquire 0)
  obtain ⟨ok, s₁, heq⟩ : ∃ ok s₁, (s.mark .dial).takeRecv = (ok, s₁) := ⟨_, _, rfl⟩
  rw [heq] at htake
  unfold tryDial
  rw [heq]
  cases ok with
  | false => exact htake
  | true =>
    obtain ⟨acquires, clocks, deadline, harm⟩ := armed_snd heq
    have hmarks : s₁.armDeadline.marks = s₁.marks := by rw [harm]
    dsimp only
    split
    · next h =>
      obtain ⟨connects, fd, hs⟩ := transportConnect_true (s := s₁.armDeadline) (by rw [h])
      rw [h] at hs
      change Pooled _ (WsSession.marks _)
      rw [hs]
      change Pooled _ s₁.armDeadline.marks
      rw [hmarks]
      exact htake
    · next h =>
      obtain ⟨connects, hs⟩ := transportConnect_false (s := s₁.armDeadline) (by rw [h])
      rw [h] at hs
      change Pooled _ (WsSession.marks _)
      rw [hs]
      change Pooled _ s₁.armDeadline.marks
      rw [hmarks]
      exact htake

theorem suffix_tryDial (s : WsSession) : s.marks <:+ s.tryDial.2.marks :=
  (List.suffix_cons _ _).trans s.marks_tryDial.suffix

theorem marks_reconnectDue (s : WsSession) :
    (s.reconnectDue.1 = false ∧ s.reconnectDue.2.marks = s.marks ∧ s.reconnectDue.2.reconnectDelayNs = s.reconnectDelayNs) ∨
      ∃ t, s.reconnectDue.1 = true ∧ s.reconnectAtNs ≤ t ∧ s.reconnectDue.2.marks = .redial t :: s.marks ∧
        s.reconnectDue.2.reconnectDelayNs = nextDelay s.reconnectDelayNs ∧ s.autoReconnect = true := by
  unfold reconnectDue
  split
  · exact Or.inl ⟨rfl, rfl, rfl⟩
  · next hauto =>
    obtain ⟨clocks, h⟩ := s.now_snd
    dsimp only
    rw [h]
    dsimp only
    split
    · exact Or.inl ⟨rfl, rfl, rfl⟩
    · next hdue => exact Or.inr ⟨_, rfl, Int.not_lt.mp hdue, rfl, rfl, Bool.eq_true_of_not_eq_false hauto⟩

/-- What `check_keepalive` finds, and what it marks. -/
theorem marks_keepaliveTurn {found : Keepalive} (h : s.keepaliveTurn = (found, s')) :
    (found = .idle ∧ s'.marks = s.marks) ∨
      (∃ t, found = .stale ∧ s'.marks = .lapse t :: s.marks ∧ s.awaitingPong = true ∧ s.pongDeadlineNs ≤ t) ∨
      ∃ t answer, found = .due t ∧ s'.marks = .ping t answer :: s.marks := by
  unfold keepaliveTurn at h
  split at h
  · cases h
    exact Or.inl ⟨rfl, rfl⟩
  · obtain ⟨clocks, hnow⟩ := s.now_snd
    dsimp only at h
    rw [hnow] at h
    split at h
    · next hawaiting =>
      split at h
      · next hlate =>
        cases h
        exact Or.inr (Or.inl ⟨_, rfl, rfl, hawaiting, hlate.2⟩)
      · cases h
        exact Or.inl ⟨rfl, rfl⟩
    · split at h
      · cases h
        exact Or.inr (Or.inr ⟨_, _, rfl, rfl⟩)
      · cases h
        exact Or.inl ⟨rfl, rfl⟩

theorem suffix_keepaliveTurn (s : WsSession) : s.marks <:+ s.keepaliveTurn.2.marks := by
  obtain ⟨found, s', h⟩ : ∃ found s', s.keepaliveTurn = (found, s') := ⟨_, _, rfl⟩
  rw [h]
  obtain ⟨-, hmarks⟩ | ⟨t, -, hmarks, -⟩ | ⟨t, answer, -, hmarks⟩ := marks_keepaliveTurn h
  · rw [hmarks]
  · rw [hmarks]
    exact List.suffix_cons _ _
  · rw [hmarks]
    exact List.suffix_cons _ _

/-- A step of sending, receiving or time keeping: it neither changes the state nor touches the
transport's connection, the registration or the receive buffer, and logs routine events only. -/
structure Frame (s s' : WsSession) : Prop where
  cfg : s'.cfg = s.cfg
  state : s'.state = s.state
  registered : s'.registered = s.registered
  linked : s'.linked = s.linked
  fd : s'.fd = s.fd
  recv : s'.recv = s.recv
  input : s'.input = s.input
  interest : ∀ fd, (s'.interest fd).isSome = (s.interest fd).isSome
  log : ∃ new, s'.log = new ++ s.log ∧ ∀ e ∈ new, e.Routine s.inClose
  wire : s.wire <:+ s'.wire
  marks : s.marks <:+ s'.marks

theorem Frame.refl (s : WsSession) : Frame s s :=
  ⟨rfl, rfl, rfl, rfl, rfl, rfl, rfl, fun _ => rfl, ⟨[], rfl, nofun⟩, List.suffix_rfl, List.suffix_rfl⟩

theorem Frame.suffix (h : Frame s s') : s.log <:+ s'.log := by
  obtain ⟨new, hlog, -⟩ := h.log
  exact ⟨new, hlog.symm⟩

theorem log_same (s : WsSession) : ∃ new, s.log = new ++ s.log ∧ ∀ e ∈ new, e.Routine s.inClose := ⟨[], rfl, nofun⟩

theorem log_cons (s : WsSession) {e : Ev} (he : e.Routine s.inClose) :
    ∃ new, e :: s.log = new ++ s.log ∧ ∀ e ∈ new, e.Routine s.inClose :=
  ⟨[e], rfl, fun _ hmem => List.mem_singleton.mp hmem ▸ he⟩

theorem notifyWriteInterest_isSome (s : WsSession) (wants : Bool) (fd : Nat) :
    ((s.notifyWriteInterest wants).interest fd).isSome = (s.interest fd).isSome := by
  unfold notifyWriteInterest
  dsimp only
  split
  · rfl
  · exact s.interest.isSome_modify s.fd wants fd

theorem armed_isSome (s : WsSession) (fd : Nat) : (s.armed fd).isSome = (s.interest fd).isSome := by
  unfold armed
  split
  · exact s.notifyWriteInterest_isSome true fd
  · rfl

theorem frame_flushTurn (s : WsSession) : Frame s s.flushTurn.2 := by
  have hmarks := s.pooled_flushTurn.suffix
  rcases s.flushTurn_snd with ⟨interest, h, hinterest⟩ | ⟨-, r, writes, pending, h⟩
  · rw [h]
    refine { Frame.refl s with interest := fun fd => ?_ }
    rw [hinterest]
    exact notifyWriteInterest_isSome s false fd
  · rw [h]
    exact { Frame.refl s with
      log := s.log_cons (e := .written s.inClose r) rfl, wire := List.suffix_cons _ _, marks := hmarks }

theorem frame_queueFrame (s : WsSession) (opcode : WsOpcode) (payload : List UInt8) (fin : Bool) :
    Frame s (s.queueFrame opcode payload fin).2 := by
  obtain ⟨_, _, _, _, interest, _, h, hinterest⟩ := s.queueFrame_snd opcode payload fin
  rw [h]
  refine { Frame.refl s with
    interest := fun fd => ?_
    log := s.log_cons (e := .enqueued s.state) trivial
    marks := (s.pooled_queueFrame opcode payload fin).suffix }
  rcases hinterest with rfl | rfl
  · rfl
  · exact s.armed_isSome fd

theorem frame_storeFragment (s : WsSession) (chunk : List UInt8) : Frame s (s.storeFragment chunk).2 := by
  obtain ⟨frag, faults, h⟩ := s.storeFragment_snd chunk
  rw [h]
  exact { Frame.refl s with }

theorem frame_openFragment (s : WsSession) (op : WsOpcode) : Frame s (s.openFragment op).2 := by
  obtain ⟨_, _, _, h⟩ := s.openFragment_snd op
  rw [h]
  exact { Frame.refl s with marks := (s.pooled_openFragment op).suffix }

theorem frame_keepaliveTurn (s : WsSession) : Frame s s.keepaliveTurn.2 := by
  obtain ⟨clocks, log, h, hlog⟩ := s.keepaliveTurn_snd
  rw [h]
  refine { Frame.refl s with log := ?_, marks := s.suffix_keepaliveTurn }
  rcases hlog with ⟨rfl, -⟩ | ⟨rfl, -⟩ | rfl
  · exact s.log_same
  · exact s.log_cons (e := .pingDue s.state) trivial
  · refine ⟨[.timedOut, .pongLate s.state], rfl, fun e he => ?_⟩
    rcases List.mem_pair.mp he with rfl | rfl
    · exact trivial
    · exact trivial

theorem frame_deadlinePassed (s : WsSession) : Frame s s.deadlinePassed.2 := by
  obtain ⟨clocks, log, h, hlog⟩ := s.deadlinePassed_snd
  rw [h]
  refine { Frame.refl s with log := ?_ }
  rcases hlog with rfl | rfl
  · exact s.log_same
  · exact s.log_cons (e := .timedOut) trivial

theorem suffix_reconnectDue (s : WsSession) : s.marks <:+ s.reconnectDue.2.marks := by
  obtain ⟨-, h, -⟩ | ⟨t, -, -, h, -⟩ := s.marks_reconnectDue
  · rw [h]
  · rw [h]
    exact List.suffix_cons _ _

theorem frame_reconnectDue (s : WsSession) : Frame s s.reconnectDue.2 := by
  obtain ⟨clocks, delay, h⟩ := s.reconnectDue_snd
  rw [h]
  exact { Frame.refl s with marks := s.suffix_reconnectDue }

theorem frame_transportPollOpen (s : WsSession) : Frame s s.transportPollOpen.2 := by
  obtain ⟨opens, h⟩ := s.transportPollOpen_snd
  rw [h]
  exact { Frame.refl s with wire := List.suffix_cons _ _ }

theorem frame_armPing (s : WsSession) : Frame s s.armPing := by
  obtain ⟨clocks, t, h⟩ := s.armPing_eq
  rw [h]
  exact { Frame.refl s with }

/-- A step of receiving or time keeping: nothing is queued or sent, and the connection and its state stay. -/
structure Inward (s s' : WsSession) : Prop where
  cfg : s'.cfg = s.cfg
  state : s'.state = s.state
  registered : s'.registered = s.registered
  linked : s'.linked = s.linked
  fd : s'.fd = s.fd
  interest : s'.interest = s.interest
  pending : s'.pending = s.pending
  request : s'.request = s.request
  output : s'.output = s.output
  frames : s'.frames = s.frames
  said : s'.said = s.said
  log : ∃ new, s'.log = new ++ s.log ∧ ∀ e ∈ new, e.Passing

/-- A step that makes no call of the transport either. -/
structure Silent (s s' : WsSession) : Prop extends Inward s s' where
  wire : s'.wire = s.wire

theorem Silent.refl (s : WsSession) : Silent s s :=
  ⟨⟨rfl, rfl, rfl, rfl, rfl, rfl, rfl, rfl, rfl, rfl, rfl, [], rfl, nofun⟩, rfl⟩

theorem Inward.suffix (h : Inward s s') : s.log <:+ s'.log := by
  obtain ⟨new, hlog, -⟩ := h.log
  exact ⟨new, hlog.symm⟩

theorem passing_cons (s : WsSession) {e : Ev} (he : e.Passing) :
    ∃ new, e :: s.log = new ++ s.log ∧ ∀ e ∈ new, e.Passing :=
  ⟨[e], rfl, fun _ hmem => List.mem_singleton.mp hmem ▸ he⟩

theorem silent_note (s : WsSession) {e : Ev} (he : e.Passing) : Silent s (s.note e) :=
  { Silent.refl s with log := s.passing_cons he }

theorem silent_deadlinePassed (s : WsSession) : Silent s s.deadlinePassed.2 := by
  obtain ⟨clocks, log, h, hlog⟩ := s.deadlinePassed_snd
  rw [h]
  rcases hlog with rfl | rfl
  · exact { Silent.refl s with }
  · exact { Silent.refl s with log := s.passing_cons (e := .timedOut) trivial }

theorem silent_keepaliveTurn (s : WsSession) : Silent s s.keepaliveTurn.2 := by
  obtain ⟨clocks, log, h, hlog⟩ := s.keepaliveTurn_snd
  rw [h]
  rcases hlog with ⟨rfl, -⟩ | ⟨rfl, -⟩ | rfl
  · exact { Silent.refl s with }
  · exact { Silent.refl s with log := s.passing_cons (e := .pingDue s.state) trivial }
  · refine { Silent.refl s with log := ⟨[.timedOut, .pongLate s.state], rfl, fun e he => ?_⟩ }
    rcases List.mem_pair.mp he with rfl | rfl
    · exact trivial
    · exact trivial

theorem silent_storeFragment (s : WsSession) (chunk : List UInt8) : Silent s (s.storeFragment chunk).2 := by
  obtain ⟨frag, faults, h⟩ := s.storeFragment_snd chunk
  rw [h]
  exact { Silent.refl s with }

theorem silent_openFragment (s : WsSession) (op : WsOpcode) : Silent s (s.openFragment op).2 := by
  obtain ⟨_, _, _, h⟩ := s.openFragment_snd op
  rw [h]
  exact { Silent.refl s with }

theorem silent_compactRecv (s : WsSession) : Silent s s.compactRecv := by
  obtain ⟨recv, faults, h⟩ := s.compactRecv_eq
  rw [h]
  exact { Silent.refl s with }

theorem silent_reconnectDue (s : WsSession) : Silent s s.reconnectDue.2 := by
  obtain ⟨clocks, delay, h⟩ := s.reconnectDue_snd
  rw [h]
  exact { Silent.refl s with }

theorem silent_armPing (s : WsSession) : Silent s s.armPing := by
  obtain ⟨clocks, t, h⟩ := s.armPing_eq
  rw [h]
  exact { Silent.refl s with }

theorem inward_transportPollOpen (s : WsSession) : Inward s s.transportPollOpen.2 := by
  obtain ⟨opens, h⟩ := s.transportPollOpen_snd
  rw [h]
  exact { Silent.refl s with }

theorem inward_readFrames (s : WsSession) : Inward s s.readFrames.2 := by
  obtain ⟨reads, input, recv, wire, faults, h, -⟩ := s.readFrames_snd
  rw [h]
  exact { Silent.refl s with }

theorem inward_readResponse {v : Verdict} (h : s.readResponse = (v, s')) : Inward s s' := by
  obtain ⟨reads, input, recv, wire, faults, log, rfl, -, hlog⟩ := readResponse_snd h
  rcases hlog with rfl | rfl
  · exact { Silent.refl s with }
  · exact { Silent.refl s with log := s.passing_cons (e := .response input) trivial }

end WsSession

end Lepton.Ws

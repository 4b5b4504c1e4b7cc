import Mathlib.Tactic.Abel
import Lepton.PoolCustody
import Lepton.WsEverywhere

/-! The pool buffers of a session. Handles are copied, overwritten and cleared by hand; a session accounts for its
buffers if what it has acquired and not released is what its handles name: the receive buffer, the buffer of a
fragmented message and the occupied slots of the ring. -/

namespace Lepton

open Custody

variable {extra : Multiset Nat}

namespace Ws

variable {s s' s'' : WsSession}

def Mark.move : Mark → Option (Move Nat)
  | .pool call => call.move
  | _ => none

namespace WsSession

/-- A slot is left in the ring whenever `send_upgrade_request` builds its request. -/
def Roomy (s : WsSession) : Prop := ∀ st, .requested st false ∉ s.log

/-- What the session has done with the pool, the latest first. -/
def moves (s : WsSession) : List (Move Nat) := s.marks.filterMap Mark.move

/-- The buffers that the handles of the session name. -/
def handles (s : WsSession) : Multiset Nat :=
  (s.recv.item : Multiset Nat) + s.frag.item + (s.pending.toList.flatMap fun p => p.buf.item)

/-- The session holds what its handles name, and the buffers `extra` of a call that is under way. -/
def Owns (extra : Multiset Nat) (s : WsSession) : Prop := held s.moves = some (s.handles + extra)

theorem moves_pool (calls : List PoolCall) (marks : List Mark) :
    (calls.map Mark.pool ++ marks).filterMap Mark.move = calls.filterMap PoolCall.move ++ marks.filterMap Mark.move := by
  rw [List.filterMap_append, List.filterMap_map]
  rfl

/-- Handles that name the same buffers. -/
theorem Owns.same (h : Owns extra s) (hmoves : s'.moves = s.moves)
    (hrecv : s'.recv.item = s.recv.item) (hfrag : s'.frag.item = s.frag.item) (hpending : s'.pending = s.pending) :
    Owns extra s' := by
  unfold Owns handles at h ⊢
  rw [hmoves, hrecv, hfrag, hpending]
  exact h

theorem owns_acquire {n : Nat} {b : IoBuffer} (hacquire : s.acquire n = (b, s'))
    (h : Owns extra s) : Owns (b.item + extra) s' := by
  obtain ⟨acquires, heq⟩ := s.acquire_snd n
  rw [hacquire] at heq
  change s' = _ at heq
  rw [heq]
  unfold Owns at h ⊢
  change held ((Mark.pool (.acquired b.base) :: s.marks).filterMap Mark.move) = some (s.handles + (b.item + extra))
  rw [add_left_comm]
  exact held_acquired h rfl

theorem owns_giveBack {b : IoBuffer} (h : Owns (b.item + extra) s) :
    Owns extra (s.giveBack b) := by
  unfold Owns at h ⊢
  change held ((b.released.map Mark.pool ++ s.marks).filterMap Mark.move) = some (s.handles + extra)
  rw [moves_pool, b.moves_released]
  apply held_gives
  rw [add_left_comm]
  exact h

theorem owns_dropFragment (h : Owns extra s) : Owns extra s.dropFragment := by
  have hgiven : Owns (s.frag.item + extra) { s with frag := s.frag.release } := by
    unfold Owns handles at h ⊢
    change held s.moves = some ((s.recv.item : Multiset Nat) + s.frag.release.item
      + (s.pending.toList.flatMap fun p => p.buf.item) + (s.frag.item + extra))
    rw [h, IoBuffer.item_release, Multiset.coe_nil]
    congr 1
    abel
  exact owns_giveBack hgiven

theorem owns_drainPending (h : Owns extra s) : Owns extra s.drainPending := by
  unfold Owns handles at h ⊢
  change held (((s.pending.toList.flatMap fun p => p.buf.released).reverse.map Mark.pool ++ s.marks).filterMap Mark.move)
    = some ((s.recv.item : Multiset Nat) + s.frag.item + (s.pending.drain.toList.flatMap fun p => p.buf.item) + extra)
  have hmoves : (s.pending.toList.flatMap fun p => p.buf.released).reverse.filterMap PoolCall.move
      = (s.pending.toList.flatMap fun p => p.buf.item).reverse.map .give := by
    rw [List.filterMap_reverse, List.map_reverse, List.filterMap_flatMap, List.map_flatMap]
    congr 1
    exact List.flatMap_congr fun p _ => p.buf.moves_released
  rw [moves_pool, hmoves, s.pending.toList_drain]
  apply held_gives
  rw [Multiset.coe_reverse]
  change held s.moves = _
  rw [h, List.flatMap_nil, Multiset.coe_nil]
  congr 1
  abel

theorem owns_releaseBuffers (h : Owns extra s) : Owns extra s.releaseBuffers := by
  have hdrain := owns_drainPending h
  have hgiven : Owns (s.recv.item + extra) { s.drainPending with recv := s.recv.release } := by
    unfold Owns handles at hdrain ⊢
    change held s.drainPending.moves = some ((s.recv.release.item : Multiset Nat) + s.frag.item
      + (s.pending.drain.toList.flatMap fun p => p.buf.item) + (s.recv.item + extra))
    rw [hdrain, IoBuffer.item_release, Multiset.coe_nil]
    congr 1
    change (s.recv.item : Multiset Nat) + s.frag.item + (s.pending.drain.toList.flatMap fun p => p.buf.item) + extra = _
    abel
  have hfrag := owns_dropFragment (owns_giveBack hgiven)
  refine hfrag.same ?_ rfl rfl rfl
  change ((s.frag.released ++ s.recv.released).map Mark.pool ++ s.drainPending.marks).filterMap Mark.move
    = (s.frag.released.map Mark.pool ++ (s.recv.released.map Mark.pool ++ s.drainPending.marks)).filterMap Mark.move
  rw [List.map_append, List.append_assoc]

theorem owns_push {b b' : IoBuffer} (hpush : s.pushPending b' = (true, s'))
    (hbase : b'.item = b.item) (h : Owns (b.item + extra) s) : Owns extra s' := by
  obtain ⟨hfalse, -⟩ | ⟨-, ring, hring, heq⟩ := pushPending_cases hpush
  · cases hfalse
  · rw [heq]
    unfold Owns handles at h ⊢
    change held s.moves = some ((s.recv.item : Multiset Nat) + s.frag.item
      + (ring.toList.flatMap fun p => p.buf.item) + extra)
    rw [h, Ring.toList_push hring, List.flatMap_append, List.flatMap_singleton, hbase, ← Multiset.coe_add]
    congr 1
    abel

theorem owns_popFront (hcount : s.pending.count ≠ 0) (h : Owns extra s) :
    Owns (s.pending.front.buf.item + extra) { s with pending := s.pending.pop } := by
  unfold Owns handles at h ⊢
  change held s.moves = some ((s.recv.item : Multiset Nat) + s.frag.item
    + (s.pending.pop.toList.flatMap fun p => p.buf.item) + (s.pending.front.buf.item + extra))
  rw [h, Ring.toList_eq_front_cons (Nat.pos_of_ne_zero hcount), List.flatMap_cons, ← Multiset.coe_add]
  congr 1
  abel

/-- What was accounted for stays so, as long as `send_upgrade_request` finds a slot. -/
structure Balances (s s' : WsSession) : Prop where
  log : s.log <:+ s'.log
  owns : Roomy s' → ∀ extra, Owns extra s → Owns extra s'

theorem Roomy.of_suffix (h : Roomy s') (hlog : s.log <:+ s'.log) : Roomy s :=
  fun st hmem => h st (hlog.subset hmem)

theorem Balances.trans (h : Balances s s') (h' : Balances s' s'') : Balances s s'' where
  log := h.log.trans h'.log
  owns hroomy extra howns := h'.owns hroomy extra (h.owns (hroomy.of_suffix h'.log) extra howns)

theorem Balances.of_owns (hlog : s.log <:+ s'.log) (h : ∀ extra, Owns extra s → Owns extra s') :
    Balances s s' := ⟨hlog, fun _ => h⟩

theorem Balances.same (hlog : s.log <:+ s'.log) (hmoves : s'.moves = s.moves)
    (hrecv : s'.recv.item = s.recv.item) (hfrag : s'.frag.item = s.frag.item) (hpending : s'.pending = s.pending) :
    Balances s s' := .of_owns hlog fun _ h => h.same hmoves hrecv hfrag hpending

theorem balances_refl (s : WsSession) : Balances s s := .same List.suffix_rfl rfl rfl rfl rfl

theorem balances_enter (s : WsSession) (st : WsState) : Balances s (s.enter st) := by
  have hlog := s.enter_log st
  obtain ⟨log, heq, -⟩ := s.enter_eq st
  rw [heq] at hlog ⊢
  exact .same hlog rfl rfl rfl rfl

theorem balances_shutDown (s : WsSession) (next : WsState) : Balances s (s.shutDown next) := by
  obtain ⟨clocks, t, heq⟩ := s.shutDown_eq next
  have hlog : s.log <:+ (s.shutDown next).log := by rw [heq]; exact List.suffix_rfl
  have hmoves : (s.shutDown next).moves = s.drainPending.dropFragment.moves := by
    unfold shutDown
    dsimp only
    split
    · obtain ⟨clocks', h⟩ := now_snd { s.transportClose.drainPending with
        frag := s.frag.release, marks := s.frag.released.map .pool ++ s.drainPending.marks }
      rw [h]
      rfl
    · rfl
  refine .of_owns hlog fun extra h => (owns_dropFragment (owns_drainPending h)).same hmoves ?_ ?_ ?_
  · rw [heq]
    rfl
  · rw [heq]
    rfl
  · rw [heq]
    rfl

theorem balances_flushTurn (s : WsSession) : Balances s s.flushTurn.2 := by
  obtain ⟨turn, s', hturn⟩ : ∃ turn s', s.flushTurn = (turn, s') := ⟨_, _, rfl⟩
  rw [hturn]
  obtain ⟨-, -, h⟩ | ⟨hcount, r, writes, h⟩ := flushTurn_cases hturn
  · rw [h]
    exact .same List.suffix_rfl rfl rfl rfl rfl
  · have hwrote : s.log <:+ (s.wrote s.unsentFront r writes).log := List.suffix_cons _ _
    rcases h with ⟨-, -, h⟩ | ⟨-, -, h⟩ | ⟨n, -, -, -, h⟩ | ⟨n, -, -, -, h⟩
    · rw [h]
      exact .same hwrote rfl rfl rfl rfl
    · rw [h]
      exact .same hwrote rfl rfl rfl rfl
    · rw [h]
      exact .of_owns hwrote fun extra howns => (owns_giveBack (owns_popFront hcount howns)).same rfl rfl rfl rfl
    · rw [h]
      refine .of_owns hwrote fun extra howns => ?_
      unfold Owns handles at howns ⊢
      change held s.moves = some ((s.recv.item : Multiset Nat) + s.frag.item + ((s.pending.setFront _).toList.flatMap
        fun p => p.buf.item) + extra)
      rw [howns, Ring.toList_setFront (Nat.pos_of_ne_zero hcount),
        Ring.toList_eq_front_cons (Nat.pos_of_ne_zero hcount)]
      rfl

theorem item_frameBuffer (b : IoBuffer) (f : Ws.Frame) : (frameBuffer b f).item = b.item := rfl

/-- `enqueue_frame` puts its buffer in the ring or gives it back. -/
theorem balances_queueFrame (s : WsSession) (opcode : WsOpcode) (payload : List UInt8) (fin : Bool) :
    Balances s (s.queueFrame opcode payload fin).2 := by
  have hlog : s.log <:+ (s.queueFrame opcode payload fin).2.log := (s.frame_queueFrame opcode payload fin).suffix
  refine .of_owns hlog fun extra h => ?_
  obtain ⟨b, s₁, hacquire⟩ : ∃ b s₁, (s.note (.enqueued s.state)).acquire (wsClientHeaderSize payload.length) = (b, s₁) :=
    ⟨_, _, rfl⟩
  have hnoted : Owns extra (s.note (.enqueued s.state)) := h.same rfl rfl rfl rfl
  have hbuffer : Owns (b.item + extra) s₁ := owns_acquire hacquire hnoted
  unfold queueFrame
  dsimp only
  rw [hacquire]
  split
  · next hnone =>
    rw [IoBuffer.item_of_none hnone, Multiset.coe_nil, zero_add] at hbuffer
    exact hbuffer
  · split
    · exact owns_giveBack hbuffer
    · obtain ⟨key, gen, hkey⟩ := s₁.nextKey_eq
      rw [hkey]
      dsimp only
      split
      · exact owns_giveBack (hbuffer.same rfl rfl rfl rfl)
      · split
        · next hpush =>
          exact (owns_push hpush (item_frameBuffer b _) (hbuffer.same rfl rfl rfl rfl)).same rfl rfl rfl rfl
        · next hpush =>
          obtain ⟨-, -, rfl⟩ | ⟨htrue, -⟩ := pushPending_cases hpush
          · exact owns_giveBack (hbuffer.same rfl rfl rfl rfl)
          · cases htrue

/-- The request of `send_upgrade_request` is lost if the ring is full. -/
theorem balances_queueRequest (s : WsSession) : Balances s s.queueRequest.2 := by
  obtain ⟨acquires, faults, pending, interest, request, marks, heq, -⟩ := @queueRequest_snd s s.queueRequest.2 s.queueRequest.1 rfl
  have hlog : s.queueRequest.2.log = .requested s.state (s.pending.count < kMaxPending) :: s.log := by rw [heq]
  refine ⟨hlog ▸ List.suffix_cons _ _, fun hroomy extra h => ?_⟩
  have hroom : s.pending.count < kMaxPending := by
    by_contra hfull
    apply hroomy s.state
    rw [hlog, decide_eq_false hfull]
    exact List.mem_cons_self
  unfold queueRequest
  obtain ⟨req, s₁, hacquire⟩ : ∃ req s₁, WsSession.acquire
      { s.note (.requested s.state (s.pending.count < kMaxPending)) with recv := s.recv.reset 0, input := [] } 0
      = (req, s₁) := ⟨_, _, rfl⟩
  have hbuffer : Owns (req.item + extra) s₁ := owns_acquire hacquire (h.same rfl rfl rfl rfl)
  obtain ⟨acquires', hs₁⟩ := acquire_snd
    { s.note (.requested s.state (s.pending.count < kMaxPending)) with recv := s.recv.reset 0, input := [] } 0
  dsimp only
  rw [hacquire] at hs₁ ⊢
  split
  · next hnone =>
    rw [IoBuffer.item_of_none hnone, Multiset.coe_nil, zero_add] at hbuffer
    exact hbuffer
  · split
    · exact owns_giveBack hbuffer
    · next text htext =>
      split
      · next hpush => exact (owns_push hpush rfl (hbuffer.same rfl rfl rfl rfl)).same rfl rfl rfl rfl
      · next hpush =>
        obtain ⟨-, hfull, -⟩ | ⟨htrue, -⟩ := pushPending_cases hpush
        · have hcount := Ring.count_of_push_none hfull
          change s₁.pending.count = kMaxPending at hcount
          change s₁ = _ at hs₁
          rw [hs₁] at hcount
          exact absurd hcount (Nat.ne_of_lt hroom)
        · cases htrue

theorem owns_takeRecv (h : Owns extra s) : Owns extra s.takeRecv.2 := by
  obtain ⟨b, s₁, hacquire⟩ : ∃ b s₁, s.releaseBuffers.acquire 0 = (b, s₁) := ⟨_, _, rfl⟩
  have hbuffer : Owns (b.item + extra) s₁ := owns_acquire hacquire (owns_releaseBuffers h)
  obtain ⟨acquires, hs₁⟩ := s.releaseBuffers.acquire_snd 0
  rw [hacquire] at hs₁
  change s₁ = _ at hs₁
  have hrecv : s₁.recv.item = [] := by
    rw [hs₁]
    exact IoBuffer.item_release s.recv
  unfold takeRecv
  rw [hacquire]
  unfold Owns handles at hbuffer ⊢
  rw [hrecv] at hbuffer
  change held s₁.moves = some ((b.item : Multiset Nat) + s₁.frag.item
    + (s₁.pending.toList.flatMap fun p => p.buf.item) + extra)
  rw [hbuffer, Multiset.coe_nil]
  congr 1
  abel

theorem owns_tryDial (h : Owns extra s) : Owns extra s.tryDial.2 := by
  have hmarked : Owns extra (s.mark .dial) := h.same rfl rfl rfl rfl
  have htaken : Owns extra (s.mark .dial).takeRecv.2 := owns_takeRecv hmarked
  obtain ⟨ok, s₁, heq⟩ : ∃ ok s₁, (s.mark .dial).takeRecv = (ok, s₁) := ⟨_, _, rfl⟩
  rw [heq] at htaken
  unfold tryDial
  rw [heq]
  cases ok with
  | false => exact htaken.same rfl rfl rfl rfl
  | true =>
    obtain ⟨clocks, deadline, harm⟩ := s₁.armDeadline_eq
    have harmed : Owns extra s₁.armDeadline := by
      rw [harm]
      exact htaken.same rfl rfl rfl rfl
    dsimp only
    split
    · next hconn =>
      obtain ⟨connects, fd, hs⟩ := transportConnect_true (s := s₁.armDeadline) (by rw [hconn])
      rw [hconn] at hs
      change Owns extra _
      change _ = _ at hs
      rw [hs]
      exact harmed.same rfl rfl rfl rfl
    · next hconn =>
      obtain ⟨connects, hs⟩ := transportConnect_false (s := s₁.armDeadline) (by rw [hconn])
      rw [hconn] at hs
      change _ = _ at hs
      rw [hs]
      exact harmed.same rfl rfl rfl rfl

theorem balances_storeFragment (s : WsSession) (chunk : List UInt8) : Balances s (s.storeFragment chunk).2 := by
  unfold storeFragment
  split
  · exact balances_refl s
  · split
    · exact balances_refl s
    · exact .same List.suffix_rfl rfl rfl rfl rfl

theorem balances_openFragment (s : WsSession) (op : WsOpcode) : Balances s (s.openFragment op).2 := by
  have hopen : Balances s (if s.frag.base = none then { (s.acquire 0).2 with frag := (s.acquire 0).1 } else s) := by
    split
    · next hnone =>
      obtain ⟨b, s₁, hacquire⟩ : ∃ b s₁, s.acquire 0 = (b, s₁) := ⟨_, _, rfl⟩
      obtain ⟨acquires, hs₁⟩ := s.acquire_snd 0
      rw [hacquire] at hs₁ ⊢
      change s₁ = _ at hs₁
      refine .of_owns (by rw [hs₁]) fun extra h => ?_
      have hbuffer := owns_acquire hacquire h
      have hfrag : s₁.frag.item = [] := by
        rw [hs₁]
        exact IoBuffer.item_of_none hnone
      unfold Owns handles at hbuffer ⊢
      rw [hfrag] at hbuffer
      change held s₁.moves = some ((s₁.recv.item : Multiset Nat) + b.item
        + (s₁.pending.toList.flatMap fun p => p.buf.item) + extra)
      rw [hbuffer, Multiset.coe_nil]
      congr 1
      abel
    · exact balances_refl s
  unfold openFragment
  dsimp only
  generalize (if s.frag.base = none then { (s.acquire 0).2 with frag := (s.acquire 0).1 } else s) = s₁ at hopen ⊢
  split
  · exact hopen
  · exact hopen.trans (.same List.suffix_rfl rfl rfl rfl rfl)

theorem balances_keepaliveTurn (s : WsSession) : Balances s s.keepaliveTurn.2 := by
  obtain ⟨clocks, log, heq, -⟩ := s.keepaliveTurn_snd
  have hlog := (s.frame_keepaliveTurn).suffix
  have hmoves : s.keepaliveTurn.2.moves = s.moves := by
    obtain ⟨found, s', h⟩ : ∃ found s', s.keepaliveTurn = (found, s') := ⟨_, _, rfl⟩
    rw [h]
    unfold moves
    obtain ⟨-, hmarks⟩ | ⟨t, -, hmarks, -⟩ | ⟨t, answer, -, hmarks⟩ := marks_keepaliveTurn h
    · rw [hmarks]
    · rw [hmarks]
      rfl
    · rw [hmarks]
      rfl
  refine .same hlog hmoves ?_ ?_ ?_
  · rw [heq]
  · rw [heq]
  · rw [heq]

theorem balances_reconnectDue (s : WsSession) : Balances s s.reconnectDue.2 := by
  obtain ⟨clocks, delay, heq⟩ := s.reconnectDue_snd
  have hmoves : s.reconnectDue.2.moves = s.moves := by
    unfold moves
    obtain ⟨-, hmarks, -⟩ | ⟨t, -, -, hmarks, -⟩ := s.marks_reconnectDue
    · rw [hmarks]
    · rw [hmarks]
      rfl
  refine .same (by rw [heq]) hmoves ?_ ?_ ?_
  · rw [heq]
  · rw [heq]
  · rw [heq]

theorem balances_compactRecv (s : WsSession) : Balances s s.compactRecv := by
  unfold compactRecv
  split
  · exact .same List.suffix_rfl rfl rfl rfl rfl
  · split
    · exact balances_refl s
    · exact .same List.suffix_rfl rfl rfl rfl rfl

theorem balances_consumeRecv (s : WsSession) (n : Nat) : Balances s (s.consumeRecv n) :=
  .same List.suffix_rfl rfl rfl rfl rfl

theorem balances_heard (s : WsSession) (r : ReadResult) (reads : List ReadResult) (input : List UInt8) :
    Balances s (s.heard r reads input) :=
  .same List.suffix_rfl rfl rfl rfl rfl

theorem balances_appendRecv (s : WsSession) (bytes : List UInt8) : Balances s (s.appendRecv bytes) :=
  .same List.suffix_rfl rfl rfl rfl rfl

theorem balances_readFrames (s : WsSession) : Balances s s.readFrames.2 := by
  obtain ⟨r, s', h⟩ : ∃ r s', s.readFrames = (r, s') := ⟨_, _, rfl⟩
  rw [h]
  rcases readFrames_cases h with ⟨-, -, rfl⟩ | ⟨reads, ⟨-, rfl⟩ | ⟨-, rfl⟩ | ⟨-, rfl⟩ | ⟨bytes, -, -, -, rfl⟩⟩
  · exact balances_refl _
  · exact balances_heard ..
  · exact balances_heard ..
  · exact balances_heard ..
  · exact (balances_heard ..).trans (balances_appendRecv _ _)

theorem balances_judgeResponse (s : WsSession) : Balances s s.judgeResponse.2 := by
  unfold judgeResponse
  dsimp only
  split
  · exact balances_refl s
  · split
    · exact .same (List.suffix_cons _ _) rfl rfl rfl rfl
    · have hopened : Balances s ((s.note (.response s.input)).mark .opened) := .same (List.suffix_cons _ _) rfl rfl rfl rfl
      exact ((hopened.trans (balances_consumeRecv _ _)).trans (balances_compactRecv _)).trans
        (.same List.suffix_rfl rfl rfl rfl rfl)

theorem balances_readResponse (s : WsSession) : Balances s s.readResponse.2 := by
  obtain ⟨v, s', h⟩ : ∃ v s', s.readResponse = (v, s') := ⟨_, _, rfl⟩
  rw [h]
  rcases readResponse_turn h with ⟨-, -, rfl⟩ | ⟨reads, ⟨-, rfl⟩ | ⟨-, rfl⟩ | ⟨-, rfl⟩ | ⟨bytes, -, -, hjudge⟩⟩
  · exact balances_refl _
  · exact balances_heard ..
  · exact balances_heard ..
  · exact balances_heard ..
  · have hdone := ((s.heard (.data bytes) reads (s.input ++ bytes)).appendRecv bytes).balances_judgeResponse
    rw [hjudge] at hdone
    exact ((balances_heard ..).trans (balances_appendRecv _ _)).trans hdone

theorem balances_tryDial {d : Dialing} (h : s.tryDial = (d, s')) : Balances s s' := by
  have howns (extra : Multiset Nat) : Owns extra s → Owns extra s.tryDial.2 := owns_tryDial
  rw [h] at howns
  refine .of_owns ?_ howns
  cases d with
  | starved =>
    obtain ⟨acquires, recv, heq⟩ := tryDial_starved h
    rw [heq]
    exact List.suffix_cons _ _
  | refused =>
    obtain ⟨env, recv, deadline, -, heq⟩ := tryDial_refused h
    rw [heq]
    exact List.suffix_rfl
  | dialed =>
    obtain ⟨env, deadline, fd, -, heq⟩ := tryDial_dialed h
    rw [heq]
    exact List.suffix_cons _ _

theorem balances_register : ∀ s, Balances s s.register :=
  keeps_register balances_refl fun _ _ _ _ => .same (List.suffix_cons _ _) rfl rfl rfl rfl

theorem balances_down (s : WsSession) (next : WsState) : Balances s ((s.shutDown next).enter next) :=
  (s.balances_shutDown next).trans (balances_enter _ _)

/-- Every step of a session, in whatever state it is taken, accounts for the buffers it moves. -/
theorem balances_everywhere : Everywhere Balances where
  refl := balances_refl
  trans h h' := h.trans h'
  down s _ _ := s.balances_down _
  flushTurn {s s' turn} h _ := by
    have hturn := s.balances_flushTurn
    rwa [h] at hturn
  flushFatal {s s'} h := by
    have hturn := s.balances_flushTurn
    rw [h] at hturn
    exact hturn.trans (s'.balances_down .failed)
  flushFinished {s s'} h := by
    have hturn := s.balances_flushTurn
    rw [h] at hturn
    exact hturn.trans (s'.balances_down .disconnected)
  queueSend := keeps_queueSend (fun h h' => h.trans h') (fun s _ _ => .same List.suffix_rfl rfl rfl rfl rfl)
    fun s opcode payload fin _ _ => s.balances_queueFrame opcode payload fin
  deadlinePassed s := by
    have hlog := (s.frame_deadlinePassed).suffix
    obtain ⟨clocks, log, heq, -⟩ := s.deadlinePassed_snd
    rw [heq] at hlog ⊢
    exact .same hlog rfl rfl rfl rfl
  addMessage _ _ _ := .same List.suffix_rfl rfl rfl rfl rfl
  storeFragment s chunk _ := s.balances_storeFragment chunk
  dropFragment _ := .of_owns List.suffix_rfl fun _ h => owns_dropFragment h
  openFragment s op _ := s.balances_openFragment op
  takePong _ := .same List.suffix_rfl rfl rfl rfl rfl
  countHeader _ := .same List.suffix_rfl rfl rfl rfl rfl
  countFrame _ _ _ _ := .same List.suffix_rfl rfl rfl rfl rfl
  exhausted _ _ := .same List.suffix_rfl rfl rfl rfl rfl
  queueFrame := balances_queueFrame
  keepaliveTurn := balances_keepaliveTurn
  pinged _ _ := .same List.suffix_rfl rfl rfl rfl rfl
  starved h := (balances_tryDial h).trans (balances_enter _ _)
  refused {_ s'} h := (balances_tryDial h).trans (s'.balances_down .failed)
  dialed h := (balances_tryDial h).trans (balances_enter _ _)
  register := balances_register
  enter := balances_enter
  note _ _ := .same (List.suffix_cons _ _) rfl rfl rfl rfl
  flags _ _ _ := .same List.suffix_rfl rfl rfl rfl rfl
  env _ _ := .same List.suffix_rfl rfl rfl rfl rfl
  settings _ _ _ := .same List.suffix_rfl rfl rfl rfl rfl
  consumeRecv := balances_consumeRecv
  compactRecv := balances_compactRecv
  reconnectDue := balances_reconnectDue
  pollOpen s := by
    have hlog := (s.frame_transportPollOpen).suffix
    obtain ⟨opens, heq⟩ := s.transportPollOpen_snd
    rw [heq] at hlog ⊢
    exact .same hlog rfl rfl rfl rfl
  queueRequest := balances_queueRequest
  readResponse := balances_readResponse
  armPing s := by
    obtain ⟨clocks, t, heq⟩ := s.armPing_eq
    rw [heq]
    exact .same List.suffix_rfl rfl rfl rfl rfl
  readFrames := balances_readFrames

theorem owns_fresh (cfg : Config) (seed : UInt64) (autoReconnect : Bool) : Owns 0 (fresh cfg seed autoReconnect) := rfl

theorem owns_use {cfg : Config} {seed : UInt64} {autoReconnect : Bool}
    (h : Uses (fresh cfg seed autoReconnect) s) (hroomy : Roomy s) : Owns 0 s :=
  (balances_everywhere.uses h).owns hroomy 0 (owns_fresh cfg seed autoReconnect)

/-- A destroyed session has no buffers. -/
theorem handles_releaseBuffers (s : WsSession) : s.releaseBuffers.handles = 0 := by
  unfold handles
  change (s.recv.release.item : Multiset Nat) + s.frag.release.item
    + (s.pending.drain.toList.flatMap fun p => p.buf.item) = 0
  rw [IoBuffer.item_release, IoBuffer.item_release, s.pending.toList_drain]
  rfl

end WsSession

end Ws

end Lepton

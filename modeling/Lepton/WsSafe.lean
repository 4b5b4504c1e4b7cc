import Lepton.WsCodec
import Lepton.WsOutput

/-! Hostile input. Whatever the server sends, and however it is cut into reads, no assertion of the buffers
fails, no length wraps, every payload lies inside the receive buffer, and the parse loop ends. -/

namespace Lepton.Ws

open Words Search

variable {s s' s'' : WsSession} {cb : Callbacks}

theorem tally_of {faults : Nat} {p : Prop} [Decidable p] (h : p) : WsSession.tally faults p = faults := if_pos h

/-- The size of a header and of its payload are bounded. -/
theorem wsParseHeader_bounds {buf : List UInt8} {hdr : WsFrameHeader} (h : wsParseHeader buf = .header hdr) :
    hdr.payloadLen < 2 ^ 63 ∧ 2 ≤ hdr.headerSize ∧ hdr.headerSize ≤ 14 := by
  obtain ⟨hsound, -⟩ := wsParseHeader_eq_header.mp h
  obtain ⟨hmin, hmax⟩ := hsound.headerSize_bounds
  exact ⟨hsound.size, hmin, hmax⟩

namespace WsSession

theorem queueFrame_faults (s : WsSession) (opcode : WsOpcode) (payload : List UInt8) (fin : Bool) :
    (s.queueFrame opcode payload fin).2.faults = s.faults := by
  obtain ⟨acquires, hs⟩ := (s.note (.enqueued s.state)).acquire_snd (wsClientHeaderSize payload.length)
  unfold queueFrame
  dsimp only
  split
  · rw [hs]
    rfl
  · next hbase =>
    obtain ⟨id, hid⟩ := acquire_fst hbase
    rw [hid]
    generalize ((s.note (.enqueued s.state)).acquire (wsClientHeaderSize payload.length)).2 = s₁ at hs ⊢
    obtain ⟨key, gen, hkey⟩ := s₁.nextKey_eq
    rw [hkey]
    have hfaults : s₁.faults = s.faults := by rw [hs]; rfl
    split
    · exact hfaults
    · next hroom =>
      have hhead (cap : Nat) :
          wsClientHeaderSize payload.length ≤ (IoBuffer.blank id cap (wsClientHeaderSize payload.length)).head :=
        Nat.le_refl _
      rw [tally_of (Nat.not_lt.mp hroom), tally_of (hhead _)]
      split
      · exact hfaults
      · split
        · next s₂ hpush =>
          obtain ⟨hfalse, -⟩ | ⟨-, ring, hring, hs₂⟩ := pushPending_cases hpush
          · cases hfalse
          · rw [hs₂]
            exact hfaults
        · next s₂ hpush =>
          obtain ⟨-, -, rfl⟩ | ⟨htrue, -⟩ := pushPending_cases hpush
          · exact hfaults
          · cases htrue

theorem queueRequest_faults (s : WsSession) : s.queueRequest.2.faults = s.faults := by
  obtain ⟨acquires, hs⟩ := acquire_snd
    { s.note (.requested s.state (s.pending.count < kMaxPending)) with recv := s.recv.reset 0, input := [] } 0
  unfold queueRequest
  dsimp only
  rw [hs]
  split
  · rfl
  · next hbase =>
    split
    · rfl
    · next text htext =>
      rw [tally_of (length_buildWsUpgrade htext)]
      split
      · next s₁ hpush =>
        obtain ⟨hfalse, -⟩ | ⟨-, ring, hring, hs₁⟩ := pushPending_cases hpush
        · cases hfalse
        · rw [hs₁]
          rfl
      · next s₁ hpush =>
        obtain ⟨-, -, rfl⟩ | ⟨htrue, -⟩ := pushPending_cases hpush
        · rfl
        · cases htrue

/-- The buffers of the receive path are well formed, and no assertion has failed. -/
structure Sane (s : WsSession) : Prop where
  recv : s.recv.Fits
  frag : s.frag.Fits
  faults : s.faults = 0

/-- `s'` has the receive buffer of `s`, and no assertion failed on the way. -/
structure Spares (s s' : WsSession) : Prop where
  recv : s'.recv = s.recv
  frag : s.frag.Fits → s'.frag.Fits
  faults : s'.faults = s.faults

theorem Spares.refl (s : WsSession) : Spares s s := ⟨rfl, id, rfl⟩

theorem Spares.trans (h : Spares s s') (h' : Spares s' s'') : Spares s s'' :=
  ⟨h'.recv.trans h.recv, fun hs => h'.frag (h.frag hs), h'.faults.trans h.faults⟩

theorem Spares.same (hrecv : s'.recv = s.recv) (hfrag : s'.frag = s.frag)
    (hfaults : s'.faults = s.faults) : Spares s s' := ⟨hrecv, fun h => hfrag ▸ h, hfaults⟩

theorem Spares.sane (h : Spares s s') (hs : Sane s) : Sane s' :=
  ⟨h.recv ▸ hs.recv, h.frag hs.frag, h.faults.trans hs.faults⟩

theorem fits_acquire (s : WsSession) : (s.acquire 0).1.Fits := by
  unfold acquire
  split
  · exact IoBuffer.fits_blank (Nat.zero_le _) s.cfg.cap_lt
  · exact IoBuffer.fits_empty
  · exact IoBuffer.fits_blank (Nat.zero_le _) s.cfg.cap_lt

theorem spares_enter (s : WsSession) (st : WsState) : Spares s (s.enter st) := by
  obtain ⟨log, h, -⟩ := s.enter_eq st
  rw [h]
  exact Spares.same rfl rfl rfl

theorem spares_down (s : WsSession) (next : WsState) : Spares s ((s.shutDown next).enter next) := by
  refine Spares.trans ?_ (spares_enter _ next)
  obtain ⟨clocks, t, h⟩ := s.shutDown_eq next
  rw [h]
  exact ⟨rfl, IoBuffer.Fits.release, rfl⟩

theorem spares_queueFrame (s : WsSession) (opcode : WsOpcode) (payload : List UInt8) (fin : Bool) :
    Spares s (s.queueFrame opcode payload fin).2 := by
  have hfaults := s.queueFrame_faults opcode payload fin
  obtain ⟨_, _, _, _, _, _, h, -⟩ := s.queueFrame_snd opcode payload fin
  rw [h] at hfaults ⊢
  exact Spares.same rfl rfl hfaults

theorem spares_storeFragment (s : WsSession) (chunk : List UInt8) : Spares s (s.storeFragment chunk).2 := by
  unfold storeFragment
  split
  · exact Spares.refl s
  · split
    · exact Spares.refl s
    · next hroom =>
      have hroom' := Nat.not_lt.mp hroom
      exact ⟨rfl, fun h => (h.append hroom').1, tally_of hroom'⟩

theorem spares_openFragment (s : WsSession) (op : WsOpcode) : Spares s (s.openFragment op).2 := by
  have hopen : Spares s (if s.frag.base = none then { (s.acquire 0).2 with frag := (s.acquire 0).1 } else s) := by
    split
    · obtain ⟨acquires, h⟩ := s.acquire_snd 0
      rw [h]
      exact ⟨rfl, fun _ => s.fits_acquire, rfl⟩
    · exact Spares.refl s
  unfold openFragment
  dsimp only
  generalize (if s.frag.base = none then { (s.acquire 0).2 with frag := (s.acquire 0).1 } else s) = s₁ at hopen ⊢
  split
  · exact hopen
  · exact hopen.trans ⟨rfl, fun h => IoBuffer.Backed.reset ⟨h.backed, h.small⟩, rfl⟩

theorem spares_flushTurn (s : WsSession) : Spares s s.flushTurn.2 := by
  rcases s.flushTurn_snd with ⟨interest, h, -⟩ | ⟨-, r, writes, pending, h⟩
  · rw [h]
    exact Spares.same rfl rfl rfl
  · rw [h]
    exact Spares.same rfl rfl rfl

theorem blocks_spares : Blocks Spares := by
  refine Blocks.of_turn Spares.refl Spares.trans (fun s next _ => s.spares_down next) spares_flushTurn
    (fun s opcode payload fin _ _ => s.spares_queueFrame opcode payload fin) (fun _ _ _ => Spares.same rfl rfl rfl) fun s => ?_
  obtain ⟨clocks, log, h, -⟩ := s.deadlinePassed_snd
  rw [h]
  exact Spares.same rfl rfl rfl

theorem dispatches_spares {P : WsState → Prop} : Dispatches P Spares where
  toBlocks := blocks_spares
  addMessage _ _ _ := Spares.same rfl rfl rfl
  storeFragment s chunk _ := s.spares_storeFragment chunk
  dropFragment _ := ⟨rfl, IoBuffer.Fits.release, rfl⟩
  openFragment s op _ := s.spares_openFragment op
  takePong _ := Spares.same rfl rfl rfl

theorem spares_act (hcb : Keeping Spares cb) (s : WsSession) {a : Act} (ha : a.keepsOn = true) :
    Spares s (act cb s a) := by
  cases a with
  | connect => cases ha
  | send payload binary => exact keeps_send blocks_spares.toFlushes hcb s payload binary
  | close code =>
    apply keeps_close blocks_spares hcb s code (Spares.same rfl rfl rfl)
    intro _
    have hsend : Spares s (sendClose cb s code) :=
      keeps_sendClose blocks_spares.toFlushes hcb (Spares.same rfl rfl rfl) (spares_queueFrame ..)
        fun _ _ _ _ _ => Spares.same rfl rfl rfl
    exact hsend.trans (spares_enter _ .closing)

theorem spares_callbacksOf (depth : Nat) : Keeping Spares (callbacksOf Act.keepsOn depth) :=
  keeping_callbacksOf Spares.refl Spares.trans (fun _ _ => Spares.same rfl rfl rfl)
    (fun _ hcb s _ ha => spares_act hcb s ha) depth

theorem sane_compactRecv (hs : Sane s) : Sane s.compactRecv := by
  have hreset : (s.recv.reset 0).Fits := IoBuffer.Backed.reset ⟨hs.recv.backed, hs.recv.small⟩
  unfold compactRecv
  split
  · exact ⟨hreset, hs.frag, hs.faults⟩
  · split
    · exact hs
    · have hroom : s.recv.len ≤ (s.recv.reset 0).tailroom := by
        rw [hreset.tailroom_eq]
        exact (Nat.le_add_left _ _).trans hs.recv.inside
      exact ⟨hs.recv.moveToFront.1, hs.frag, (tally_of hroom).trans hs.faults⟩

theorem sane_consumeRecv (hs : Sane s) {n : Nat} (hn : n ≤ s.recv.len) : Sane (s.consumeRecv n) :=
  ⟨(hs.recv.consume hn).1, hs.frag, (tally_of hn).trans hs.faults⟩

theorem sane_appendRecv (hs : Sane s) {bytes : List UInt8} (hbytes : bytes.length ≤ s.recv.tailroom) :
    Sane (s.appendRecv bytes) :=
  ⟨(hs.recv.append hbytes).1, hs.frag, (tally_of hbytes).trans hs.faults⟩

/-- The sum of `parse_frames` never wraps. -/
theorem sumFits_true (bytes : List UInt8) : sumFits bytes = true := by
  unfold sumFits
  split
  · next hdr h =>
    obtain ⟨hpayload, -, hsize⟩ := wsParseHeader_bounds h
    have hword : wordSize = 2 ^ 64 := rfl
    exact decide_eq_true (by omega)
  · rfl

theorem countHeader_eq (s : WsSession) : s.countHeader = s := by
  rw [countHeader, tally_of (sumFits_true _)]

/-- A frame that is handed on lies inside the receive buffer. -/
theorem nextFrame_bounds {hdr : WsFrameHeader} {payload : List UInt8} {total : Nat}
    (h : s.nextFrame = .frame hdr payload total) :
    total = hdr.headerSize + hdr.payloadLen ∧ total ≤ s.recv.len ∧ 2 ≤ total := by
  unfold nextFrame at h
  split at h
  · cases h
  · cases h
  · next hparse =>
    obtain ⟨hpayload, hmin, hsize⟩ := wsParseHeader_bounds hparse
    dsimp only at h
    split at h
    · cases h
    · next hlen =>
      cases h
      have hword : wordSize = 2 ^ 64 := rfl
      have hadd : add hdr.headerSize hdr.payloadLen = hdr.headerSize + hdr.payloadLen := add_of_lt (by omega)
      exact ⟨hadd, Nat.not_lt.mp hlen, by omega⟩

/-- The parse loop: every turn that goes on consumes bytes, so that the loop ends before its bound. -/
theorem sane_parseLoop (hcb : Keeping Spares cb) {fuel : Nat} (hs : Sane s)
    (hfuel : s.recv.len < fuel) : Sane (parseLoop cb fuel s) := by
  induction fuel generalizing s with
  | zero => exact absurd hfuel (Nat.not_lt_zero _)
  | succ fuel ih =>
    rw [parseLoop, countHeader_eq]
    dsimp only
    split
    · exact sane_compactRecv hs
    · exact (keeps_teardown blocks_spares hcb s not_live_failed).sane hs
    · next hdr payload total hframe =>
      obtain ⟨htotal, hlen, hmin⟩ := nextFrame_bounds hframe
      have hcount : Spares s (s.countFrame hdr payload) :=
        Spares.same rfl rfl (tally_of ⟨htotal ▸ hlen, htotal ▸ hmin⟩)
      have hdispatch := hcount.trans (keeps_dispatchFrame (P := fun _ => True) dispatches_spares hcb _ hdr payload trivial
        (spares_queueFrame _ .pong payload true))
      have hrecv := hdispatch.recv
      have hs₁ := hdispatch.sane hs
      generalize dispatchFrame cb (s.countFrame hdr payload) hdr payload = s₁ at hrecv hs₁ ⊢
      have hlen₁ : total ≤ s₁.recv.len := hrecv ▸ hlen
      have hs₂ := sane_consumeRecv hs₁ hlen₁
      split
      · apply ih hs₂
        change sub s₁.recv.len total < fuel
        have hsmall := hs₁.recv.small
        have hinside := hs₁.recv.inside
        have hword : wordSize = 2 ^ 64 := rfl
        rw [sub_of_le (by omega) hlen₁, hrecv]
        omega
      · exact hs₂

theorem sane_parseFrames (hcb : Keeping Spares cb) (hs : Sane s) :
    Sane (parseFrames cb s) := by
  refine sane_parseLoop hcb hs ?_
  have hinside := hs.recv.inside
  have hbacked := hs.recv.backed
  omega

theorem sane_heard (hs : Sane s) (r : ReadResult) (reads : List ReadResult) (input : List UInt8) :
    Sane (s.heard r reads input) :=
  ⟨hs.recv, hs.frag, hs.faults⟩

theorem sane_readFrames (hs : Sane s) : Sane s.readFrames.2 := by
  obtain ⟨r, s', h⟩ : ∃ r s', s.readFrames = (r, s') := ⟨_, _, rfl⟩
  rw [h]
  rcases readFrames_cases h with ⟨-, -, rfl⟩ | ⟨reads, ⟨-, rfl⟩ | ⟨-, rfl⟩ | ⟨-, rfl⟩ | ⟨bytes, -, hlen, -, rfl⟩⟩
  · exact hs
  · exact sane_heard hs ..
  · exact sane_heard hs ..
  · exact sane_heard hs ..
  · exact sane_appendRecv (sane_heard hs ..) hlen

theorem headersLen_le (input expected : List UInt8) : (validateWsUpgrade input expected).headersLen ≤ input.length := by
  unfold validateWsUpgrade
  split
  · exact Nat.zero_le _
  · next hfind => exact (find_bounds hfind).2

theorem sane_judgeResponse (hs : Sane s) : Sane s.judgeResponse.2 := by
  unfold judgeResponse
  dsimp only
  split
  · exact hs
  · have hs₁ : Sane (s.note (.response s.input)) := ⟨hs.recv, hs.frag, hs.faults⟩
    split
    · exact hs₁
    · have hlen := headersLen_le s.recv.bytes s.cfg.expectedAccept
      rw [hs.recv.length_bytes] at hlen
      have hs₂ : Sane ((s.note (.response s.input)).mark .opened) := ⟨hs.recv, hs.frag, hs.faults⟩
      have hdone := sane_compactRecv (sane_consumeRecv hs₂ hlen)
      exact ⟨hdone.recv, hdone.frag, hdone.faults⟩

theorem sane_readResponse (hs : Sane s) : Sane s.readResponse.2 := by
  obtain ⟨v, s', h⟩ : ∃ v s', s.readResponse = (v, s') := ⟨_, _, rfl⟩
  rw [h]
  rcases readResponse_turn h with ⟨-, -, rfl⟩ | ⟨reads, ⟨-, rfl⟩ | ⟨-, rfl⟩ | ⟨-, rfl⟩ | ⟨bytes, -, hlen, hjudge⟩⟩
  · exact hs
  · exact sane_heard hs ..
  · exact sane_heard hs ..
  · exact sane_heard hs ..
  · have hdone := sane_judgeResponse (sane_appendRecv (sane_heard hs (.data bytes) reads (s.input ++ bytes)) hlen)
    rw [hjudge] at hdone
    exact hdone

theorem sane_tryDial (hs : Sane s) : Sane s.tryDial.2 := by
  have htake : Sane (s.mark .dial).takeRecv.2 := by
    have hfits := (s.mark .dial).releaseBuffers.fits_acquire
    obtain ⟨acquires, h⟩ := (s.mark .dial).releaseBuffers.acquire_snd 0
    unfold takeRecv
    dsimp only
    rw [h]
    exact ⟨IoBuffer.Backed.reset ⟨hfits.backed, hfits.small⟩, hs.frag.release, hs.faults⟩
  unfold tryDial
  split
  · next h =>
    rw [h] at htake
    exact ⟨htake.recv, htake.frag, htake.faults⟩
  · next s₁ h =>
    rw [h] at htake
    have harm : Sane s₁.armDeadline := by
      obtain ⟨clocks, t, harm⟩ := s₁.armDeadline_eq
      rw [harm]
      exact ⟨htake.recv, htake.frag, htake.faults⟩
    split
    · next hconn =>
      obtain ⟨connects, fd, hs₂⟩ := transportConnect_true (s := s₁.armDeadline) (by rw [hconn])
      rw [hconn] at hs₂
      rw [hs₂]
      exact ⟨harm.recv, harm.frag, harm.faults⟩
    · next hconn =>
      obtain ⟨connects, hs₂⟩ := transportConnect_false (s := s₁.armDeadline) (by rw [hconn])
      rw [hconn] at hs₂
      rw [hs₂]
      exact ⟨harm.recv, harm.frag, harm.faults⟩

end WsSession

/-- `s'` is sane if `s` is. -/
def Sanely (s s' : WsSession) : Prop := WsSession.Sane s → WsSession.Sane s'

namespace WsSession

theorem above_sanely : Above Spares Sanely := ⟨Spares.sane, fun h h' hs => h' (h hs)⟩

theorem dials_sanely : Dials Sanely where
  starved {s s'} h hs := by
    have hdial := sane_tryDial hs
    rw [h] at hdial
    exact (spares_enter s' .failed).sane hdial
  refused {s s'} h hs := by
    have hdial := sane_tryDial hs
    rw [h] at hdial
    exact (spares_down s' .failed).sane hdial
  dialed {s s'} h hs := by
    have hdial := sane_tryDial hs
    rw [h] at hdial
    exact (spares_enter s' .connecting).sane hdial
  register := keeps_register (fun _ => id) fun _ _ _ _ hs => ⟨hs.recv, hs.frag, hs.faults⟩

theorem sanely_queueRequest {ok : Bool} (h : s.queueRequest = (ok, s')) : Sanely s s' := by
  intro hs
  have hfaults := s.queueRequest_faults
  rw [h] at hfaults
  obtain ⟨acquires, faults, pending, interest, request, marks, rfl, -⟩ := queueRequest_snd h
  exact ⟨IoBuffer.Backed.reset ⟨hs.recv.backed, hs.recv.small⟩, hs.frag, hfaults.trans hs.faults⟩

theorem sanely_request {ok : Bool} (hset : Spares (s.enter .upgrading) s')
    (h : s'.queueRequest = (ok, s'')) : Sanely s s'' :=
  fun hs => sanely_queueRequest h (((s.spares_enter .upgrading).trans hset).sane hs)

theorem sanely_readResponse {v : Verdict} (h : s.readResponse = (v, s')) : Sanely s s' := by
  intro hs
  have hread := sane_readResponse hs
  rw [h] at hread
  exact hread

theorem drives_sanely : Drives Spares Sanely where
  toAbove := above_sanely
  toConnects := dials_sanely.connects above_sanely
  reconnectDue s _ := by
    obtain ⟨clocks, delay, h⟩ := s.reconnectDue_snd
    rw [h]
    exact fun hs => ⟨hs.recv, hs.frag, hs.faults⟩
  pollOpen s := by
    obtain ⟨opens, h⟩ := s.transportPollOpen_snd
    rw [h]
    exact fun hs => ⟨hs.recv, hs.frag, hs.faults⟩
  request _ hset h := sanely_request hset h
  refuse _ hset h hs := (spares_down _ _).sane (sanely_request hset h hs)
  wait _ h := sanely_readResponse h
  reject _ h hs := (spares_down _ _).sane (sanely_readResponse h hs)
  opens := above_sanely.opens
    (fun _ h hs => (spares_enter _ _).sane (sanely_readResponse h hs))
    fun s => by
      obtain ⟨clocks, t, h⟩ := s.armPing_eq
      rw [h]
      exact fun hs => ⟨hs.recv, hs.frag, hs.faults⟩
  readFrames _ hs := sane_readFrames hs
  parse hcb _ _ _ hs := sane_parseFrames hcb hs
  resume hcb _ _ _ _ hs := sane_parseFrames hcb ⟨hs.recv, hs.frag, hs.faults⟩
  keepalive hcb _ s _ := by
    refine Spares.sane (keeps_keepalive blocks_spares hcb ?_ (fun s' _ => s'.spares_queueFrame .ping [] true)
      fun _ _ => Spares.same rfl rfl rfl)
    obtain ⟨clocks, log, h, -⟩ := keepaliveTurn_snd _
    rw [h]
    exact Spares.same rfl rfl rfl

theorem sanely_run (depth : Nat) (s : WsSession) (calls : List (Api × Env)) :
    Sanely s (runWith (callbacksOf Act.keepsOn depth) s calls) := by
  have hcb := spares_callbacksOf depth
  refine keeps_runWith blocks_spares drives_sanely hcb (basic_callbacksOf Act.keepsOn depth) (fun s env => ?_)
    (fun s a => ?_) s calls
  · exact fun hs => ⟨hs.recv, hs.frag, hs.faults⟩
  · cases a with
    | connect => exact keeps_connecting above_sanely blocks_spares.refl drives_sanely.toConnects hcb s
    | send payload binary => exact (spares_act hcb s (a := .send payload binary) rfl).sane
    | close code => exact (spares_act hcb s (a := .close code) rfl).sane

end WsSession

/-- **The receive path is safe.** In every run, whatever the server sends and however it is cut into reads, with
callbacks that send and close: the sum of `parse_frames` never wraps, every payload handed on lies inside the
receive buffer, every append, consume and prepend is within bounds, and every parse loop ends with each of its
turns having consumed at least two bytes. -/
theorem receive_path_safe (cfg : Config) (seed : UInt64) (autoReconnect : Bool) (depth : Nat) (calls : List (Api × Env)) :
    (WsSession.runWith (WsSession.callbacksOf Act.keepsOn depth) (fresh cfg seed autoReconnect) calls).faults = 0 :=
  (WsSession.sanely_run depth _ calls ⟨IoBuffer.fits_empty, IoBuffer.fits_empty, rfl⟩).faults

end Lepton.Ws

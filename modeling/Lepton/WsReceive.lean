import Lepton.Fragments
import Lepton.WsSafe

/-! What happens to received frames. A frame handed to `dispatch_frame` does to the messages delivered and the
message in progress what a reassembler does, or ends the connection; nothing else touches them, except that a
new connection starts with neither. -/

namespace Lepton.Ws

variable {s s' s'' : WsSession} {cb : Callbacks}

/-- A received frame as a piece of a message. -/
def pieceOf (x : WsFrameHeader × List UInt8) : Piece WsOpcode UInt8 :=
  match x.1.opcode with
  | .text | .binary => if x.1.fin then .whole x.1.opcode x.2 else .first x.1.opcode x.2
  | .continuation => .next x.2 x.1.fin
  | .close | .ping | .pong => .other

theorem pieceOf_data {hdr : WsFrameHeader} (payload : List UInt8) (h : hdr.opcode = .text ∨ hdr.opcode = .binary) :
    pieceOf (hdr, payload) = if hdr.fin then .whole hdr.opcode payload else .first hdr.opcode payload := by
  unfold pieceOf
  rcases h with h | h
  · rw [h]
  · rw [h]

theorem pieceOf_continuation {hdr : WsFrameHeader} (payload : List UInt8) (h : hdr.opcode = .continuation) :
    pieceOf (hdr, payload) = .next payload hdr.fin := by
  unfold pieceOf
  rw [h]

theorem pieceOf_control {hdr : WsFrameHeader} (payload : List UInt8)
    (h : hdr.opcode = .close ∨ hdr.opcode = .ping ∨ hdr.opcode = .pong) : pieceOf (hdr, payload) = .other := by
  unfold pieceOf
  rcases h with h | h | h
  · rw [h]
  · rw [h]
  · rw [h]

/-- The states of a connection whose received data is still accounted for. -/
def WsState.Clean (st : WsState) : Prop := st = .connecting ∨ st = .upgrading ∨ st = .opened

instance : DecidablePred WsState.Clean := fun st => inferInstanceAs (Decidable (st = _ ∨ st = _ ∨ st = _))

namespace WsSession

/-- The message in progress. -/
def held (s : WsSession) : Option (WsOpcode × List UInt8) :=
  if s.frag.base = none then none else some (s.fragOpcode, s.frag.bytes)

/-- The session as a reassembler. -/
def view (s : WsSession) : Assembly WsOpcode UInt8 :=
  { done := s.messages.map fun m => (m.opcode, m.payload), held := s.held }

def pongs (s : WsSession) : List Ws.Frame := s.frames.filter fun f => f.opcode = .pong

end WsSession

/-- The buffer of the message in progress is well formed, and empty if there is none. -/
structure FragOk (s : WsSession) : Prop where
  fits : s.frag.Fits
  empty : s.frag.base = none → s.frag.bytes = []

/-- Nothing has been received, delivered or answered on this connection. -/
structure Untouched (s : WsSession) : Prop where
  received : s.received = []
  messages : s.messages = []
  pongs : s.pongs = []
  frag : s.frag.base = none

/-- The received data is as it was; or the connection has ended, and with it the message in progress. -/
structure SameData (s s' : WsSession) : Prop where
  received : s'.received = s.received
  messages : s'.messages = s.messages
  pongs : s'.pongs = s.pongs
  frag : s'.frag = s.frag ∧ s'.fragOpcode = s.fragOpcode ∧ (s'.state.Clean → s.state.Clean) ∨
    s'.frag.base = none ∧ ¬ s'.state.Clean

/-- `s'` is reached from `s` without a frame being handled. -/
structure Idles (s s' : WsSession) : Prop where
  frag : FragOk s → FragOk s'
  data : Untouched s' ∨ SameData s s'

theorem SameData.trans (h : SameData s s') (h' : SameData s' s'') : SameData s s'' := by
  refine ⟨h'.received.trans h.received, h'.messages.trans h.messages, h'.pongs.trans h.pongs, ?_⟩
  rcases h'.frag with ⟨hfrag', hop', hclean'⟩ | hend
  · rcases h.frag with ⟨hfrag, hop, hclean⟩ | ⟨hbase, hend⟩
    · exact Or.inl ⟨hfrag'.trans hfrag, hop'.trans hop, fun hs => hclean (hclean' hs)⟩
    · exact Or.inr ⟨hfrag' ▸ hbase, fun hs => hend (hclean' hs)⟩
  · exact Or.inr hend

theorem SameData.untouched (h : SameData s s') (hs : Untouched s) : Untouched s' := by
  refine ⟨h.received.trans hs.received, h.messages.trans hs.messages, h.pongs.trans hs.pongs, ?_⟩
  rcases h.frag with ⟨hfrag, -⟩ | ⟨hbase, -⟩
  · exact hfrag ▸ hs.frag
  · exact hbase

theorem Idles.trans (h : Idles s s') (h' : Idles s' s'') : Idles s s'' := by
  refine ⟨fun hs => h'.frag (h.frag hs), ?_⟩
  rcases h'.data with hnew | hsame'
  · exact Or.inl hnew
  · exact h.data.imp hsame'.untouched fun hsame => hsame.trans hsame'

/-- A step that leaves the received data alone, in a state that is no cleaner. -/
theorem Idles.same (hreceived : s'.received = s.received) (hmessages : s'.messages = s.messages)
    (hpongs : s'.pongs = s.pongs) (hfrag : s'.frag = s.frag) (hop : s'.fragOpcode = s.fragOpcode)
    (hclean : s'.state.Clean → s.state.Clean) : Idles s s' :=
  ⟨fun h => ⟨hfrag ▸ h.fits, hfrag ▸ h.empty⟩, Or.inr ⟨hreceived, hmessages, hpongs, Or.inl ⟨hfrag, hop, hclean⟩⟩⟩

theorem Idles.refl (s : WsSession) : Idles s s := Idles.same rfl rfl rfl rfl rfl id

namespace WsSession

theorem not_clean_of_not_live {st : WsState} (h : ¬ st.Live) : ¬ st.Clean := by
  rintro (rfl | rfl | rfl)
  · exact h (by decide)
  · exact h (by decide)
  · exact h (by decide)

theorem release_release (b : IoBuffer) : b.release.release = b.release := by
  rw [IoBuffer.release, b.base_release]
  rfl

theorem bytes_release (h : FragOk s) : s.frag.release.bytes = [] := by
  unfold IoBuffer.release
  split
  · rfl
  · next hbase => exact h.empty (Option.not_isSome_iff_eq_none.mp hbase)

/-- The message in progress is given up with the connection. -/
theorem idles_released (hreceived : s'.received = s.received) (hmessages : s'.messages = s.messages)
    (hpongs : s'.pongs = s.pongs) (hfrag : s'.frag = s.frag.release) (hend : ¬ s'.state.Clean) : Idles s s' := by
  refine ⟨fun h => ⟨hfrag ▸ h.fits.release, fun _ => hfrag ▸ bytes_release h⟩, Or.inr ⟨hreceived, hmessages, hpongs, ?_⟩⟩
  exact Or.inr ⟨hfrag ▸ IoBuffer.base_release _, hend⟩

theorem idles_enter (s : WsSession) {st : WsState} (h : st.Clean → s.state.Clean) : Idles s (s.enter st) := by
  obtain ⟨log, heq, -⟩ := s.enter_eq st
  rw [heq]
  exact Idles.same rfl rfl rfl rfl rfl h

theorem idles_down (s : WsSession) {next : WsState} (hnext : ¬ next.Live) : Idles s ((s.shutDown next).enter next) := by
  obtain ⟨clocks, t, hdown⟩ := s.shutDown_eq next
  obtain ⟨log, h, -⟩ := (s.shutDown next).enter_eq next
  rw [h, hdown]
  exact idles_released rfl rfl rfl rfl (not_clean_of_not_live hnext)

theorem idles_flushTurn (s : WsSession) : Idles s s.flushTurn.2 := by
  rcases s.flushTurn_snd with ⟨interest, h, -⟩ | ⟨-, r, writes, pending, h⟩
  · rw [h]
    exact Idles.same rfl rfl rfl rfl rfl id
  · rw [h]
    exact Idles.same rfl rfl rfl rfl rfl id

theorem pongs_append (s : WsSession) {frames : List Ws.Frame} {f : Ws.Frame} (hop : f.opcode ≠ .pong)
    (hframes : frames = s.frames ++ [f]) : frames.filter (fun f => f.opcode = .pong) = s.pongs := by
  rw [hframes, List.filter_append, List.filter_cons_of_neg (by simpa using hop), List.filter_nil, List.append_nil]
  rfl

theorem idles_queueFrame (s : WsSession) {opcode : WsOpcode} (payload : List UInt8) (fin : Bool) (hop : opcode ≠ .pong) :
    Idles s (s.queueFrame opcode payload fin).2 := by
  obtain ⟨status, s', hqueue⟩ : ∃ status s', s.queueFrame opcode payload fin = (status, s') := ⟨_, _, rfl⟩
  rw [hqueue]
  obtain ⟨acquires, gen, faults, ⟨-, rfl⟩ | ⟨-, id, key, ring, -, -, rfl⟩⟩ := queueFrame_cases hqueue
  · exact Idles.same rfl rfl rfl rfl rfl fun h => h
  · exact Idles.same rfl rfl (s.pongs_append hop rfl) rfl rfl fun h => h

theorem blocks_idles : Blocks Idles := by
  refine Blocks.of_turn Idles.refl Idles.trans (fun s _ hnext => s.idles_down hnext) idles_flushTurn
    (fun s _ payload fin hop _ => s.idles_queueFrame payload fin hop.1) (fun _ _ _ => Idles.same rfl rfl rfl rfl rfl id)
    fun s => ?_
  obtain ⟨clocks, log, h, -⟩ := s.deadlinePassed_snd
  rw [h]
  exact Idles.same rfl rfl rfl rfl rfl id

theorem dials_idles : Dials Idles where
  starved {s s'} h := by
    obtain ⟨acquires, recv, hs⟩ := tryDial_starved h
    obtain ⟨log, heq, -⟩ := s'.enter_eq .failed
    rw [heq, hs]
    exact idles_released rfl rfl rfl rfl (not_clean_of_not_live not_live_failed)
  refused {s s'} h := by
    obtain ⟨env, recv, deadline, -, hs⟩ := tryDial_refused h
    obtain ⟨clocks, t, hdown⟩ := s'.shutDown_eq .failed
    obtain ⟨log, heq, -⟩ := (s'.shutDown .failed).enter_eq .failed
    rw [heq, hdown, hs]
    exact idles_released rfl rfl rfl (release_release _) (not_clean_of_not_live not_live_failed)
  dialed {s s'} h := by
    obtain ⟨env, deadline, fd, -, hs⟩ := tryDial_dialed h
    obtain ⟨log, heq, -⟩ := s'.enter_eq .connecting
    rw [heq, hs]
    refine ⟨fun hf => ⟨hf.fits.release, fun _ => bytes_release hf⟩, Or.inl ⟨rfl, rfl, rfl, IoBuffer.base_release _⟩⟩
  register := keeps_register Idles.refl fun _ _ _ _ => Idles.same rfl rfl rfl rfl rfl id

theorem idles_act (hcb : Keeping Idles cb) (s : WsSession) (a : Act) : Idles s (act cb s a) := by
  cases a with
  | connect => exact keeps_startConnect blocks_idles dials_idles hcb s
  | send payload binary => exact keeps_send blocks_idles.toFlushes hcb s payload binary
  | close code =>
    apply keeps_close blocks_idles hcb s code (Idles.same rfl rfl rfl rfl rfl id)
    intro _
    have hsend : Idles s (sendClose cb s code) :=
      keeps_sendClose blocks_idles.toFlushes hcb (Idles.same rfl rfl rfl rfl rfl id)
        (idles_queueFrame _ _ true (by decide : WsOpcode.close ≠ .pong))
        fun _ _ _ _ _ => Idles.same rfl rfl rfl rfl rfl id
    exact hsend.trans (idles_enter _ fun h => absurd h (by decide))

theorem idles_callbacks (depth : Nat) : Keeping Idles (callbacks depth) :=
  keeping_callbacks Idles.refl Idles.trans (fun _ _ => Idles.same rfl rfl rfl rfl rfl id) (fun _ hcb => idles_act hcb) depth

/-- The user's code cannot tell whether the message it is given is still in the buffer. -/
theorem idles_dropFragment (h : Idles s s') (hs : FragOk s) : Idles s.dropFragment s'.dropFragment := by
  have hs' := h.frag hs
  refine ⟨fun _ => ⟨IoBuffer.Fits.release hs'.fits, fun _ => bytes_release hs'⟩, ?_⟩
  rcases h.data with hnew | hsame
  · exact Or.inl ⟨hnew.received, hnew.messages, hnew.pongs, IoBuffer.base_release _⟩
  · refine Or.inr ⟨hsame.received, hsame.messages, hsame.pongs, ?_⟩
    rcases hsame.frag with ⟨hfrag, hop, hclean⟩ | ⟨-, hend⟩
    · exact Or.inl ⟨congrArg IoBuffer.release hfrag, hop, hclean⟩
    · exact Or.inr ⟨IoBuffer.base_release _, hend⟩

end WsSession

/-- What a received frame does before the user's code runs: it ends the connection, or does what a reassembler
does with it; a ping may be answered. -/
structure Handled (s : WsSession) (x : WsFrameHeader × List UInt8) (s' : WsSession) : Prop where
  received : s'.received = s.received ++ [x]
  frag : FragOk s'
  outcome : (s'.messages = s.messages ∧ s'.pongs = s.pongs ∧ s'.frag.base = none ∧ ¬ s'.state.Clean) ∨
    (s'.state = s.state ∧ s'.view = s.view.take (pieceOf x) ∧
      (s'.pongs = s.pongs ∨ x.1.opcode = .ping ∧ ∃ f : Frame, f.payload = x.2 ∧ s'.pongs = s.pongs ++ [f]))

namespace WsSession

theorem openFragment_true {op : WsOpcode} (h : s.openFragment op = (true, s')) :
    s'.frag.base ≠ none ∧ s'.frag.bytes = [] ∧ s'.fragOpcode = op := by
  unfold openFragment at h
  dsimp only at h
  generalize (if s.frag.base = none then { (s.acquire 0).2 with frag := (s.acquire 0).1 } else s) = s₁ at h
  split at h
  · cases h
  · next hbase =>
    cases h
    exact ⟨hbase, rfl, rfl⟩

theorem bytes_openFragment (s : WsSession) (op : WsOpcode) :
    (s.openFragment op).2.frag.base = none → (s.openFragment op).2.frag.bytes = [] := by
  have hacquire : (s.acquire 0).1.bytes = [] := by
    unfold acquire
    split
    · rfl
    · rfl
    · rfl
  have hfrag : (if s.frag.base = none then { (s.acquire 0).2 with frag := (s.acquire 0).1 } else s).frag.base = none →
      (if s.frag.base = none then { (s.acquire 0).2 with frag := (s.acquire 0).1 } else s).frag.bytes = [] := by
    by_cases hbase : s.frag.base = none
    · rw [if_pos hbase]
      exact fun _ => hacquire
    · rw [if_neg hbase]
      exact fun h => absurd h hbase
  unfold openFragment
  dsimp only
  generalize (if s.frag.base = none then { (s.acquire 0).2 with frag := (s.acquire 0).1 } else s) = s₁ at hfrag ⊢
  split
  · exact hfrag
  · exact fun _ => rfl

section Handled

variable {s₁ : WsSession} {x : WsFrameHeader × List UInt8}

theorem handled_other (hpiece : pieceOf x = .other) (hreceived : s₁.received = s.received ++ [x])
    (hmessages : s₁.messages = s.messages) (hfrag : s₁.frag = s.frag) (hop : s₁.fragOpcode = s.fragOpcode)
    (hstate : s₁.state = s.state) (hf : FragOk s)
    (hpongs : s₁.pongs = s.pongs ∨ x.1.opcode = .ping ∧ ∃ f : Ws.Frame, f.payload = x.2 ∧ s₁.pongs = s.pongs ++ [f]) :
    Handled s x s₁ := by
  refine ⟨hreceived, ⟨hfrag ▸ hf.fits, hfrag ▸ hf.empty⟩, Or.inr ⟨hstate, ?_, hpongs⟩⟩
  rw [hpiece, Assembly.take, view, view, held, held, hmessages, hfrag, hop]

/-- The connection ends before anything is delivered. -/
theorem handled_teardown (hcb : Keeping Idles cb) (hreceived : s₁.received = s.received ++ [x])
    (hmessages : s₁.messages = s.messages) (hpongs : s₁.pongs = s.pongs) (hf : FragOk s₁) {next : WsState}
    (hnext : ¬ next.Live) : ∃ s', Handled s x s' ∧ Idles s' (teardown cb s₁ next) := by
  refine ⟨(s₁.shutDown next).enter next, ?_, keeps_setState blocks_idles.above hcb (Idles.refl _)⟩
  obtain ⟨clocks, t, hdown⟩ := s₁.shutDown_eq next
  obtain ⟨log, h, -⟩ := (s₁.shutDown next).enter_eq next
  rw [h, hdown]
  exact ⟨hreceived, ⟨hf.fits.release, fun _ => bytes_release hf⟩,
    Or.inl ⟨hmessages, hpongs, IoBuffer.base_release _, not_clean_of_not_live hnext⟩⟩

theorem handled_deliver (hcb : Keeping Idles cb) {hdr : WsFrameHeader} {payload : List UInt8} (hf : FragOk s)
    (hpiece : pieceOf (hdr, payload) = .whole hdr.opcode payload) :
    ∃ s', Handled s (hdr, payload) s' ∧
      Idles s' (deliver cb (s.countFrame hdr payload) { opcode := hdr.opcode, payload := payload }) := by
  refine ⟨(s.countFrame hdr payload).addMessage { opcode := hdr.opcode, payload := payload }, ?_, hcb.onMessage _⟩
  refine ⟨rfl, ⟨hf.fits, hf.empty⟩, Or.inr ⟨rfl, ?_, Or.inl rfl⟩⟩
  rw [hpiece, Assembly.take, view, addMessage, List.map_append]
  rfl

/-- The message in progress is complete. -/
theorem handled_last (hcb : Keeping Idles cb) (hreceived : s₁.received = s.received ++ [x])
    (hmessages : s₁.messages = s.messages) (hpongs : s₁.pongs = s.pongs) (hstate : s₁.state = s.state) (hf : FragOk s₁)
    (htake : s.view.take (pieceOf x) = { done := s.view.done ++ [(s₁.fragOpcode, s₁.frag.bytes)], held := none }) :
    ∃ s', Handled s x s' ∧
      Idles s' (deliver cb s₁ { opcode := s₁.fragOpcode, payload := s₁.frag.bytes }).dropFragment := by
  refine ⟨(s₁.addMessage { opcode := s₁.fragOpcode, payload := s₁.frag.bytes }).dropFragment, ?_,
    idles_dropFragment (hcb.onMessage _) ⟨hf.fits, hf.empty⟩⟩
  refine ⟨hreceived, ⟨hf.fits.release, fun _ => ?_⟩, Or.inr ⟨hstate, ?_, Or.inl hpongs⟩⟩
  · change s₁.frag.release.bytes = []
    exact bytes_release hf
  have hheld : ((s₁.addMessage { opcode := s₁.fragOpcode, payload := s₁.frag.bytes }).dropFragment).held = none :=
    if_pos (IoBuffer.base_release _)
  rw [htake, view, hheld, dropFragment, addMessage, List.map_append, hmessages]
  rfl

/-- A fragment is dropped, or ends the connection, or is added to the message in progress. -/
theorem handled_appendFragment (hcb : Keeping Idles cb) {chunk : List UInt8} {fin : Bool}
    (hreceived : s₁.received = s.received ++ [x]) (hmessages : s₁.messages = s.messages) (hpongs : s₁.pongs = s.pongs)
    (hstate : s₁.state = s.state) (hf : FragOk s₁)
    (hnone : s₁.frag.base = none → s.view.take (pieceOf x) = { s.view with held := none })
    (hsome : s₁.frag.base ≠ none → s.view.take (pieceOf x) =
      if fin then { done := s.view.done ++ [(s₁.fragOpcode, s₁.frag.bytes ++ chunk)], held := none }
      else { s.view with held := some (s₁.fragOpcode, s₁.frag.bytes ++ chunk) }) :
    ∃ s', Handled s x s' ∧ Idles s' (appendFragment cb s₁ chunk fin) := by
  unfold appendFragment storeFragment
  by_cases hbase : s₁.frag.base = none
  · rw [if_pos hbase]
    refine ⟨s₁, ⟨hreceived, hf, Or.inr ⟨hstate, ?_, Or.inl hpongs⟩⟩, Idles.refl _⟩
    rw [hnone hbase, view, held, if_pos hbase, hmessages]
    rfl
  · rw [if_neg hbase]
    by_cases hroom : s₁.frag.tailroom < chunk.length
    · rw [if_pos hroom]
      exact handled_teardown hcb hreceived hmessages hpongs hf not_live_failed
    · rw [if_neg hroom, tally_of (Nat.not_lt.mp hroom)]
      obtain ⟨hfits, hbytes⟩ := hf.fits.append (Nat.not_lt.mp hroom)
      have hf' : FragOk { s₁ with frag := s₁.frag.append chunk } := ⟨hfits, fun h => absurd h hbase⟩
      have htake := hsome hbase
      rw [← hbytes] at htake
      cases fin with
      | false =>
        refine ⟨{ s₁ with frag := s₁.frag.append chunk }, ⟨hreceived, hf', Or.inr ⟨hstate, ?_, Or.inl hpongs⟩⟩, Idles.refl _⟩
        rw [htake, if_neg Bool.false_ne_true, view, held, if_neg (by exact hbase), hmessages]
        rfl
      | true => exact handled_last hcb hreceived hmessages hpongs hstate hf' (htake.trans (if_pos rfl))

/-- The first fragment of a message takes the place of what is in progress. -/
theorem handled_beginFragment (hcb : Keeping Idles cb) {op : WsOpcode} {chunk : List UInt8}
    (hreceived : s₁.received = s.received ++ [x]) (hmessages : s₁.messages = s.messages) (hpongs : s₁.pongs = s.pongs)
    (hstate : s₁.state = s.state) (hf : FragOk s₁) (hpiece : pieceOf x = .first op chunk) :
    ∃ s', Handled s x s' ∧ Idles s' (beginFragment cb s₁ op chunk) := by
  have hspares := s₁.spares_openFragment op
  obtain ⟨acquires, frag, fragOpcode, hopen⟩ := s₁.openFragment_snd op
  have hempty := s₁.bytes_openFragment op
  unfold beginFragment
  split
  · next s₂ h =>
    obtain ⟨hbase, hbytes, hop⟩ := openFragment_true h
    rw [h] at hspares hopen hempty
    change s₂ = _ at hopen
    refine handled_appendFragment hcb ?_ ?_ ?_ ?_ ⟨hspares.frag hf.fits, hempty⟩ (fun hnone => absurd hnone hbase) fun _ => ?_
    · rw [hopen]
      exact hreceived
    · rw [hopen]
      exact hmessages
    · rw [hopen]
      exact hpongs
    · rw [hopen]
      exact hstate
    · rw [hpiece, Assembly.take, if_neg Bool.false_ne_true, hbytes, hop, List.nil_append]
  · next s₂ h =>
    rw [h] at hspares hopen hempty
    change s₂ = _ at hopen
    refine handled_teardown hcb ?_ ?_ ?_ ⟨hspares.frag hf.fits, hempty⟩ not_live_failed
    · rw [hopen]
      exact hreceived
    · rw [hopen]
      exact hmessages
    · rw [hopen]
      exact hpongs

/-- A text or binary frame. -/
theorem handled_data (hcb : Keeping Idles cb) (hf : FragOk s) (hdr : WsFrameHeader) (payload : List UInt8)
    (hop : hdr.opcode = .text ∨ hdr.opcode = .binary) :
    ∃ s', Handled s (hdr, payload) s' ∧ Idles s'
      (if hdr.fin then deliver cb (s.countFrame hdr payload) { opcode := hdr.opcode, payload := payload }
       else beginFragment cb (s.countFrame hdr payload) hdr.opcode payload) := by
  have hpiece := pieceOf_data payload hop
  split
  · next hfin => exact handled_deliver hcb hf (hpiece.trans (if_pos hfin))
  · next hfin => exact handled_beginFragment hcb rfl rfl rfl rfl ⟨hf.fits, hf.empty⟩ (hpiece.trans (if_neg hfin))

/-- A ping is answered, if its answer can be queued. -/
theorem handled_ping (hcb : Keeping Idles cb) (hf : FragOk s) {hdr : WsFrameHeader} (payload : List UInt8)
    (hop : hdr.opcode = .ping) :
    ∃ s', Handled s (hdr, payload) s' ∧ Idles s' (enqueueFrame cb (s.countFrame hdr payload) .pong payload true).2 := by
  have hpiece := pieceOf_control payload (Or.inr (Or.inl hop))
  have hhandled : Handled s (hdr, payload) ((s.countFrame hdr payload).queueFrame .pong payload true).2 := by
    obtain ⟨status, s', hqueue⟩ : ∃ status s', (s.countFrame hdr payload).queueFrame .pong payload true = (status, s') :=
      ⟨_, _, rfl⟩
    rw [hqueue]
    obtain ⟨acquires, gen, faults, ⟨-, rfl⟩ | ⟨-, id, key, ring, -, -, rfl⟩⟩ := queueFrame_cases hqueue
    · exact handled_other hpiece rfl rfl rfl rfl rfl hf (Or.inl rfl)
    · refine handled_other hpiece rfl rfl rfl rfl rfl hf (Or.inr ⟨hop, ⟨.pong, payload, keyBytes key, true⟩, rfl, ?_⟩)
      rw [pongs, List.filter_append]
      rfl
  unfold enqueueFrame
  split
  · next s₁ h =>
    rw [h] at hhandled
    exact ⟨s₁, hhandled, keeps_flushPending blocks_idles.toFlushes hcb s₁⟩
  · next s₁ _ h =>
    rw [h] at hhandled
    exact ⟨s₁, hhandled, Idles.refl s₁⟩

/-- **What `dispatch_frame` does to a frame**, up to what the user's code adds. -/
theorem handled_dispatchFrame (hcb : Keeping Idles cb) (hf : FragOk s) (hdr : WsFrameHeader) (payload : List UInt8) :
    ∃ s', Handled s (hdr, payload) s' ∧ Idles s' (dispatchFrame cb (s.countFrame hdr payload) hdr payload) := by
  have hcount : FragOk (s.countFrame hdr payload) := ⟨hf.fits, hf.empty⟩
  have hdata := handled_data hcb hf hdr payload
  unfold dispatchFrame
  cases hop : hdr.opcode with
  | text =>
    rw [hop] at hdata
    exact hdata (Or.inl rfl)
  | binary =>
    rw [hop] at hdata
    exact hdata (Or.inr rfl)
  | continuation =>
    have hpiece := pieceOf_continuation payload hop
    refine handled_appendFragment hcb rfl rfl rfl rfl hcount (fun hnone => ?_) fun hsome => ?_
    · have hheld : s.view.held = none := if_pos hnone
      simp only [hpiece, Assembly.take, hheld]
      rw [← hheld]
    · have hheld : s.view.held = some (s.fragOpcode, s.frag.bytes) := if_neg hsome
      rw [hpiece, Assembly.take, hheld]
      rfl
  | ping => exact handled_ping hcb hf payload hop
  | pong =>
    have hpiece := pieceOf_control payload (Or.inr (Or.inr hop))
    exact ⟨(s.countFrame hdr payload).takePong, handled_other hpiece rfl rfl rfl rfl rfl hf (Or.inl rfl), Idles.refl _⟩
  | close =>
    refine handled_teardown hcb ?_ ?_ ?_ hcount not_live_disconnected
    · rfl
    · rfl
    · rfl

end Handled

/-! A property kept by idle steps and by handled frames is kept by every run. -/

section Receive

variable {Inv : WsSession → Prop}

/-- **The rule for received frames.** -/
theorem keeps_parse (hidle : ∀ {s s'}, Idles s s' → Inv s → Inv s') (hframe : ∀ {s x s'}, Handled s x s' → Inv s → Inv s')
    (hcb : Keeping Idles cb) (hf : FragOk s) (hs : Inv s) :
    FragOk (parseFrames cb s) ∧ Inv (parseFrames cb s) := by
  have hloop (fuel : Nat) {s : WsSession} (hf : FragOk s) (hs : Inv s) :
      FragOk (parseLoop cb fuel s) ∧ Inv (parseLoop cb fuel s) := by
    induction fuel generalizing s with
    | zero =>
      have hidles : Idles s (parseLoop cb 0 s) := Idles.same rfl rfl rfl rfl rfl id
      exact ⟨hidles.frag hf, hidle hidles hs⟩
    | succ fuel ih =>
      rw [parseLoop, countHeader_eq]
      dsimp only
      split
      · have hidles : Idles s s.compactRecv := by
          obtain ⟨recv, faults, h⟩ := s.compactRecv_eq
          rw [h]
          exact Idles.same rfl rfl rfl rfl rfl id
        exact ⟨hidles.frag hf, hidle hidles hs⟩
      · have hidles := keeps_teardown blocks_idles hcb s not_live_failed
        exact ⟨hidles.frag hf, hidle hidles hs⟩
      · next hdr payload total _ =>
        obtain ⟨s₁, hhandled, hidles⟩ := handled_dispatchFrame hcb hf hdr payload
        generalize dispatchFrame cb (s.countFrame hdr payload) hdr payload = s₂ at hidles
        have hconsume : Idles s₂ (s₂.consumeRecv total) := Idles.same rfl rfl rfl rfl rfl id
        have hdone := hidles.trans hconsume
        have hf' := hdone.frag hhandled.frag
        have hs' := hidle hdone (hframe hhandled hs)
        split
        · exact ih hf' hs'
        · exact ⟨hf', hs'⟩
  exact hloop _ hf hs

theorem drives_receive (hidle : ∀ {s s'}, Idles s s' → Inv s → Inv s')
    (hframe : ∀ {s x s'}, Handled s x s' → Inv s → Inv s') :
    Drives Idles fun s s' => FragOk s ∧ Inv s → FragOk s' ∧ Inv s' := by
  have hle {s s' : WsSession} (h : Idles s s') (hs : FragOk s ∧ Inv s) : FragOk s' ∧ Inv s' :=
    ⟨h.frag hs.1, hidle h hs.2⟩
  have hread {s s' : WsSession} {v : Verdict} (h : s.readResponse = (v, s')) : Idles s s' := by
    obtain ⟨reads, input, recv, wire, faults, log, rfl, -, -⟩ := readResponse_snd h
    exact Idles.same rfl rfl rfl rfl rfl id
  have hrequest {s s' s'' : WsSession} {ok : Bool} (hs : s.state = .connecting) (hset : Idles (s.enter .upgrading) s')
      (h : s'.queueRequest = (ok, s'')) : Idles s s'' := by
    refine (s.idles_enter fun _ => Or.inl hs).trans (hset.trans ?_)
    obtain ⟨acquires, faults, pending, interest, request, marks, rfl, -⟩ := queueRequest_snd h
    exact Idles.same rfl rfl rfl rfl rfl id
  have habove : Above Idles fun s s' => FragOk s ∧ Inv s → FragOk s' ∧ Inv s' := ⟨hle, fun h h' hs => h' (h hs)⟩
  exact {
    toAbove := habove
    toConnects := dials_idles.lift habove
    reconnectDue := fun s _ => by
      obtain ⟨clocks, delay, h⟩ := s.reconnectDue_snd
      rw [h]
      exact hle (Idles.same rfl rfl rfl rfl rfl id)
    pollOpen := fun s => by
      obtain ⟨opens, h⟩ := s.transportPollOpen_snd
      rw [h]
      exact hle (Idles.same rfl rfl rfl rfl rfl id)
    request := fun hs hset h => hle (hrequest hs hset h)
    refuse := fun hs hset h => hle ((hrequest hs hset h).trans (idles_down _ not_live_failed))
    wait := fun _ h => hle (hread h)
    reject := fun _ h => hle ((hread h).trans (idles_down _ not_live_failed))
    opens := habove.opens
      (fun {s s'} hs h => by
        have hstate : s'.state = .upgrading := (readResponse_fields h).2.2.1.trans hs
        exact hle ((hread h).trans (s'.idles_enter fun _ => Or.inr (Or.inl hstate))))
      fun s => by
        obtain ⟨clocks, t, h⟩ := s.armPing_eq
        rw [h]
        exact hle (Idles.same rfl rfl rfl rfl rfl id)
    readFrames := fun {s} _ => by
      obtain ⟨reads, input, recv, wire, faults, h, -⟩ := s.readFrames_snd
      rw [h]
      exact hle (Idles.same rfl rfl rfl rfl rfl id)
    parse := fun hcb _ _ _ hs => keeps_parse hidle hframe hcb hs.1 hs.2
    resume := fun {cb} hcb _ s _ _ hs => by
      generalize (setState cb s .opened).armPing = s at hs ⊢
      have hnote : Idles s (s.note (.resumed s.state)) := Idles.same rfl rfl rfl rfl rfl id
      exact keeps_parse hidle hframe hcb (hle hnote hs).1 (hle hnote hs).2
    keepalive := fun hcb _ s _ => by
      refine hle (keeps_keepalive blocks_idles hcb ?_ (fun s' _ => s'.idles_queueFrame [] true nofun)
        fun _ _ => Idles.same rfl rfl rfl rfl rfl id)
      obtain ⟨clocks, log, h, -⟩ := keepaliveTurn_snd _
      rw [h]
      exact Idles.same rfl rfl rfl rfl rfl id }

/-- **The rule for runs.** -/
theorem keeps_receive_runWith (hidle : ∀ {s s'}, Idles s s' → Inv s → Inv s')
    (hframe : ∀ {s x s'}, Handled s x s' → Inv s → Inv s') (hcb : Keeping Idles cb)
    (hbasic : Keeping Basic cb) (hf : FragOk s) (hs : Inv s) (calls : List (Api × Env)) :
    FragOk (runWith cb s calls) ∧ Inv (runWith cb s calls) := by
  have hD := drives_receive hidle hframe
  refine keeps_runWith blocks_idles hD hcb hbasic (fun s env => ?_) (fun s a => ?_) s calls ⟨hf, hs⟩
  · exact hD.le (Idles.same rfl rfl rfl rfl rfl id)
  · exact hD.le (idles_act hcb s a)

theorem keeps_receive_run (hidle : ∀ {s s'}, Idles s s' → Inv s → Inv s')
    (hframe : ∀ {s x s'}, Handled s x s' → Inv s → Inv s') (depth : Nat) (hf : FragOk s) (hs : Inv s)
    (calls : List (Api × Env)) : FragOk (run depth s calls) ∧ Inv (run depth s calls) :=
  keeps_receive_runWith hidle hframe (idles_callbacks depth) (basic_callbacks depth) hf hs calls

end Receive

end WsSession

end Lepton.Ws

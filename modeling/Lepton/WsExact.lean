import Lepton.WsBegin
import Lepton.WsReceive
import Lepton.WsCalm
import Lepton.WsWire

/-! What a connection receives. A server sends the header block that accepts the upgrade and then frames, and the
transport hands them over in pieces of any size. At every moment the session is where the bytes read so far put it: it
waits for the rest of the block, or it is open, has handled the frames that are complete, and its receive buffer holds
what has come of the next one. -/

namespace Lepton.Ws

open Search Words

variable {s s' : WsSession}

def ServerFrame.piece (f : ServerFrame) : Piece WsOpcode UInt8 := pieceOf (f.header, f.payload)

/-- The messages of a sequence of frames, and the one that is not complete. -/
def assembled (frames : List ServerFrame) : Assembly WsOpcode UInt8 := Assembly.takes {} (frames.map ServerFrame.piece)

def messagesOf (frames : List ServerFrame) : List Message := (assembled frames).done.map fun m => ⟨m.1, m.2⟩

def encodeAll (frames : List ServerFrame) : List UInt8 := frames.flatMap ServerFrame.encode

/-- What a server may send: a block that is accepted, and frames in order. The block, each frame and each message fit
in a buffer. -/
structure Offer (cfg : Config) (block : List UInt8) (frames : List ServerFrame) : Prop where
  upgrade : UpgradeBlock cfg.expectedAccept block
  valid : ∀ f ∈ frames, f.Valid
  ordered : Assembly.AcceptsAll {} (frames.map ServerFrame.piece)
  blockFits : block.length ≤ cfg.cap
  framesFit : ∀ f ∈ frames, f.encode.length ≤ cfg.cap
  messagesFit : ∀ m ∈ (assembled frames).done, m.2.length ≤ cfg.cap
  restFits : ∀ m ∈ (assembled frames).held, m.2.length ≤ cfg.cap

/-- The buffer of the message in progress is empty in front. -/
def Roomy (s : WsSession) : Prop := s.frag.base ≠ none → s.frag.cap = s.cfg.cap ∧ s.frag.head = 0

/-- A connection that gathers the response to its upgrade request. -/
structure Gathering (cfg : Config) (s : WsSession) : Prop where
  config : s.cfg = cfg
  state : s.state = .upgrading
  fits : s.recv.Fits
  cap : s.recv.cap = cfg.cap
  front : s.recv.head = 0
  bytes : s.recv.bytes = s.input
  messages : s.messages = []
  noFrag : s.frag.base = none
  frag : FragOk s

/-- A connection that is open and has handled the frames `past`. -/
structure Parsing (cfg : Config) (block : List UInt8) (past : List ServerFrame) (s : WsSession) : Prop where
  config : s.cfg = cfg
  state : s.state = .opened
  fits : s.recv.Fits
  cap : s.recv.cap = cfg.cap
  input : s.input = block ++ encodeAll past ++ s.recv.bytes
  view : s.view = assembled past
  frag : FragOk s
  roomy : Roomy s

/-- The connection is where its input puts it. -/
inductive Exact (cfg : Config) (block : List UInt8) (frames : List ServerFrame) (s : WsSession) : Prop where
  | waiting (h : Gathering cfg s) (hshort : s.input.length < block.length)
  | opened {past rest : List ServerFrame} (hframes : frames = past ++ rest) (h : Parsing cfg block past s)
      (hfront : s.recv.head = 0) (htail : ∀ f ∈ rest.head?, s.recv.bytes.length < f.encode.length)

/-- A frame is counted, and nothing else that matters here is changed. -/
structure OnlyCounted (s : WsSession) (x : WsFrameHeader × List UInt8) (c : WsSession) : Prop where
  cfg : c.cfg = s.cfg
  state : c.state = s.state
  recv : c.recv = s.recv
  input : c.input = s.input
  received : c.received = s.received ++ [x]
  wire : c.wire = s.wire

/-- What a frame of the stream does beside the message it belongs to. -/
structure Served (s : WsSession) (x : WsFrameHeader × List UInt8) (s' : WsSession) : Prop where
  cfg : s'.cfg = s.cfg
  state : s'.state = s.state
  recv : s'.recv = s.recv
  input : s'.input = s.input
  received : s'.received = s.received ++ [x]
  roomy : Roomy s'
  silent : readBetween s s' = []

theorem encodeAll_cons (f : ServerFrame) (rest : List ServerFrame) : encodeAll (f :: rest) = f.encode ++ encodeAll rest :=
  List.flatMap_cons

theorem encodeAll_append (past rest : List ServerFrame) : encodeAll (past ++ rest) = encodeAll past ++ encodeAll rest :=
  List.flatMap_append

theorem assembled_snoc (past : List ServerFrame) (f : ServerFrame) :
    assembled (past ++ [f]) = (assembled past).take f.piece := by
  rw [assembled, List.map_append, Assembly.takes_append]
  rfl

theorem two_le_encode (f : ServerFrame) : 2 ≤ f.encode.length := by
  have hfield := length_lengthBytes false f.payload.length
  rw [ServerFrame.encode, ServerFrame.head, lengthField_eq, List.length_append, List.length_cons]
  split at hfield
  · omega
  · split at hfield
    · omega
    · omega

/-- At every moment the message in progress fits. -/
theorem Offer.heldFits {cfg : Config} {block : List UInt8} {past rest : List ServerFrame}
    (h : Offer cfg block (past ++ rest)) :
    (∀ m ∈ (assembled past).done, m.2.length ≤ cfg.cap) ∧ ∀ m ∈ (assembled past).held, m.2.length ≤ cfg.cap := by
  have hordered := h.ordered
  have hmessages := h.messagesFit
  have hrest := h.restFits
  unfold assembled at hmessages hrest
  rw [List.map_append] at hordered hmessages hrest
  exact Assembly.bounded_takes hordered hmessages hrest

theorem Parsing.of_kept {cfg : Config} {block : List UInt8} {past : List ServerFrame}
    (h : Parsing cfg block past s) (hk : Kept s s') : Parsing cfg block past s' where
  config := hk.cfg.trans h.config
  state := hk.state.trans h.state
  fits := hk.recv ▸ h.fits
  cap := hk.recv ▸ h.cap
  input := by
    rw [hk.input, hk.recv]
    exact h.input
  view := by
    have hview : s'.view = s.view := by
      rw [WsSession.view, WsSession.held, hk.messages, hk.frag, hk.fragOpcode]
      rfl
    exact hview.trans h.view
  frag := ⟨hk.frag ▸ h.frag.fits, hk.frag ▸ h.frag.empty⟩
  roomy := by
    unfold Roomy
    rw [hk.frag, hk.cfg]
    exact h.roomy

theorem Exact.of_kept {cfg : Config} {block : List UInt8} {frames : List ServerFrame}
    (h : Exact cfg block frames s) (hk : Kept s s') : Exact cfg block frames s' := by
  cases h with
  | waiting h hshort =>
    refine .waiting ⟨hk.cfg.trans h.config, hk.state.trans h.state, hk.recv ▸ h.fits, hk.recv ▸ h.cap, hk.recv ▸ h.front, ?_,
      hk.messages.trans h.messages, hk.frag ▸ h.noFrag, ⟨hk.frag ▸ h.frag.fits, hk.frag ▸ h.frag.empty⟩⟩ (hk.input ▸ hshort)
    rw [hk.recv, hk.input]
    exact h.bytes
  | opened hframes h hfront htail =>
    exact .opened hframes (h.of_kept hk) (hk.recv ▸ hfront) (hk.recv ▸ htail)

theorem Exact.receiving {cfg : Config} {block : List UInt8} {frames : List ServerFrame}
    (h : Exact cfg block frames s) : s.state.Receiving := by
  cases h with
  | waiting h _ => exact Or.inl h.state
  | opened _ h _ _ => exact Or.inr h.state

namespace WsSession

variable {cb : Callbacks} {x : WsFrameHeader × List UInt8}

/-- The user's code behind a frame. -/
theorem served_of_kept {c : WsSession} (hc : OnlyCounted s x c) (h : Kept c s') (hroomy : Ws.Roomy c) : Served s x s' where
  cfg := h.cfg.trans hc.cfg
  state := h.state.trans hc.state
  recv := h.recv.trans hc.recv
  input := h.input.trans hc.input
  received := h.received.trans hc.received
  roomy := by
    unfold Ws.Roomy
    rw [h.frag, h.cfg]
    exact hroomy
  silent := by
    have hsilent := h.silent
    rw [readBetween, hc.wire] at hsilent
    exact hsilent

theorem kept_deliver (hcb : Keeping Stays cb) {c : WsSession} (m : Message) (hs : c.state = .opened)
    (hcalm : Calm c (deliver cb c m)) : Kept (c.addMessage m) (deliver cb c m) := by
  have hstays := hcb.onMessage (c.addMessage m)
  have hadd : Grows c (c.addMessage m) := { Grows.refl c with marks := List.suffix_cons _ _ }
  exact hstays.kept (hcalm.right hadd hstays.grows) (Or.inr hs)

/-- The pool was empty. -/
theorem openFragment_false {op : WsOpcode} (h : s.openFragment op = (false, s')) :
    s'.marks = .pool (.acquired none) :: s.marks := by
  obtain ⟨acquires, hacquire⟩ := s.acquire_snd 0
  unfold openFragment at h
  dsimp only at h
  by_cases hbase : s.frag.base = none
  · rw [if_pos hbase] at h
    dsimp only at h
    split at h
    · next hnone =>
      cases h
      rw [hnone] at hacquire
      rw [hacquire]
    · cases h
  · rw [if_neg hbase, if_neg hbase] at h
    cases h

/-- A new message begins at the front of its buffer. -/
theorem roomy_openFragment {op : WsOpcode} (h : s.openFragment op = (true, s')) (hroomy : Ws.Roomy s) :
    s'.frag.cap = s'.cfg.cap ∧ s'.frag.head = 0 ∧ s'.frag.len = 0 := by
  obtain ⟨acquires, hacquire⟩ := s.acquire_snd 0
  unfold openFragment at h
  dsimp only at h
  by_cases hbase : s.frag.base = none
  · rw [if_pos hbase] at h
    dsimp only at h
    split at h
    · cases h
    · next hsome =>
      obtain ⟨id, hid⟩ := acquire_fst hsome
      cases h
      rw [hid, hacquire]
      exact ⟨rfl, rfl, rfl⟩
  · rw [if_neg hbase, if_neg hbase] at h
    cases h
    exact ⟨(hroomy hbase).1, rfl, rfl⟩

/-- The last fragment completes the message. -/
theorem served_last (hcb : Keeping Stays cb) {c : WsSession} (m : Message) (hc : OnlyCounted s x c) (hroomy : Ws.Roomy c)
    (hs : c.state = .opened) (hcalm : Calm c (deliver cb c m).dropFragment) :
    Served s x (deliver cb c m).dropFragment := by
  have hdeliver : Grows c (deliver cb c m) := keeps_deliver takes_grows.toDispatches hcb.grows c m trivial
  have hkept := kept_deliver hcb m hs (hcalm.left hdeliver (takes_grows.dropFragment _))
  have hadded : OnlyCounted s x (c.addMessage m) := ⟨hc.cfg, hc.state, hc.recv, hc.input, hc.received, hc.wire⟩
  have hserved := served_of_kept hadded hkept hroomy
  exact ⟨hserved.cfg, hserved.state, hserved.recv, hserved.input, hserved.received, fun h => absurd (IoBuffer.base_release _) h,
    hserved.silent⟩

/-- A fragment that fits is stored. -/
theorem served_appendFragment (hcb : Keeping Stays cb) {c : WsSession} {chunk : List UInt8} {fin : Bool}
    (hc : OnlyCounted s x c) (hroomy : Ws.Roomy c) (hs : c.state = .opened)
    (hfit : c.frag.base ≠ none → chunk.length ≤ c.frag.tailroom) (hcalm : Calm c (appendFragment cb c chunk fin)) :
    Served s x (appendFragment cb c chunk fin) := by
  unfold appendFragment storeFragment at hcalm ⊢
  by_cases hbase : c.frag.base = none
  · rw [if_pos hbase]
    exact served_of_kept hc { Kept.refl c with } hroomy
  · have hroom : ¬ c.frag.tailroom < chunk.length := Nat.not_lt.mpr (hfit hbase)
    rw [if_neg hbase, if_neg hroom, tally_of (Nat.not_lt.mp hroom)] at hcalm ⊢
    have hstored : OnlyCounted s x { c with frag := c.frag.append chunk } :=
      ⟨hc.cfg, hc.state, hc.recv, hc.input, hc.received, hc.wire⟩
    cases fin with
    | false => exact served_of_kept hstored (Kept.refl _) hroomy
    | true => exact served_last hcb _ hstored hroomy hs ⟨hcalm.wire, hcalm.deadlines, hcalm.pool⟩

/-- The first fragment of a message finds a buffer. -/
theorem served_beginFragment (hcb : Keeping Stays cb) {c : WsSession} {op : WsOpcode} {chunk : List UInt8}
    (hc : OnlyCounted s x c) (hroomy : Ws.Roomy c) (hf : FragOk c) (hs : c.state = .opened) (hfit : chunk.length ≤ c.cfg.cap)
    (hcalm : Calm c (beginFragment cb c op chunk)) : Served s x (beginFragment cb c op chunk) := by
  obtain ⟨ok, s₂, h⟩ : ∃ ok s₂, c.openFragment op = (ok, s₂) := ⟨_, _, rfl⟩
  have hgrows := takes_grows.openFragment c op trivial
  have hspares := c.spares_openFragment op
  obtain ⟨acquires, frag, fragOpcode, hopen⟩ := c.openFragment_snd op
  rw [h] at hgrows hspares hopen
  change s₂ = _ at hopen
  cases ok with
  | false =>
    have hend := keeps_teardown takes_grows.toBlocks hcb.grows s₂ not_live_failed
    have hmark : .pool (.acquired none) :: c.marks <:+ (beginFragment cb c op chunk).marks := by
      rw [beginFragment, h, ← openFragment_false h]
      exact hend.marks
    exact absurd (mem_since List.suffix_rfl hmark) hcalm.pool
  | true =>
    obtain ⟨hcap, hhead, hlen⟩ := roomy_openFragment h hroomy
    have hfits : s₂.frag.Fits := hspares.frag hf.fits
    have hconfig : s₂.cfg = c.cfg := by rw [hopen]
    have hcounted : OnlyCounted s x s₂ := by
      rw [hopen]
      exact ⟨hc.cfg, hc.state, hc.recv, hc.input, hc.received, hc.wire⟩
    have hstate : s₂.state = .opened := by
      rw [hopen]
      exact hs
    have hroom : chunk.length ≤ s₂.frag.tailroom := by
      rw [hfits.tailroom_eq, hhead, hlen, hcap, hconfig]
      exact hfit
    rw [beginFragment, h] at hcalm ⊢
    have happend : Grows s₂ (appendFragment cb s₂ chunk false) :=
      keeps_appendFragment takes_grows.toDispatches hcb.grows s₂ chunk false trivial
    exact served_appendFragment hcb hcounted (fun _ => ⟨hcap, hhead⟩) hstate (fun _ => hroom)
      (hcalm.right hgrows happend)

/-- **What a frame of the stream does beside the message it belongs to**: nothing. -/
theorem served_dispatchFrame (hcb : Keeping Stays cb) {f : ServerFrame} (hvalid : f.Valid) (hf : FragOk s)
    (hroomy : Ws.Roomy s) (hs : s.state = .opened) (hfirst : f.payload.length ≤ s.cfg.cap)
    (hnext : f.opcode = .continuation → s.frag.base ≠ none → f.payload.length ≤ s.frag.tailroom)
    (hcalm : Calm s (dispatchFrame cb (s.countFrame f.header f.payload) f.header f.payload)) :
    Served s (f.header, f.payload) (dispatchFrame cb (s.countFrame f.header f.payload) f.header f.payload) := by
  have hcounted : OnlyCounted s (f.header, f.payload) (s.countFrame f.header f.payload) :=
    ⟨rfl, rfl, rfl, rfl, rfl, rfl⟩
  have hcount : Grows s (s.countFrame f.header f.payload) := takes_grows.countFrame s _ _ trivial
  have hdispatch : Grows (s.countFrame f.header f.payload)
      (dispatchFrame cb (s.countFrame f.header f.payload) f.header f.payload) :=
    keeps_dispatchFrame takes_grows.toDispatches hcb.grows _ f.header f.payload trivial
      (takes_grows.queueFrame _ .pong f.payload true)
  replace hcalm := hcalm.right hcount hdispatch
  have hopen : (s.countFrame f.header f.payload).state = .opened := hs
  have hopcode : f.header.opcode = f.opcode := rfl
  have hdata (hcalm : Calm (s.countFrame f.header f.payload)
      (if f.header.fin then deliver cb (s.countFrame f.header f.payload) { opcode := f.opcode, payload := f.payload }
       else beginFragment cb (s.countFrame f.header f.payload) f.opcode f.payload)) :
      Served s (f.header, f.payload)
        (if f.header.fin then deliver cb (s.countFrame f.header f.payload) { opcode := f.opcode, payload := f.payload }
         else beginFragment cb (s.countFrame f.header f.payload) f.opcode f.payload) := by
    split at hcalm
    · next hfin =>
      rw [if_pos hfin]
      have hkept := kept_deliver hcb _ hopen hcalm
      refine served_of_kept ?_ hkept hroomy
      exact ⟨rfl, rfl, rfl, rfl, rfl, rfl⟩
    · next hfin =>
      rw [if_neg hfin]
      exact served_beginFragment hcb hcounted hroomy ⟨hf.fits, hf.empty⟩ hs hfirst hcalm
  unfold dispatchFrame at hcalm ⊢
  rw [hopcode] at hcalm ⊢
  cases hop : f.opcode with
  | text =>
    rw [hop] at hcalm hdata
    exact hdata hcalm
  | binary =>
    rw [hop] at hcalm hdata
    exact hdata hcalm
  | continuation =>
    rw [hop] at hcalm
    exact served_appendFragment hcb hcounted hroomy hs (hnext hop) hcalm
  | ping =>
    rw [hop] at hcalm
    have hpong := keeps_enqueueFrame flushes_stays hcb
      ((s.countFrame f.header f.payload).stays_queueFrame .pong f.payload true)
    exact served_of_kept hcounted (hpong.kept hcalm (Or.inr hs)) hroomy
  | pong =>
    exact served_of_kept (c := (s.countFrame f.header f.payload).takePong) ⟨rfl, rfl, rfl, rfl, rfl, rfl⟩ (Kept.refl _) hroomy
  | close => exact absurd hop hvalid.notClose

section Parse

variable {cfg : Config} {block : List UInt8} {frames past rest : List ServerFrame} {f : ServerFrame}

/-- The next fragment fits behind what is there of its message. -/
theorem room_next (hoffer : Offer cfg block (past ++ f :: rest)) (h : Parsing cfg block past s)
    (hop : f.opcode = .continuation) (hbase : s.frag.base ≠ none) : f.payload.length ≤ s.frag.tailroom := by
  have hpiece : f.piece = .next f.payload f.fin := pieceOf_continuation f.payload hop
  have hheld : (assembled past).held = some (s.fragOpcode, s.frag.bytes) := by
    rw [← h.view]
    exact if_neg hbase
  rw [← List.singleton_append, ← List.append_assoc] at hoffer
  obtain ⟨hdone, hbegun⟩ := hoffer.heldFits
  rw [assembled_snoc, hpiece, Assembly.take, hheld] at hdone hbegun
  have hlength : (s.frag.bytes ++ f.payload).length ≤ cfg.cap := by
    cases hfin : f.fin with
    | true =>
      rw [hfin] at hdone
      exact hdone (s.fragOpcode, s.frag.bytes ++ f.payload) (List.mem_append_right _ List.mem_cons_self)
    | false =>
      rw [hfin] at hbegun
      exact hbegun (s.fragOpcode, s.frag.bytes ++ f.payload) rfl
  obtain ⟨hcap, hhead⟩ := h.roomy hbase
  rw [List.length_append, h.frag.fits.length_bytes] at hlength
  rw [h.frag.fits.tailroom_eq, hcap, hhead, h.config]
  omega

/-- **One frame is handled.** -/
theorem parsing_dispatchFrame (hcb : Keeping Stays cb) (hidles : Keeping Idles cb)
    (hoffer : Offer cfg block (past ++ f :: rest)) (h : Parsing cfg block past s) {more : List UInt8}
    (hbytes : s.recv.bytes = f.encode ++ more)
    (hcalm : Calm s (dispatchFrame cb (s.countFrame f.header f.payload) f.header f.payload)) :
    let s' := (dispatchFrame cb (s.countFrame f.header f.payload) f.header f.payload).consumeRecv f.encode.length
    Parsing cfg block (past ++ [f]) s' ∧ s'.recv.bytes = more ∧ s'.input = s.input ∧ readBetween s s' = [] := by
  have hmem : f ∈ past ++ f :: rest := List.mem_append_right _ List.mem_cons_self
  have hpayload : f.payload.length ≤ s.cfg.cap := by
    have hfit := hoffer.framesFit f hmem
    rw [ServerFrame.encode, List.length_append] at hfit
    rw [h.config]
    omega
  have hserved := served_dispatchFrame hcb (hoffer.valid f hmem) h.frag h.roomy h.state hpayload (room_next hoffer h) hcalm
  obtain ⟨s₁, hhandled, hidle⟩ := handled_dispatchFrame hidles h.frag f.header f.payload
  generalize dispatchFrame cb (s.countFrame f.header f.payload) f.header f.payload = s₂ at hserved hidle ⊢
  have hopen : s₂.state = .opened := hserved.state.trans h.state
  have hclean : s₂.state.Clean := Or.inr (Or.inr hopen)
  have hview : s₂.view = assembled (past ++ [f]) := by
    rcases hidle.data with hnew | hsame
    · exact absurd (hnew.received.symm.trans hserved.received) (by simp)
    · rcases hsame.frag with ⟨hfrag, hop, hwas⟩ | ⟨-, hend⟩
      · rcases hhandled.outcome with ⟨-, -, -, hend⟩ | ⟨-, htake, -⟩
        · exact absurd (hwas hclean) hend
        · rw [assembled_snoc, ← h.view]
          refine Eq.trans ?_ htake
          rw [view, held, hsame.messages, hfrag, hop]
          rfl
      · exact absurd hclean hend
  have hf : FragOk s₂ := hidle.frag hhandled.frag
  have hfits : s₂.recv.Fits := hserved.recv ▸ h.fits
  have hbytes₂ : s₂.recv.bytes = f.encode ++ more := hserved.recv ▸ hbytes
  have hlen : f.encode.length ≤ s₂.recv.len := by
    rw [← hfits.length_bytes, hbytes₂, List.length_append]
    exact Nat.le_add_right _ _
  obtain ⟨hfits', hdrop⟩ := hfits.consume hlen
  rw [hbytes₂, List.drop_left] at hdrop
  refine ⟨⟨hserved.cfg.trans h.config, hopen, hfits', ?_, ?_, hview, ⟨hf.fits, hf.empty⟩, hserved.roomy⟩, hdrop,
    hserved.input, hserved.silent⟩
  · change s₂.recv.cap = cfg.cap
    rw [hserved.recv]
    exact h.cap
  · change s₂.input = block ++ encodeAll (past ++ [f]) ++ (s₂.recv.consume f.encode.length).bytes
    rw [hserved.input, h.input, hbytes, hdrop, encodeAll_append, encodeAll_cons]
    simp [encodeAll]

/-- What is left goes to the front of the buffer. -/
theorem compactRecv_front (h : s.recv.Fits) :
    ∃ recv faults, s.compactRecv = { s with recv := recv, faults := faults } ∧ recv.Fits ∧ recv.bytes = s.recv.bytes ∧
      recv.head = 0 ∧ recv.cap = s.recv.cap := by
  have hlength := h.length_bytes
  have hback : s.recv.Backed := ⟨h.backed, h.small⟩
  unfold compactRecv
  split
  · next hempty =>
    rw [hempty, List.length_eq_zero_iff] at hlength
    exact ⟨s.recv.reset 0, s.faults, rfl, hback.reset, (s.recv.bytes_reset 0).trans hlength.symm, rfl, rfl⟩
  · split
    · next hfront => exact ⟨s.recv, s.faults, rfl, h, rfl, hfront, rfl⟩
    · obtain ⟨hfits, hbytes⟩ := h.moveToFront
      exact ⟨s.recv.moveToFront, _, rfl, hfits, hbytes, rfl, rfl⟩

/-- **The loop of `parse_frames`** handles the frames that are complete. -/
theorem exact_parseLoop (hcb : Keeping Stays cb) (hidles : Keeping Idles cb) (hoffer : Offer cfg block frames) (fuel : Nat)
    (hframes : frames = past ++ rest) (h : Parsing cfg block past s) (hbytes : s.recv.bytes <+: encodeAll rest)
    (hfuel : s.recv.bytes.length < fuel) (hcalm : Calm s (parseLoop cb fuel s)) :
    Exact cfg block frames (parseLoop cb fuel s) ∧ (parseLoop cb fuel s).input = s.input ∧
      readBetween s (parseLoop cb fuel s) = [] := by
  induction fuel generalizing s past rest with
  | zero => exact absurd hfuel (Nat.not_lt_zero _)
  | succ fuel ih =>
    have hwait (hnext : s.nextFrame = .wait) (htail : ∀ f ∈ rest.head?, s.recv.bytes.length < f.encode.length) :
        Exact cfg block frames (parseLoop cb (fuel + 1) s) ∧ (parseLoop cb (fuel + 1) s).input = s.input ∧
          readBetween s (parseLoop cb (fuel + 1) s) = [] := by
      obtain ⟨recv, faults, hcompact, hfits, hsame, hfront, hcap⟩ := compactRecv_front h.fits
      have hloop : parseLoop cb (fuel + 1) s = s.compactRecv := by
        rw [parseLoop, countHeader_eq]
        dsimp only
        rw [hnext]
      rw [hloop, hcompact]
      refine ⟨.opened hframes ⟨h.config, h.state, hfits, hcap.trans h.cap, ?_, h.view, ⟨h.frag.fits, h.frag.empty⟩,
        h.roomy⟩ hfront ?_, rfl, readBetween_same rfl⟩
      · exact h.input.trans (congrArg _ hsame.symm)
      · change ∀ f ∈ rest.head?, recv.bytes.length < f.encode.length
        rw [hsame]
        exact htail
    cases rest with
    | nil => exact hwait (nextFrame_empty (List.prefix_nil.mp hbytes)) (fun _ h => by cases h)
    | cons f rest =>
      rw [encodeAll_cons] at hbytes
      have hvalid : f.Valid := hoffer.valid f (hframes ▸ List.mem_append_right _ List.mem_cons_self)
      by_cases hwhole : f.encode.length ≤ s.recv.bytes.length
      · obtain ⟨more, hmore⟩ : f.encode <+: s.recv.bytes :=
          List.prefix_of_prefix_length_le (List.prefix_append _ _) hbytes hwhole
        have hnext := nextFrame_whole h.fits hvalid hmore.symm
        have hdispatch : Grows s (dispatchFrame cb (s.countFrame f.header f.payload) f.header f.payload) :=
          (takes_grows.countFrame s _ _ trivial).trans (keeps_dispatchFrame takes_grows.toDispatches hcb.grows _ f.header
            f.payload trivial (takes_grows.queueFrame _ .pong f.payload true))
        have hstep := parsing_dispatchFrame hcb hidles (hframes ▸ hoffer) h hmore.symm
        rw [parseLoop, countHeader_eq] at hcalm ⊢
        dsimp only at hcalm ⊢
        rw [hnext] at hcalm ⊢
        dsimp only at hcalm ⊢ hstep
        generalize dispatchFrame cb (s.countFrame f.header f.payload) f.header f.payload = s₁ at hcalm hdispatch hstep ⊢
        have hconsume : Grows s₁ (s₁.consumeRecv f.encode.length) := everywhere_grows.consumeRecv s₁ _
        generalize s₁.consumeRecv f.encode.length = s₂ at hcalm hconsume hstep ⊢
        have hgo : Grows s₂ (if s₂.state = .opened ∨ s₂.state = .closing then parseLoop cb fuel s₂ else s₂) := by
          split
          · exact everywhere_grows.parseLoop hcb.grows fuel s₂
          · exact Grows.refl s₂
        obtain ⟨hparsing, hleft, hinput, hsilent⟩ := hstep (hcalm.left hdispatch (hconsume.trans hgo))
        rw [if_pos (Or.inl hparsing.state)] at hcalm hgo ⊢
        have hturn := hdispatch.trans hconsume
        have hshorter : s₂.recv.bytes.length < fuel := by
          have htwo := two_le_encode f
          rw [← hmore, List.length_append] at hfuel
          rw [hleft]
          omega
        have hpast : frames = (past ++ [f]) ++ rest := by
          rw [hframes, List.append_assoc, List.singleton_append]
        have hmore' : s₂.recv.bytes <+: encodeAll rest := by
          rw [← hmore] at hbytes
          rw [hleft]
          exact (List.prefix_append_right_inj _).mp hbytes
        obtain ⟨hexact, hinput', hsilent'⟩ := ih hpast hparsing hmore' hshorter (hcalm.right hturn hgo)
        refine ⟨hexact, hinput'.trans hinput, ?_⟩
        rw [readBetween_trans hturn hgo, hsilent, hsilent', List.append_nil]
      · have hlen : s.recv.bytes.length < f.encode.length := Nat.not_le.mp hwhole
        have hpart : s.recv.bytes <+: f.encode :=
          List.prefix_of_prefix_length_le hbytes (List.prefix_append _ _) hlen.le
        refine hwait (nextFrame_part h.fits hvalid hpart hlen) fun g hg => ?_
        cases hg
        exact hlen

theorem exact_parseFrames (hcb : Keeping Stays cb) (hidles : Keeping Idles cb) (hoffer : Offer cfg block frames)
    (hframes : frames = past ++ rest) (h : Parsing cfg block past s) (hbytes : s.recv.bytes <+: encodeAll rest)
    (hcalm : Calm s (parseFrames cb s)) :
    Exact cfg block frames (parseFrames cb s) ∧ (parseFrames cb s).input = s.input ∧ readBetween s (parseFrames cb s) = [] := by
  have hfuel : s.recv.bytes.length < s.recv.mem.length + 1 := by
    have hin := h.fits.inside
    have hback := h.fits.backed
    rw [h.fits.length_bytes]
    omega
  exact exact_parseLoop hcb hidles hoffer _ hframes h hbytes hfuel hcalm

end Parse

end WsSession

end Lepton.Ws

import Lepton.Codes
import Lepton.HttpBuild
import Lepton.HttpWire
import Lepton.WsEnqueue
import Lepton.WsSafe

/-! The other end of a connection. A server takes the upgrade request up to its empty line and then one masked frame
after another. Whatever first part of the output has reached it, it has read the upgrade request and the frames that were
accepted first, with the payloads as they were passed in, and holds the beginning of the next one; it never sees a frame
that RFC 6455 tells it to refuse. -/

namespace Lepton.Ws

open Search Http Codes

variable {s s' s'' : WsSession} {cb : Callbacks}

/-- A frame that a client may send. -/
structure Frame.Valid (f : Frame) : Prop where
  size : f.payload.length < 2 ^ 63
  key : f.key.length = 4
  control : f.opcode.isControl = true → f.fin = true ∧ f.payload.length ≤ 125

/-- How a server reads a frame. A frame that is not masked ends the connection. -/
def serverRead (bytes : List UInt8) : Reading Frame UInt8 :=
  match wsParseHeader bytes with
  | .incomplete => .wait
  | .error => .broken
  | .header hdr =>
    if hdr.masked = false then .broken
    else if bytes.length < hdr.headerSize + hdr.payloadLen then .wait
    else
      .item
        { opcode := hdr.opcode
          payload := maskBytes hdr.maskKey 0 (slice bytes hdr.headerSize hdr.payloadLen)
          key := hdr.maskKey
          fin := hdr.fin }
        (bytes.drop (hdr.headerSize + hdr.payloadLen))

namespace Frame

variable {f : Frame}

/-- The header of a frame. -/
def header (f : Frame) : WsFrameHeader := clientHeader f.opcode f.payload.length f.key f.fin

theorem Valid.sound (h : f.Valid) : f.header.Sound := clientHeader_sound h.size h.control h.key

theorem encode_eq (f : Frame) : f.encode = f.header.image ++ maskBytes f.key 0 f.payload := by
  rw [encode, wsEncodeClientHeader_eq_image (Nat.le_refl _)]
  rfl

/-- Once the header is there, what is left to wait for is the payload. -/
theorem Valid.parse (h : f.Valid) (rest : List UInt8) : wsParseHeader (f.header.image ++ rest) = .header f.header :=
  wsParseHeader_image h.sound rest

theorem Valid.length_encode (h : f.Valid) : f.encode.length = f.header.headerSize + f.header.payloadLen :=
  Frame.length_encode h.key

theorem serverRead_whole (h : f.Valid) (rest : List UInt8) : serverRead (f.encode ++ rest) = .item f rest := by
  have hlen : ¬ (f.encode ++ rest).length < f.header.headerSize + f.header.payloadLen := by
    rw [List.length_append, h.length_encode]
    omega
  have hparse : wsParseHeader (f.encode ++ rest) = .header f.header := by
    rw [encode_eq, List.append_assoc]
    exact h.parse _
  have hslice : slice (f.encode ++ rest) f.header.headerSize f.header.payloadLen = maskBytes f.key 0 f.payload := by
    have happend := slice_append f.header.image (maskBytes f.key 0 f.payload) rest
    rw [length_maskBytes, ← h.sound.whole] at happend
    rw [encode_eq, List.append_assoc]
    exact happend
  rw [serverRead, hparse]
  dsimp only
  rw [if_neg (show ¬ f.header.masked = false from Bool.noConfusion), if_neg hlen, hslice,
    show f.header.maskKey = f.key from rfl, maskBytes_maskBytes, List.drop_left' h.length_encode]
  rfl

theorem serverRead_part (h : f.Valid) {piece : List UInt8} (hpiece : piece <+: f.encode)
    (hlen : piece.length < f.encode.length) : serverRead piece = .wait := by
  rw [encode_eq] at hpiece
  by_cases hshort : piece.length < f.header.image.length
  · have hpart : piece <+: f.header.image :=
      List.prefix_of_prefix_length_le hpiece (List.prefix_append _ _) (Nat.le_of_lt hshort)
    rw [serverRead, wsParseHeader_part h.sound hpart hshort]
  · have hhead : f.header.image <+: piece :=
      List.prefix_of_prefix_length_le (List.prefix_append _ _) hpiece (Nat.not_lt.mp hshort)
    obtain ⟨more, rfl⟩ := hhead
    rw [serverRead, h.parse more]
    dsimp only
    rw [if_neg (show ¬ f.header.masked = false from Bool.noConfusion), if_pos (h.length_encode ▸ hlen)]

theorem Valid.encode_ne_nil (h : f.Valid) : f.encode ≠ [] := by
  have hmin := h.sound.headerSize_bounds.1
  have hlen := h.length_encode
  intro hnil
  rw [hnil, List.length_nil] at hlen
  omega

end Frame

/-- The frames of a client as items of a stream. -/
def frameCode : Code Frame UInt8 where
  encode := Frame.encode
  read := serverRead
  Valid := Frame.Valid
  idle := rfl
  whole _ rest h := Frame.serverRead_whole h rest
  part _ _ h := Frame.serverRead_part h
  nonempty _ h := h.encode_ne_nil

/-- What a server has made of the bytes of a connection: the upgrade request, once it is complete, and the frames. -/
def serve (bytes : List UInt8) : Option (List UInt8 × View Frame UInt8) :=
  (find bytes crlfcrlf 0).map fun k => (bytes.take (k + 4), readAll frameCode bytes.length (bytes.drop (k + 4)))

/-! ### The request -/

/-- The lines of the upgrade request behind the first. -/
def upgradeLines (host secKey : List UInt8) : List (List UInt8) :=
  [ascii "Host: " ++ host, ascii "Upgrade: websocket", ascii "Connection: Upgrade",
    ascii "Sec-WebSocket-Key: " ++ secKey, ascii "Sec-WebSocket-Version: 13"]

theorem buildWsUpgrade_lines {room : Nat} {host path secKey text : List UInt8}
    (h : buildWsUpgrade room host path secKey = some text) :
    text = joinLines ((ascii "GET " ++ (path ++ ascii " HTTP/1.1")) :: upgradeLines host secKey) ++ crlf := by
  rw [buildWsUpgrade_eq] at h
  split at h
  · cases h
    have hhost : ascii " HTTP/1.1\r\nHost: " = ascii " HTTP/1.1" ++ (crlf ++ ascii "Host: ") := by decide
    have hkey : ascii "\r\nUpgrade: websocket\r\nConnection: Upgrade\r\nSec-WebSocket-Key: " =
        crlf ++ (ascii "Upgrade: websocket" ++ (crlf ++ (ascii "Connection: Upgrade" ++
          (crlf ++ ascii "Sec-WebSocket-Key: ")))) := by decide
    have hversion : ascii "\r\nSec-WebSocket-Version: 13\r\n\r\n" =
        crlf ++ (ascii "Sec-WebSocket-Version: 13" ++ (crlf ++ crlf)) := by decide
    rw [upgradePieces, hhost, hkey, hversion]
    simp only [joinLines, upgradeLines, List.map_cons, List.map_nil, List.flatten_cons, List.flatten_nil,
      List.append_assoc, List.append_nil]
  · cases h

/-- A request whose parts have no line breaks ends at its first empty line, whatever comes behind it. -/
theorem find_request {room : Nat} {host path secKey text : List UInt8} (hhost : (13 : UInt8) ∉ host)
    (hpath : (13 : UInt8) ∉ path) (hkey : (13 : UInt8) ∉ secKey)
    (h : buildWsUpgrade room host path secKey = some text) (rest : List UInt8) :
    4 ≤ text.length ∧ find (text ++ rest) crlfcrlf 0 = some (text.length - 4) := by
  have hplain (name value : List UInt8) (hname : (13 : UInt8) ∉ name ∧ name ≠ []) (hvalue : (13 : UInt8) ∉ value) :
      (13 : UInt8) ∉ name ++ value ∧ name ++ value ≠ [] :=
    ⟨fun hmem => (List.mem_append.mp hmem).elim hname.1 hvalue, List.append_ne_nil_of_left_ne_nil hname.2 value⟩
  have hline : (13 : UInt8) ∉ ascii "GET " ++ (path ++ ascii " HTTP/1.1") := by
    simp only [List.mem_append, not_or]
    exact ⟨by decide, hpath, by decide⟩
  have hlines : ∀ l ∈ upgradeLines host secKey, (13 : UInt8) ∉ l ∧ l ≠ [] := by
    simp only [upgradeLines, List.forall_mem_cons]
    exact ⟨hplain _ host (by decide) hhost, by decide, by decide, hplain _ secKey (by decide) hkey, by decide, by decide⟩
  have hend := find_blockEnd [] hline hlines rest
  have htext := buildWsUpgrade_lines h
  generalize hblock : joinLines ((ascii "GET " ++ (path ++ ascii " HTTP/1.1")) :: upgradeLines host secKey) = block
    at hend htext
  have hmin : 2 ≤ block.length := by
    rw [← hblock, joinLines_cons]
    simp only [List.length_append, show crlf.length = 2 from rfl]
    omega
  have hlen : text.length = block.length + 2 := by
    rw [htext, List.length_append]
    rfl
  refine ⟨by omega, ?_⟩
  rw [show text.length - 4 = block.length - 2 by omega, htext, List.append_assoc]
  rw [List.nil_append, List.length_nil, Nat.zero_add] at hend
  exact hend

/-! ### The frames -/

/-- Every new frame is one that a client may send. -/
structure Adds (s s' : WsSession) : Prop where
  cfg : s'.cfg = s.cfg
  valid : ∀ f ∈ s'.frames, f ∈ s.frames ∨ f.Valid

theorem Adds.same (hcfg : s'.cfg = s.cfg) (hframes : s'.frames = s.frames) : Adds s s' :=
  ⟨hcfg, fun _ hf => Or.inl (hframes ▸ hf)⟩

theorem Adds.of_inward (h : WsSession.Inward s s') : Adds s s' := .same h.cfg h.frames

theorem Adds.refl (s : WsSession) : Adds s s := .same rfl rfl

theorem Adds.trans (h : Adds s s') (h' : Adds s' s'') : Adds s s'' :=
  ⟨h'.cfg.trans h.cfg, fun f hf => (h'.valid f hf).elim (h.valid f) Or.inr⟩

namespace WsSession

theorem adds_queueFrame (s : WsSession) {opcode : WsOpcode} {payload : List UInt8} {fin : Bool}
    (hcontrol : opcode.isControl = true → fin = true ∧ payload.length ≤ 125) :
    Adds s (s.queueFrame opcode payload fin).2 := by
  obtain ⟨status, s', hqueue⟩ : ∃ status s', s.queueFrame opcode payload fin = (status, s') := ⟨_, _, rfl⟩
  rw [hqueue]
  obtain ⟨acquires, gen, faults, ⟨-, rfl⟩ | ⟨-, buf, key, ring, hroom, -, rfl⟩⟩ := queueFrame_cases hqueue
  · exact .same rfl rfl
  · refine ⟨rfl, fun f hf => (List.mem_append.mp hf).imp id fun hnew => ?_⟩
    rw [List.mem_singleton.mp hnew]
    rw [tailroom_reserved] at hroom
    have hcap := s.cfg.cap_lt
    exact ⟨by change payload.length < 2 ^ 63; omega, length_keyBytes key, hcontrol⟩

theorem adds_enter {s₀ : WsSession} (h : Adds s₀ s) (st : WsState) : Adds s₀ (s.enter st) := by
  obtain ⟨log, heq, -⟩ := s.enter_eq st
  rw [heq]
  exact ⟨h.cfg, h.valid⟩

theorem adds_down {s₀ : WsSession} (h : Adds s₀ s) (next : WsState) : Adds s₀ ((s.shutDown next).enter next) := by
  refine adds_enter ?_ next
  obtain ⟨clocks, t, hdown⟩ := s.shutDown_eq next
  rw [hdown]
  exact ⟨h.cfg, h.valid⟩

theorem blocks_adds : Blocks Adds := by
  refine Blocks.of_turn Adds.refl Adds.trans (fun s _ _ => adds_down (.refl s) _) (fun s => ?_)
    (fun s _ _ _ hsend _ => s.adds_queueFrame hsend.2) (fun _ _ _ => .same rfl rfl)
    fun s => .of_inward s.silent_deadlinePassed.toInward
  rcases s.flushTurn_snd with ⟨interest, h, -⟩ | ⟨-, r, writes, pending, h⟩
  · rw [h]
    exact .same rfl rfl
  · rw [h]
    exact .same rfl rfl

/-- The payload of a Ping fits in a Pong. -/
theorem length_ping {hdr : WsFrameHeader} {payload : List UInt8} {total : Nat}
    (h : s.nextFrame = .frame hdr payload total) (hping : hdr.opcode = .ping) : payload.length ≤ 125 := by
  unfold nextFrame at h
  split at h
  · cases h
  · cases h
  · next hparse =>
    dsimp only at h
    split at h
    · cases h
    · cases h
      have hsound := (wsParseHeader_eq_header.mp hparse).1
      have hshort := (hsound.control (by rw [hping]; decide)).2
      rw [slice, List.length_take]
      omega

theorem adds_parseFrames (hcb : Keeping Adds cb) (hbasic : Keeping Basic cb) (s : WsSession)
    (hs : s.state ≠ .upgrading) : Adds s (parseFrames cb s) := by
  refine keeps_parsePings (P := (· ≠ .upgrading)) (fun _ h => h) (fun _ h => h.not_upgrading)
    (Receives.of_silent blocks_adds fun h => .of_inward h.toInward) blocks_adds.above
    (fun s hdr payload total _ hnext hping => ?_) (fun _ _ _ => .same rfl rfl)
    (fun s _ => .of_inward s.silent_compactRecv.toInward) hcb hbasic s hs
  exact adds_queueFrame _ fun _ => ⟨rfl, length_ping hnext hping⟩

theorem adds_act (hcb : Keeping Adds cb) (s : WsSession) {a : Act} (ha : a.keepsOn = true) :
    Adds s (act cb s a) := by
  cases a with
  | connect => cases ha
  | send payload binary => exact keeps_send blocks_adds.toFlushes hcb s payload binary
  | close code =>
    refine keeps_close blocks_adds hcb s code (.same rfl rfl) fun _ => adds_enter ?_ .closing
    exact keeps_sendClose blocks_adds.toFlushes hcb (.same rfl rfl) (adds_queueFrame _ (sendable_close code).2)
      fun _ _ _ _ _ => .same rfl rfl

theorem adds_callbacksOf (depth : Nat) : Keeping Adds (callbacksOf Act.keepsOn depth) :=
  keeping_callbacksOf Adds.refl Adds.trans (fun _ _ => .same rfl rfl) (fun _ hcb s _ ha => adds_act hcb s ha) depth

theorem dials_adds : Dials Adds where
  starved {s s'} h := by
    refine adds_enter ?_ .failed
    obtain ⟨acquires, recv, hs⟩ := tryDial_starved h
    rw [hs]
    exact .same rfl rfl
  refused {s s'} h := by
    refine adds_down ?_ .failed
    obtain ⟨env, recv, deadline, -, hs⟩ := tryDial_refused h
    rw [hs]
    exact .same rfl rfl
  dialed {s s'} h := by
    refine adds_enter ?_ .connecting
    obtain ⟨env, deadline, fd, -, hs⟩ := tryDial_dialed h
    rw [hs]
    exact ⟨rfl, nofun⟩
  register := keeps_register Adds.refl fun _ _ _ _ => .same rfl rfl

theorem adds_queueRequest {ok : Bool} (h : s.queueRequest = (ok, s')) : Adds s s' := by
  obtain ⟨acquires, faults, pending, interest, request, marks, rfl, -⟩ := queueRequest_snd h
  exact .same rfl rfl

theorem drives_adds : Drives Adds Adds :=
  Drives.of_inward blocks_adds blocks_adds.above (dials_adds.connects blocks_adds.above) Adds.of_inward
    (fun {s _ _ _} _ hset h => (adds_enter (.refl s) .upgrading).trans (hset.trans (adds_queueRequest h)))
    (fun {s} _ => adds_enter (.refl s) .opened) adds_parseFrames fun hcb s =>
      keeps_keepalive blocks_adds hcb (.of_inward s.silent_keepaliveTurn.toInward)
        (fun s' _ => s'.adds_queueFrame fun _ => ⟨rfl, Nat.zero_le _⟩) fun _ _ => .same rfl rfl

theorem adds_run (depth : Nat) (s : WsSession) (calls : List (Api × Env)) :
    Adds s (runWith (callbacksOf Act.keepsOn depth) s calls) := by
  have hcb := adds_callbacksOf depth
  refine keeps_runWith blocks_adds drives_adds hcb (basic_callbacksOf Act.keepsOn depth) (fun s env => .same rfl rfl)
    (fun s a => ?_) s calls
  cases a with
  | connect => exact keeps_startConnect blocks_adds dials_adds hcb s
  | send payload binary => exact adds_act hcb s rfl
  | close code => exact adds_act hcb s rfl

end WsSession

/-! ### The conversation -/

/-- What a server makes of a first part of a request and frames behind it. -/
theorem serve_stream {request : List UInt8} (hmin : 4 ≤ request.length)
    (hend : ∀ rest, find (request ++ rest) crlfcrlf 0 = some (request.length - 4)) {frames : List Frame}
    (hvalid : ∀ f ∈ frames, f.Valid) {bytes : List UInt8} (hbytes : bytes <+: request ++ frames.flatMap Frame.encode) :
    (bytes.length < request.length → serve bytes = none) ∧
    (request.length ≤ bytes.length → ∃ k left, serve bytes = some (request, ⟨frames.take k, left, false⟩) ∧
      bytes = request ++ ((frames.take k).flatMap Frame.encode ++ left) ∧ Partway frameCode frames k left) := by
  have hfour : crlfcrlf.length = 4 := rfl
  constructor
  · intro hshort
    have hnone := find_take_of_lt (hend (frames.flatMap Frame.encode)) (n := bytes.length) (by omega) nofun
    rw [← List.prefix_iff_eq_take.mp hbytes] at hnone
    rw [serve, hnone]
    rfl
  · intro hlong
    have hrequest : request <+: bytes := List.prefix_of_prefix_length_le (List.prefix_append _ _) hbytes hlong
    obtain ⟨rest, rfl⟩ := hrequest
    have hrest : rest <+: frames.flatMap Frame.encode := (List.prefix_append_right_inj _).mp hbytes
    have hfuel : rest.length ≤ (request ++ rest).length := by
      rw [List.length_append]
      exact Nat.le_add_left _ _
    obtain ⟨k, left, hread, hsplit, hpart⟩ := readAll_stream frameCode hvalid hrest hfuel
    refine ⟨k, left, ?_, congrArg (request ++ ·) hsplit, hpart⟩
    rw [serve, hend, Option.map_some, show request.length - 4 + 4 = request.length by omega, List.take_left,
      List.drop_left, hread]

/-- **What is sent arrives.** In every run whose callbacks call `send` and `close` only, on a connection that has asked for
its upgrade: the accepted frames carry the messages given to the calls of `send` that returned Ok. A server that has
received any first part of the output waits for the rest of the request, or has read the request and the frames that were
accepted first, and waits for the rest of the next one. When nothing is left unsent and the output has arrived, the server
has read every accepted frame. -/
theorem frames_reach_server (cfg : Config) (seed : UInt64) (autoReconnect : Bool) (depth : Nat) (calls : List (Api × Env))
    (hhost : (13 : UInt8) ∉ cfg.host) (hpath : (13 : UInt8) ∉ cfg.path) (hkey : (13 : UInt8) ∉ cfg.secKey) :
    let s := WsSession.runWith (WsSession.callbacksOf Act.keepsOn depth) (fresh cfg seed autoReconnect) calls
    s.linked = true → s.state.Live → s.state ≠ .connecting →
      s.frames.filterMap Frame.message = s.said ∧
      (∀ bytes, bytes <+: s.output →
        (bytes.length < s.request.length → serve bytes = none) ∧
        (s.request.length ≤ bytes.length → ∃ k left, serve bytes = some (s.request, ⟨s.frames.take k, left, false⟩) ∧
          bytes = s.request ++ ((s.frames.take k).flatMap Frame.encode ++ left) ∧ Partway frameCode s.frames k left)) ∧
      (s.unsent = [] → serve s.output = some (s.request, ⟨s.frames, [], false⟩)) := by
  intro s hlinked hlive hconn
  have hdead : ¬ (fresh cfg seed autoReconnect).Joined := fun h => absurd h.1 nofun
  have ⟨horder, hasked⟩ := WsSession.sends_run depth _ calls ⟨WsSession.inOrder_dead rfl hdead, fun h => absurd h hdead⟩
  have hadds := WsSession.adds_run depth (fresh cfg seed autoReconnect) calls
  have hstream := horder.stream ⟨hlinked, hlive⟩
  have hrequest := hasked ⟨hlinked, hlive⟩ hconn
  rw [hadds.cfg] at hrequest
  have hvalid : ∀ f ∈ s.frames, f.Valid := fun f hf => (hadds.valid f hf).resolve_left (List.not_mem_nil)
  have hend := find_request hhost hpath hkey hrequest
  have hserve {bytes : List UInt8} (hbytes : bytes <+: s.request ++ s.frames.flatMap Frame.encode) :=
    serve_stream (hend []).1 (fun rest => (hend rest).2) hvalid hbytes
  refine ⟨horder.told ⟨hlinked, hlive⟩, fun bytes hbytes => hserve (hstream ▸ hbytes.trans (List.prefix_append _ _)),
    fun hunsent => ?_⟩
  have houtput : s.output = s.request ++ s.frames.flatMap Frame.encode := by
    rw [← hstream, hunsent, List.append_nil]
  have hmin : 4 ≤ s.request.length := (hend []).1
  rw [serve, houtput, (hend _).2, Option.map_some, show s.request.length - 4 + 4 = s.request.length by omega,
    List.take_left, List.drop_left]
  have hfuel : (s.frames.flatMap Frame.encode).length ≤ (s.request ++ s.frames.flatMap Frame.encode).length := by
    rw [List.length_append]
    exact Nat.le_add_left _ _
  exact congrArg (fun v => some (s.request, v)) (readAll_whole frameCode hvalid hfuel)

/-- A text that is sent, and a Close frame that is sent in part. -/
theorem text_reaches_server :
    let calls := opening ++ [(.act (.send [0x41, 0x42] false), { writes := [.accepted 8] }),
      (.act (.close 1000), { writes := [.accepted 3] })]
    let s := WsSession.runWith (WsSession.callbacksOf Act.keepsOn 1) (fresh plainConfig 1 false) calls
    s.frames.filterMap Frame.message = [([0x41, 0x42], false)] ∧
      ∃ k left, serve s.output = some (s.request, ⟨s.frames.take k, left, false⟩) ∧ Partway frameCode s.frames k left := by
  intro calls s
  have hlive : s.linked = true ∧ s.state.Live ∧ s.state ≠ .connecting ∧ s.said = [([0x41, 0x42], false)] ∧
      s.request.length ≤ s.output.length := by decide +kernel
  obtain ⟨hlinked, hup, hconn, hsaid, hlong⟩ := hlive
  have hreach := frames_reach_server plainConfig 1 false 1 _ (by decide) (by decide) (by decide) hlinked hup hconn
  obtain ⟨k, left, hserve, -, hpart⟩ := (hreach.2.1 _ List.prefix_rfl).2 hlong
  exact ⟨hreach.1.trans hsaid, k, left, hserve, hpart⟩

end Lepton.Ws

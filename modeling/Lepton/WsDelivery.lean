import Lepton.WsReceive
import Lepton.WsLink

/-! What the user is given. On a connection whose frames come in order no byte of data is lost; and if no frame
is masked with a key that changes it, messages and pongs consist of unmasked payloads. -/

namespace Lepton.Ws

variable {s s' : WsSession}

/-- The frames of a connection come in order: no continuation without a message in progress, and no first
fragment while one is. -/
structure InSequence (received : List (WsFrameHeader × List UInt8)) : Prop where
  accepts : Assembly.AcceptsAll {} (received.map pieceOf)

instance : DecidablePred InSequence := fun received =>
  decidable_of_iff (Assembly.AcceptsAll {} (received.map pieceOf)) ⟨InSequence.mk, InSequence.accepts⟩

/-- The payload bytes of data and continuation frames. -/
def dataBytes (received : List (WsFrameHeader × List UInt8)) : List UInt8 :=
  received.flatMap fun x => if x.1.opcode.isControl then [] else x.2

theorem data_pieceOf (x : WsFrameHeader × List UInt8) :
    (pieceOf x).data = if x.1.opcode.isControl then [] else x.2 := by
  unfold pieceOf
  cases hop : x.1.opcode with
  | text | binary =>
    cases x.1.fin with
    | true => rfl
    | false => rfl
  | continuation | close | ping | pong => rfl

theorem dataBytes_eq (received : List (WsFrameHeader × List UInt8)) :
    dataBytes received = (received.map pieceOf).flatMap Piece.data := by
  rw [List.flatMap_map, dataBytes]
  congr 1
  funext x
  exact (data_pieceOf x).symm

/-- While the connection is clean, the session has done with the frames what a reassembler does. -/
def Reassembles (s : WsSession) : Prop :=
  s.state.Clean → s.view = Assembly.takes {} (s.received.map pieceOf)

theorem Reassembles.idle (h : Idles s s') (hs : Reassembles s) : Reassembles s' := by
  intro hclean
  rcases h.data with hnew | hsame
  · rw [WsSession.view, WsSession.held, if_pos hnew.frag, hnew.messages, hnew.received]
    rfl
  · rcases hsame.frag with ⟨hfrag, hop, hwas⟩ | ⟨-, hend⟩
    · have hview := hs (hwas hclean)
      rw [WsSession.view, WsSession.held] at hview ⊢
      rw [hsame.messages, hfrag, hop, hsame.received]
      exact hview
    · exact absurd hclean hend

theorem Reassembles.frame {x : WsFrameHeader × List UInt8} (h : Handled s x s') (hs : Reassembles s) :
    Reassembles s' := by
  intro hclean
  rcases h.outcome with ⟨-, -, -, hend⟩ | ⟨hstate, hview, -⟩
  · exact absurd hclean hend
  · rw [hview, hs (hstate ▸ hclean), h.received, List.map_append, Assembly.takes_append]
    rfl

/-- The content of the session as a reassembler. -/
theorem content_view (hf : FragOk s) :
    s.view.content = s.messages.flatMap (·.payload) ++ s.frag.bytes := by
  rw [Assembly.content, WsSession.view, List.flatMap_map]
  congr 1
  by_cases hbase : s.frag.base = none
  · rw [WsSession.held, if_pos hbase, hf.empty hbase]
    rfl
  · rw [WsSession.held, if_neg hbase]
    rfl

/-- **No data byte is lost** on an open connection whose frames have come in order: the bytes of the data and
continuation frames are those of the messages delivered and of the message in progress. -/
theorem data_accounted_for (cfg : Config) (seed : UInt64) (autoReconnect : Bool) (depth : Nat) (calls : List (Api × Env)) :
    let s := WsSession.run depth (fresh cfg seed autoReconnect) calls
    InSequence s.received → s.state = .opened →
      (dataBytes s.received).Perm (s.messages.flatMap (·.payload) ++ s.frag.bytes) := by
  intro s hseq hopen
  have hfresh : FragOk (fresh cfg seed autoReconnect) := ⟨IoBuffer.fits_empty, fun _ => rfl⟩
  obtain ⟨hf, hview⟩ : FragOk s ∧ Reassembles s := WsSession.keeps_receive_run Reassembles.idle Reassembles.frame depth
    hfresh (fun _ => rfl) calls
  rw [← content_view hf, hview (Or.inr (Or.inr hopen)), dataBytes_eq]
  exact (Assembly.content_takes hseq.accepts).symm

/-- A message in two fragments with a ping between them, and the first fragment of another. -/
def fragmentCalls : List (Api × Env) :=
  opening ++ [(.onReady, { reads := [.data [0x01, 0x01, 0x41, 0x89, 0x00, 0x80, 0x01, 0x42]] }),
    (.onReady, { reads := [.data [0x02, 0x02, 0x43, 0x44]] })]

theorem fragments_accounted_for :
    let s := WsSession.run 1 (fresh plainConfig 1 false) fragmentCalls
    s.messages = [⟨.text, [0x41, 0x42]⟩] ∧
      (dataBytes s.received).Perm (s.messages.flatMap (·.payload) ++ s.frag.bytes) := by
  intro s
  have hrun : InSequence s.received ∧ s.state = .opened ∧ s.messages = [⟨.text, [0x41, 0x42]⟩] := by decide +kernel
  obtain ⟨hseq, hopen, hmessages⟩ := hrun
  exact ⟨hmessages, data_accounted_for plainConfig 1 false 1 fragmentCalls hseq hopen⟩

/-- A continuation frame without a message in progress is dropped, and the session stays open. -/
theorem strayContinuation_lost :
    let s := WsSession.run 0 (fresh plainConfig 1 false)
      (opening ++ [(.onReady, { reads := [.data [0x80, 0x01, 0x41]] })])
    s.state = .opened ∧ dataBytes s.received = [0x41] ∧ s.messages = [] ∧ s.frag.bytes = [] ∧
      ¬ (dataBytes s.received).Perm (s.messages.flatMap (·.payload) ++ s.frag.bytes) := by
  decide +kernel

/-- The payload that was sent, for a payload as received. -/
def unmasked (x : WsFrameHeader × List UInt8) : List UInt8 :=
  if x.1.masked then maskBytes x.1.maskKey 0 x.2 else x.2

/-- No received frame whose payload is passed on is masked with a key other than zero. -/
def Unkeyed (received : List (WsFrameHeader × List UInt8)) : Prop :=
  ∀ x ∈ received, x.1.opcode.isControl = false ∨ x.1.opcode = .ping → x.1.masked = true →
    x.2 = [] ∨ x.1.maskKey = [0, 0, 0, 0]

instance : DecidablePred Unkeyed := fun received => inferInstanceAs (Decidable (∀ x ∈ received,
  x.1.opcode.isControl = false ∨ x.1.opcode = .ping → x.1.masked = true → x.2 = [] ∨ x.1.maskKey = [0, 0, 0, 0]))

/-- The bytes are put together from payloads of data frames, read by `f`. -/
def Pieced (f : WsFrameHeader × List UInt8 → List UInt8) (received : List (WsFrameHeader × List UInt8))
    (bytes : List UInt8) : Prop :=
  ∃ parts : List (WsFrameHeader × List UInt8), parts.Sublist received ∧
    (∀ x ∈ parts, x.1.opcode.isControl = false) ∧ bytes = parts.flatMap f

/-- Messages, the message in progress and pongs consist of received payloads, read by `f`. -/
structure Echoes (f : WsFrameHeader × List UInt8 → List UInt8) (s : WsSession) : Prop where
  messages : ∀ m ∈ s.messages, Pieced f s.received m.payload
  held : Pieced f s.received s.frag.bytes
  pongs : ∀ p ∈ s.pongs, ∃ x ∈ s.received, x.1.opcode = .ping ∧ p.payload = f x

theorem maskBytes_zero (data : List UInt8) : maskBytes [0, 0, 0, 0] 0 data = data := by
  have hkey (i : Nat) : ([0, 0, 0, 0] : List UInt8).getD i 0 = 0 := by
    match i with
    | 0 | 1 | 2 | 3 => rfl
    | i + 4 => rfl
  unfold maskBytes
  simp only [hkey, UInt8.xor_zero]
  exact List.ext_getElem (List.length_mapIdx) fun i _ _ => List.getElem_mapIdx

theorem unmasked_of_unkeyed {received : List (WsFrameHeader × List UInt8)} (h : Unkeyed received)
    {x : WsFrameHeader × List UInt8} (hx : x ∈ received) (hop : x.1.opcode.isControl = false ∨ x.1.opcode = .ping) :
    unmasked x = x.2 := by
  unfold unmasked
  split
  · next hmasked =>
    rcases h x hx hop hmasked with hnil | hkey
    · rw [hnil]
      rfl
    · rw [hkey, maskBytes_zero]
  · rfl

theorem pieced_nil (f : WsFrameHeader × List UInt8 → List UInt8) (received : List (WsFrameHeader × List UInt8)) :
    Pieced f received [] := ⟨[], List.nil_sublist _, nofun, rfl⟩

theorem Pieced.mono {f : WsFrameHeader × List UInt8 → List UInt8} {received : List (WsFrameHeader × List UInt8)}
    {bytes : List UInt8} (h : Pieced f received bytes) (x : WsFrameHeader × List UInt8) :
    Pieced f (received ++ [x]) bytes := by
  obtain ⟨parts, hsub, hdata, hbytes⟩ := h
  exact ⟨parts, hsub.trans (List.sublist_append_left _ _), hdata, hbytes⟩

/-- A new frame continues what is put together from earlier ones. -/
theorem Pieced.snoc {received : List (WsFrameHeader × List UInt8)} {bytes : List UInt8}
    (h : Pieced Prod.snd received bytes) (x : WsFrameHeader × List UInt8) :
    Pieced Prod.snd (received ++ [x]) (bytes ++ (pieceOf x).data) := by
  rw [data_pieceOf]
  by_cases hcontrol : x.1.opcode.isControl = true
  · rw [if_pos hcontrol, List.append_nil]
    exact h.mono x
  · obtain ⟨parts, hsub, hdata, rfl⟩ := h
    rw [if_neg hcontrol]
    refine ⟨parts ++ [x], hsub.append (List.Sublist.refl _), fun y hy => ?_, ?_⟩
    · rcases List.mem_append.mp hy with hy | hy
      · exact hdata y hy
      · exact List.mem_singleton.mp hy ▸ Bool.eq_false_iff.mpr hcontrol
    · rw [List.flatMap_append, List.flatMap_singleton]

theorem Echoes.idle (h : Idles s s') (hs : FragOk s ∧ Echoes Prod.snd s) :
    FragOk s' ∧ Echoes Prod.snd s' := by
  have hf := h.frag hs.1
  refine ⟨hf, ?_⟩
  rcases h.data with hnew | hsame
  · refine ⟨hnew.messages ▸ nofun, ?_, hnew.pongs ▸ nofun⟩
    rw [hf.empty hnew.frag]
    exact pieced_nil _ _
  · refine ⟨?_, ?_, ?_⟩
    · rw [hsame.messages, hsame.received]
      exact hs.2.messages
    · rcases hsame.frag with ⟨hfrag, -⟩ | ⟨hbase, -⟩
      · rw [hfrag, hsame.received]
        exact hs.2.held
      · rw [hf.empty hbase]
        exact pieced_nil _ _
    · rw [hsame.pongs, hsame.received]
      exact hs.2.pongs

/-- A frame does what a reassembler does with it, or ends the connection. -/
theorem Echoes.frame {x : WsFrameHeader × List UInt8} (h : Handled s x s')
    (hs : FragOk s ∧ Echoes Prod.snd s) : FragOk s' ∧ Echoes Prod.snd s' := by
  refine ⟨h.frag, ?_⟩
  have hpongs : ∀ p ∈ s.pongs, ∃ y ∈ s.received ++ [x], y.1.opcode = .ping ∧ p.payload = y.2 := fun p hp => by
    obtain ⟨y, hy, hecho⟩ := hs.2.pongs p hp
    exact ⟨y, List.mem_append_left _ hy, hecho⟩
  rcases h.outcome with ⟨hmessages, hpongs', hbase, -⟩ | ⟨-, hview, hpongs'⟩
  · refine ⟨?_, ?_, ?_⟩
    · rw [hmessages, h.received]
      exact fun m hm => (hs.2.messages m hm).mono x
    · rw [h.frag.empty hbase]
      exact pieced_nil _ _
    · rw [hpongs', h.received]
      exact hpongs
  · have hheld (m : WsOpcode × List UInt8) (hm : m ∈ s.view.held) : Pieced Prod.snd s.received m.2 := by
      change s.held = some m at hm
      unfold WsSession.held at hm
      split at hm
      · cases hm
      · cases hm
        exact hs.2.held
    have hall := Assembly.take_forall (P := Pieced Prod.snd (s.received ++ [x])) (a := s.view) (p := pieceOf x)
      (fun m hm => ?_) (fun m hm => ?_) ?_ fun m hm => ?_
    · rw [← hview] at hall
      refine ⟨fun m hm => ?_, ?_, ?_⟩
      · rw [h.received]
        exact hall.1 (m.opcode, m.payload) (List.mem_map_of_mem hm)
      · rw [h.received]
        by_cases hbase : s'.frag.base = none
        · rw [h.frag.empty hbase]
          exact pieced_nil _ _
        · exact hall.2 (s'.fragOpcode, s'.frag.bytes) (if_neg hbase)
      · rw [h.received]
        rcases hpongs' with heq | ⟨hop, f, hpayload, heq⟩
        · rw [heq]
          exact hpongs
        · rw [heq]
          intro p hp
          rcases List.mem_append.mp hp with hp | hp
          · exact hpongs p hp
          · rw [List.mem_singleton.mp hp]
            exact ⟨x, List.mem_append_right _ List.mem_cons_self, hop, hpayload⟩
    · obtain ⟨m', hm', rfl⟩ := List.mem_map.mp hm
      exact (hs.2.messages m' hm').mono x
    · exact (hheld m hm).mono x
    · exact (pieced_nil Prod.snd s.received).snoc x
    · exact (hheld m hm).snoc x

theorem Pieced.unmasked {received : List (WsFrameHeader × List UInt8)} {bytes : List UInt8}
    (h : Pieced Prod.snd received bytes) (hkeys : Unkeyed received) : Pieced unmasked received bytes := by
  obtain ⟨parts, hsub, hdata, rfl⟩ := h
  refine ⟨parts, hsub, hdata, ?_⟩
  exact List.flatMap_congr fun x hx => (unmasked_of_unkeyed hkeys (hsub.subset hx) (Or.inl (hdata x hx))).symm

theorem Echoes.unmasked (h : Echoes Prod.snd s) (hkeys : Unkeyed s.received) : Echoes unmasked s := by
  refine ⟨fun m hm => (h.messages m hm).unmasked hkeys, h.held.unmasked hkeys, fun p hp => ?_⟩
  obtain ⟨x, hx, hping, hpayload⟩ := h.pongs p hp
  exact ⟨x, hx, hping, hpayload.trans (unmasked_of_unkeyed hkeys hx (Or.inr hping)).symm⟩

/-- With such keys the pieces of a stream are those of its unmasked payloads. -/
theorem pieces_unmasked {received : List (WsFrameHeader × List UInt8)} (hkeys : Unkeyed received) :
    received.map pieceOf = received.map fun x => pieceOf (x.1, unmasked x) := by
  refine List.map_congr_left fun x hx => ?_
  obtain ⟨hdr, payload⟩ := x
  have hdata (h : hdr.opcode.isControl = false) : unmasked (hdr, payload) = payload :=
    unmasked_of_unkeyed hkeys hx (Or.inl h)
  unfold pieceOf
  dsimp only
  cases hop : hdr.opcode with
  | text | binary | continuation => rw [hdata (by rw [hop]; rfl)]
  | close | ping | pong => rfl

/-- **No masked byte is passed on**, if no frame that carries data or a ping is masked with a key other than
zero: messages are put together from unmasked payloads, pongs echo them, and an open session has delivered every
message of the unmasked frames. -/
theorem delivered_unmasked (cfg : Config) (seed : UInt64) (autoReconnect : Bool) (depth : Nat) (calls : List (Api × Env)) :
    let s := WsSession.run depth (fresh cfg seed autoReconnect) calls
    Unkeyed s.received → Echoes unmasked s ∧
      (s.state = .opened → s.view = Assembly.takes {} (s.received.map fun x => pieceOf (x.1, unmasked x))) := by
  intro s hkeys
  have hfresh : FragOk (fresh cfg seed autoReconnect) := ⟨IoBuffer.fits_empty, fun _ => rfl⟩
  obtain ⟨-, -, hechoes⟩ : FragOk s ∧ FragOk s ∧ Echoes Prod.snd s :=
    WsSession.keeps_receive_run Echoes.idle Echoes.frame depth hfresh ⟨hfresh, nofun, pieced_nil _ _, nofun⟩ calls
  have hview : Reassembles s :=
    (WsSession.keeps_receive_run Reassembles.idle Reassembles.frame depth hfresh (fun _ => rfl) calls).2
  refine ⟨hechoes.unmasked hkeys, fun hopen => ?_⟩
  rw [← pieces_unmasked hkeys]
  exact hview (Or.inr (Or.inr hopen))

/-- A ping and a message in two fragments, masked with the key zero. -/
def zeroKeyCalls : List (Api × Env) :=
  opening ++ [(.onReady, { reads := [.data [0x01, 0x81, 0, 0, 0, 0, 0x41, 0x89, 0x81, 0, 0, 0, 0, 0x50,
    0x80, 0x81, 0, 0, 0, 0, 0x42]] })]

theorem zeroKey_delivered_unmasked :
    let s := WsSession.run 0 (fresh plainConfig 1 false) zeroKeyCalls
    s.messages = [⟨.text, [0x41, 0x42]⟩] ∧ Echoes unmasked s := by
  intro s
  have hrun : Unkeyed s.received ∧ s.messages = [⟨.text, [0x41, 0x42]⟩] := by decide +kernel
  exact ⟨hrun.2, (delivered_unmasked plainConfig 1 false 0 zeroKeyCalls hrun.1).1⟩

/-- A message of one byte, masked with a key other than zero. -/
def keyedCalls : List (Api × Env) :=
  opening ++ [(.onReady, { reads := [.data [0x81, 0x81, 1, 2, 3, 4, 0x40]] })]

/-- It is delivered as it came, still masked, and the session stays open. -/
theorem keyed_delivered_masked :
    let s := WsSession.run 0 (fresh plainConfig 1 false) keyedCalls
    s.state = .opened ∧ s.received.map unmasked = [[0x41]] ∧ s.messages = [⟨.text, [0x40]⟩] ∧ ¬ Echoes unmasked s := by
  intro s
  have hrun : s.state = .opened ∧ s.received.map unmasked = [[0x41]] ∧ s.messages = [⟨.text, [0x40]⟩] := by decide +kernel
  refine ⟨hrun.1, hrun.2.1, hrun.2.2, fun hechoes => ?_⟩
  obtain ⟨parts, hsub, -, hbytes⟩ := hechoes.messages ⟨.text, [0x40]⟩ (by rw [hrun.2.2]; exact List.mem_cons_self)
  -- The one frame of the connection gives the unmasked byte or none.
  have hparts := hsub.map unmasked
  rw [hrun.2.1] at hparts
  rw [List.flatMap] at hbytes
  rcases List.sublist_singleton.mp hparts with hnone | hone
  · rw [hnone] at hbytes
    cases hbytes
  · rw [hone] at hbytes
    exact absurd hbytes (by decide)

end Lepton.Ws

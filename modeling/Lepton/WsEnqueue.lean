import Lepton.WsCodec
import Lepton.WsMask
import Lepton.WsOutput

/-! `enqueue_frame`. The frame is assembled from its end: the payload behind a reserved front, masked in place, and the
header written into the front. Either one more buffer is queued that holds exactly the frame, or a refusal leaves
everything but the generator of the keys as it was. -/

namespace Lepton

/-- The free buffers of a pool after some calls, the latest first. -/
def freeAfter : List PoolCall → Finset Nat → Finset Nat
  | [], free => free
  | .acquired none :: earlier, free => freeAfter earlier free
  | .acquired (some id) :: earlier, free => (freeAfter earlier free).erase id
  | .released id :: earlier, free => insert id (freeAfter earlier free)

end Lepton

namespace Lepton.Ws

open Words Search

theorem Frame.length_encode {f : Frame} (hkey : f.key.length = 4) :
    f.encode.length = wsClientHeaderSize f.payload.length + f.payload.length := by
  rw [encode, List.length_append, length_wsEncodeClientHeader (Nat.le_refl _) hkey, length_maskBytes]

/-- A frame is taken apart as it was put together. -/
theorem Frame.parse_encode {f : Frame} (hsize : f.payload.length < 2 ^ 63) (hkey : f.key.length = 4)
    (hcontrol : f.opcode.isControl = true → f.fin = true ∧ f.payload.length ≤ 125) :
    wsParseHeader f.encode = .header (clientHeader f.opcode f.payload.length f.key f.fin) ∧
      maskBytes f.key 0 (f.encode.drop (wsClientHeaderSize f.payload.length)) = f.payload := by
  have hsound := clientHeader_sound hsize hcontrol hkey
  have himage : wsEncodeClientHeader (wsClientHeaderSize f.payload.length) f.opcode f.payload.length f.key f.fin =
      (clientHeader f.opcode f.payload.length f.key f.fin).image := wsEncodeClientHeader_eq_image (Nat.le_refl _)
  have hlen : (wsEncodeClientHeader (wsClientHeaderSize f.payload.length) f.opcode f.payload.length f.key f.fin).length =
      wsClientHeaderSize f.payload.length := length_wsEncodeClientHeader (Nat.le_refl _) hkey
  rw [encode]
  constructor
  · rw [himage]
    exact wsParseHeader_image hsound _
  · rw [List.drop_left' hlen, maskBytes_maskBytes]

namespace WsSession

variable {s : WsSession}

/-- **A frame is queued whole, or nothing changes.** -/
theorem enqueueFrame_spec (cb : Callbacks) (s : WsSession) (opcode : WsOpcode) (payload : List UInt8) (fin : Bool)
    (hcontrol : opcode.isControl = true → fin = true ∧ payload.length ≤ 125) :
    let hsize := wsClientHeaderSize payload.length
    let answer := enqueueFrame cb s opcode payload fin
    (answer.1 = .tooLarge ↔ s.env.acquires.head? ≠ some none ∧ s.cfg.cap < payload.length + hsize) ∧
      (answer.1 = .ok → ∃ b ready, answer.2 = flushPending cb ready ∧
        ready.pending.toList = s.pending.toList ++ [{ buf := b, sent := 0 }] ∧
        ready.state = s.state ∧ ready.output = s.output ∧
        b.len = hsize + payload.length ∧ b.bytes.length = hsize + payload.length ∧
        ∃ hdr, wsParseHeader b.bytes = .header hdr ∧ hdr.fin = fin ∧ hdr.opcode = opcode ∧ hdr.masked = true ∧
          hdr.payloadLen = payload.length ∧ hdr.headerSize = hsize ∧
          maskBytes hdr.maskKey 0 (b.bytes.drop hdr.headerSize) = payload) ∧
      (answer.1 ≠ .ok → answer.2.pending = s.pending ∧ answer.2.state = s.state ∧ answer.2.output = s.output ∧
        ∃ gen calls, answer.2 = s.refused gen calls ∧
          ∀ free : Finset Nat, (∀ id, .acquired (some id) ∈ calls → id ∈ free) → freeAfter calls free = free) := by
  have hgone (id : Nat) (free : Finset Nat)
      (h : ∀ id', .acquired (some id') ∈ [PoolCall.released id, .acquired (some id)] → id' ∈ free) :
      freeAfter [.released id, .acquired (some id)] free = free :=
    Finset.insert_erase (h id (List.mem_cons_of_mem _ (List.mem_singleton_self _)))
  unfold enqueueFrame
  obtain ⟨hpool, hqueue⟩ | ⟨hpool, id, ⟨hlarge, hqueue⟩ | ⟨hroom, key, gen, ⟨-, hqueue⟩ | ⟨ring, hpush, hqueue⟩⟩⟩ :=
    s.queueFrame_outcome opcode payload fin
  · rw [hqueue]
    refine ⟨⟨nofun, fun h => absurd hpool h.1⟩, nofun, fun _ => ⟨rfl, rfl, rfl, _, _, rfl, fun _ _ => rfl⟩⟩
  · rw [hqueue]
    exact ⟨⟨fun _ => ⟨hpool, hlarge⟩, fun _ => rfl⟩, nofun, fun _ => ⟨rfl, rfl, rfl, _, _, rfl, hgone id⟩⟩
  · rw [hqueue]
    exact ⟨⟨nofun, fun h => absurd h.2 (Nat.not_lt.mpr hroom)⟩, nofun, fun _ => ⟨rfl, rfl, rfl, _, _, rfl, hgone id⟩⟩
  · rw [hqueue]
    refine ⟨⟨nofun, fun h => absurd h.2 (Nat.not_lt.mpr hroom)⟩, fun _ => ?_, fun h => absurd rfl h⟩
    have htail := tailroom_reserved s.cfg id payload.length
    obtain ⟨hfits, hbytes⟩ :=
      @bytes_frameBuffer id s.cfg.cap s.cfg.cap_lt s.cfg.cap_ge opcode payload key fin (by omega)
    have hlen := Frame.length_encode (f := { opcode, payload, key := keyBytes key, fin }) (length_keyBytes key)
    have hsize : payload.length < 2 ^ 63 := by
      have := s.cfg.cap_lt
      omega
    obtain ⟨hparse, hpayload⟩ :=
      Frame.parse_encode (f := { opcode, payload, key := keyBytes key, fin }) hsize (length_keyBytes key) hcontrol
    refine ⟨_, _, rfl, Ring.toList_push hpush, rfl, rfl, ?_, ?_, clientHeader opcode payload.length (keyBytes key) fin, ?_,
      rfl, rfl, rfl, rfl, rfl, ?_⟩
    · rw [← hfits.length_bytes, hbytes, hlen]
    · rw [hbytes, hlen]
    · rw [hbytes]
      exact hparse
    · rw [hbytes]
      exact hpayload

/-- An open session queues a text of two bytes in a buffer of 64. -/
theorem hi_enqueueFrame_spec :
    let s : WsSession := { cfg := { cap := 64, cap_ge := by decide, cap_lt := by decide }, state := .opened, maskGen := 1 }
    (enqueueFrame ⟨id, id⟩ s .text [104, 105] true).1 = .ok ∧
      ∃ b ready, (enqueueFrame ⟨id, id⟩ s .text [104, 105] true).2 = flushPending ⟨id, id⟩ ready ∧
        ready.pending.toList = [{ buf := b, sent := 0 }] ∧ b.len = 8 := by
  intro s
  have hstatus : (enqueueFrame ⟨id, id⟩ s .text [104, 105] true).1 = .ok := by decide
  obtain ⟨-, hok, -⟩ := enqueueFrame_spec ⟨id, id⟩ s .text [104, 105] true (by decide)
  obtain ⟨b, ready, hflush, hring, -, -, hlen, -⟩ := hok hstatus
  exact ⟨hstatus, b, ready, hflush, hring, hlen⟩

end WsSession

end Lepton.Ws

import Lepton.WsExact

/-! However the bytes of a server are cut into reads, the session delivers the messages that are complete. A read adds to
what the receive buffer holds, and what follows depends on the bytes that are there and not on where they were cut. -/

namespace Lepton.Ws

open Search Words

/-- A step of a connection that reads along the stream of its server. -/
structure Advances (cfg : Config) (block : List UInt8) (frames : List ServerFrame) (s s' : WsSession) : Prop where
  grows : Grows s s'
  exact : Calm s s' → s.input ++ readBetween s s' <+: block ++ encodeAll frames → Exact cfg block frames s →
    Exact cfg block frames s' ∧ s'.input = s.input ++ readBetween s s'

namespace Advances

variable {cfg : Config} {block : List UInt8} {frames : List ServerFrame} {s s' s'' : WsSession}

theorem trans (h : Advances cfg block frames s s') (h' : Advances cfg block frames s' s'') :
    Advances cfg block frames s s'' := by
  refine ⟨h.grows.trans h'.grows, fun hcalm hstream hs => ?_⟩
  have hreads := readBetween_trans h.grows h'.grows
  rw [hreads, ← List.append_assoc] at hstream
  obtain ⟨hmid, hinput⟩ := h.exact (hcalm.left h.grows h'.grows) ((List.prefix_append _ _).trans hstream) hs
  rw [← hinput] at hstream
  obtain ⟨hend, hinput'⟩ := h'.exact (hcalm.right h.grows h'.grows) hstream hmid
  refine ⟨hend, ?_⟩
  rw [hinput', hinput, hreads, List.append_assoc]

theorem of_stays (h : Stays s s') : Advances cfg block frames s s' := by
  refine ⟨h.grows, fun hcalm _ hs => ?_⟩
  have hkept := h.kept hcalm hs.receiving
  refine ⟨hs.of_kept hkept, ?_⟩
  rw [hkept.silent, List.append_nil]
  exact hkept.input

theorem of_state (hg : Grows s s') (h : ¬ s.state.Receiving) : Advances cfg block frames s s' :=
  ⟨hg, fun _ _ hs => absurd hs.receiving h⟩

end Advances

namespace WsSession

variable {cb : Callbacks} {s : WsSession}

/-- A read that is pushed back leaves the session as it is. -/
theorem kept_heard (s : WsSession) (reads : List ReadResult) : Kept s (s.heard .again reads s.input) :=
  { Kept.refl s with silent := readBetween_cons (c := .read s.recv.tailroom .again) rfl }

/-- What a read that brings `bytes` leaves. -/
theorem grows_arrival {s s₁ : WsSession} {reads : List ReadResult} {bytes : List UInt8}
    (hs₁ : s₁ = (s.heard (.data bytes) reads (s.input ++ bytes)).appendRecv bytes) :
    Grows s s₁ ∧ readBetween s s₁ = bytes ∧ s₁.input = s.input ++ bytes := by
  subst hs₁
  exact ⟨{ Grows.refl s with wire := List.suffix_cons _ _ }, readBetween_cons (c := .read s.recv.tailroom (.data bytes)) rfl, rfl⟩

/-- A call that ends the connection is in the history. -/
theorem disturbed {s₁ s' : WsSession} {c : StreamCall} (hwire : s₁.wire = c :: s.wire) (hg : Grows s₁ s')
    (hc : c.Failing ∨ c.AtEnd) (hcalm : Calm s s') : False := by
  have hmem : c ∈ since s.wire s'.wire := mem_since List.suffix_rfl (hwire ▸ hg.wire)
  rcases hc with hc | hc
  · exact (hcalm.wire c hmem).1 hc
  · exact (hcalm.wire c hmem).2 hc

section Read

variable {cfg : Config} {block : List UInt8} {frames : List ServerFrame}

/-- The buffer of an open connection is not full. -/
theorem room_frames (hoffer : Offer cfg block frames) {past rest : List ServerFrame} (hframes : frames = past ++ rest)
    (h : Parsing cfg block past s) (hfront : s.recv.head = 0)
    (htail : ∀ f ∈ rest.head?, s.recv.bytes.length < f.encode.length) (hstream : s.input <+: block ++ encodeAll frames) :
    s.recv.tailroom ≠ 0 := by
  rw [h.fits.tailroom_eq, hfront, h.cap]
  have hlength := h.fits.length_bytes
  cases rest with
  | nil =>
    have hnone : s.recv.bytes <+: [] := by
      rw [h.input, hframes, List.append_nil] at hstream
      rw [← List.append_nil (block ++ encodeAll past)] at hstream
      exact (List.prefix_append_right_inj _).mp (by simpa using hstream)
    rw [List.prefix_nil.mp hnone] at hlength
    have hcap := cfg.cap_ge
    rw [← hlength, List.length_nil]
    omega
  | cons f rest =>
    have hlen := htail f rfl
    have hfit := hoffer.framesFit f (hframes ▸ List.mem_append_right _ List.mem_cons_self)
    omega

theorem advances_driveFrameRead (hcb : Keeping Stays cb) (hidles : Keeping Idles cb) (hoffer : Offer cfg block frames)
    (s : WsSession) (hs : s.state ≠ .upgrading) : Advances cfg block frames s (driveFrameRead cb s) := by
  refine ⟨everywhere_grows.driveFrameRead hcb.grows s, fun hcalm hstream hexact => ?_⟩
  cases hexact with
  | waiting h _ => exact absurd h.state hs
  | @opened past rest hframes h hfront htail =>
    have hroom := room_frames hoffer hframes h hfront htail ((List.prefix_append _ _).trans hstream)
    obtain ⟨r, s₁, hread⟩ : ∃ r s₁, s.readFrames = (r, s₁) := ⟨_, _, rfl⟩
    rw [driveFrameRead, hread] at hcalm hstream ⊢
    rcases readFrames_cases hread with ⟨hfull, -⟩ | ⟨reads, ⟨rfl, hs₁⟩ | ⟨rfl, hs₁⟩ | ⟨rfl, hs₁⟩ | ⟨bytes, -, hlen, rfl, hs₁⟩⟩
    · exact absurd hfull hroom
    · have hkept : Kept s s₁ := hs₁ ▸ s.kept_heard reads
      refine ⟨.of_kept (.opened hframes h hfront htail) hkept, ?_⟩
      dsimp only
      rw [hkept.silent, List.append_nil]
      exact hkept.input
    · have hwire : s₁.wire = .read s.recv.tailroom .error :: s.wire := by rw [hs₁, heard]
      have hend := keeps_teardown takes_grows.toBlocks hcb.grows s₁ not_live_failed
      exact (disturbed hwire hend (Or.inl rfl) hcalm).elim
    · have hwire : s₁.wire = .read s.recv.tailroom (.data []) :: s.wire := by rw [hs₁, heard]
      have hend := keeps_teardown takes_grows.toBlocks hcb.grows s₁ not_live_disconnected
      exact (disturbed hwire hend (Or.inr rfl) hcalm).elim
    · dsimp only at hcalm hstream ⊢
      obtain ⟨hfits, hbytes⟩ := h.fits.append hlen
      obtain ⟨hgot, hreads, hinput⟩ := grows_arrival hs₁
      have hparse := everywhere_grows.parseFrames hcb.grows s₁
      rw [readBetween_trans hgot hparse, hreads, ← List.append_assoc] at hstream
      have harrived : s.recv.bytes ++ bytes <+: encodeAll rest := by
        have hprefix := (List.prefix_append _ _).trans hstream
        rw [h.input, hframes, encodeAll_append, ← List.append_assoc, List.append_assoc] at hprefix
        exact (List.prefix_append_right_inj _).mp hprefix
      have hparsing : Parsing cfg block past s₁ := by
        rw [hs₁]
        refine ⟨h.config, h.state, hfits, h.cap, ?_, h.view, ⟨h.frag.fits, h.frag.empty⟩, h.roomy⟩
        change s.input ++ bytes = _ ++ (s.recv.append bytes).bytes
        rw [hbytes, ← List.append_assoc, ← h.input]
      have hbuffer : s₁.recv.bytes = s.recv.bytes ++ bytes := by
        rw [hs₁]
        exact hbytes
      obtain ⟨hexact, hinput', hsilent⟩ := exact_parseFrames hcb hidles hoffer hframes hparsing
        (hbuffer ▸ harrived) (hcalm.right hgot hparse)
      refine ⟨hexact, ?_⟩
      rw [readBetween_trans hgot hparse, hreads, hsilent, List.append_nil, hinput', hinput]

theorem judgeResponse_wait (hoffer : Offer cfg block frames) (h : Gathering cfg s)
    (hstream : s.input <+: block ++ encodeAll frames) (hshort : s.input.length < block.length) :
    s.judgeResponse = (.wait, s) := by
  have hpart : s.input <+: block := List.prefix_of_prefix_length_le hstream (List.prefix_append _ _) hshort.le
  have hincomplete := hoffer.upgrade.block.short hpart (fun heq => by rw [heq] at hshort; omega) cfg.expectedAccept
  unfold judgeResponse
  dsimp only
  rw [h.bytes, h.config, if_pos hincomplete]

/-- A block that is complete is taken out of the buffer. -/
theorem judgeResponse_accept {more : List UInt8} (hup : UpgradeBlock s.cfg.expectedAccept block) (hfits : s.recv.Fits)
    (hbytes : s.recv.bytes = block ++ more) :
    ∃ recv faults, s.judgeResponse = (.accept,
        { s with
          recv := recv, faults := faults
          log := .response s.input :: s.log
          marks := .consumed :: .opened :: s.marks
          reconnectDelayNs := 0 }) ∧
      recv.Fits ∧ recv.bytes = more ∧ recv.head = 0 ∧ recv.cap = s.recv.cap := by
  obtain ⟨hcomplete, hlen, haccepted⟩ := hup.long more
  have hin : block.length ≤ s.recv.len := by
    rw [← hfits.length_bytes, hbytes, List.length_append]
    exact Nat.le_add_right _ _
  obtain ⟨hfits', hdrop⟩ := hfits.consume hin
  rw [hbytes, List.drop_left] at hdrop
  obtain ⟨recv, faults, hcompact, hrecv, hleft, hfront, hcap⟩ :=
    compactRecv_front (s := ((s.note (.response s.input)).mark .opened).consumeRecv block.length) hfits'
  refine ⟨recv, faults, ?_, hrecv, hleft.trans hdrop, hfront, hcap⟩
  unfold judgeResponse
  dsimp only
  rw [hbytes, if_neg (by rw [hcomplete]; nofun)]
  have hgood : ((validateWsUpgrade (block ++ more) s.cfg.expectedAccept).accepted ||
      ((s.note (.response s.input)).cfg.expectedAccept = [] &&
        0 < (validateWsUpgrade (block ++ more) s.cfg.expectedAccept).headersLen)) = true := haccepted
  rw [if_neg (by rw [hgood]; nofun), hlen, hcompact]
  rfl

theorem grows_parseRest (hcb : Keeping Grows cb) (s : WsSession) : Grows s (parseRest cb s) := by
  unfold parseRest
  split
  · exact (everywhere_grows.note s _).trans (everywhere_grows.parseFrames hcb _)
  · exact Grows.refl s

/-- The session opens, and parses what came behind the block. -/
theorem exact_opens (hcb : Keeping Stays cb) (hidles : Keeping Idles cb) (hoffer : Offer cfg block frames)
    (hs : s.state ≠ .opened) (h : Parsing cfg block [] (s.enter .opened)) (hfront : (s.enter .opened).recv.head = 0)
    (hbytes : (s.enter .opened).recv.bytes <+: encodeAll frames)
    (hcalm : Calm (s.enter .opened) (parseRest cb (setState cb s .opened).armPing)) :
    let s' := parseRest cb (setState cb s .opened).armPing
    Exact cfg block frames s' ∧ s'.input = (s.enter .opened).input ∧ readBetween (s.enter .opened) s' = [] := by
  have hset : setState cb s .opened = cb.onState (s.enter .opened) := if_neg (Ne.symm hs)
  have hstays : Stays (s.enter .opened) (setState cb s .opened).armPing := by
    rw [hset]
    exact (hcb.onState _).trans (stays_armPing _)
  generalize (setState cb s .opened).armPing = s₂ at hcalm hstays ⊢
  have hrest := grows_parseRest hcb.grows s₂
  have hkept := hstays.kept (hcalm.left hstays.grows hrest) (Or.inr (s.enter_state .opened))
  have hparsing := h.of_kept hkept
  have hcalm' := hcalm.right hstays.grows hrest
  unfold parseRest at hcalm' hrest ⊢
  dsimp only
  by_cases hlen : 0 < s₂.recv.len
  · rw [if_pos hlen] at hcalm' hrest ⊢
    have hnote : Kept s₂ (s₂.note (.resumed s₂.state)) := { Kept.refl s₂ with }
    have hgrows : Grows s₂ (s₂.note (.resumed s₂.state)) := everywhere_grows.note s₂ _
    have hparse := everywhere_grows.parseFrames hcb.grows (s₂.note (.resumed s₂.state))
    have hhere : (s₂.note (.resumed s₂.state)).recv.bytes <+: encodeAll frames := by
      rw [hnote.recv, hkept.recv]
      exact hbytes
    obtain ⟨hexact, hinput, hsilent⟩ := exact_parseFrames hcb hidles hoffer (List.nil_append frames).symm
      (hparsing.of_kept hnote) hhere (hcalm'.right hgrows hparse)
    refine ⟨hexact, hinput.trans hkept.input, ?_⟩
    rw [readBetween_trans hstays.grows hrest, hkept.silent]
    exact hsilent
  · rw [if_neg hlen]
    have hnone : s₂.recv.bytes.length = 0 := by
      rw [hparsing.fits.length_bytes]
      omega
    refine ⟨.opened (List.nil_append frames).symm hparsing (hkept.recv ▸ hfront) fun f _ => ?_, hkept.input, hkept.silent⟩
    have htwo := two_le_encode f
    omega

/-- What follows from a verdict on the response. -/
def respond (cb : Callbacks) : Verdict × WsSession → WsSession
  | (.wait, s) => s
  | (.reject, s) => teardown cb s .failed
  | (.accept, s) => parseRest cb (setState cb s .opened).armPing

theorem driveUpgradeRead_eq (cb : Callbacks) (s : WsSession) : driveUpgradeRead cb s = respond cb s.readResponse := rfl

theorem grows_respond (hcb : Keeping Grows cb) (v : Verdict) (s : WsSession) : Grows s (respond cb (v, s)) := by
  cases v with
  | wait => exact Grows.refl s
  | reject => exact keeps_teardown takes_grows.toBlocks hcb s not_live_failed
  | accept =>
    have hopen := (everywhere_grows.setState hcb s .opened).trans (everywhere_grows.armPing _)
    exact hopen.trans (grows_parseRest hcb _)

theorem grows_judgeResponse (s : WsSession) : Grows s s.judgeResponse.2 := by
  obtain ⟨v, s', h⟩ : ∃ v s', s.judgeResponse = (v, s') := ⟨_, _, rfl⟩
  obtain ⟨recv, faults, log, hs, hlog⟩ := judgeResponse_snd h
  rw [h, hs]
  refine ⟨?_, ?_, List.suffix_rfl⟩
  · rcases hlog with rfl | rfl
    · exact List.suffix_rfl
    · exact List.suffix_cons _ _
  · dsimp only
    split
    · exact (List.suffix_cons _ _).trans (List.suffix_cons _ _)
    · exact List.suffix_rfl

/-- **The response is judged by what there is of it.** -/
theorem exact_judged (hcb : Keeping Stays cb) (hidles : Keeping Idles cb) (hoffer : Offer cfg block frames)
    (h : Gathering cfg s) (hstream : s.input <+: block ++ encodeAll frames)
    (hcalm : Calm s (respond cb s.judgeResponse)) :
    Exact cfg block frames (respond cb s.judgeResponse) ∧ (respond cb s.judgeResponse).input = s.input ∧
      readBetween s (respond cb s.judgeResponse) = [] := by
  by_cases hshort : s.input.length < block.length
  · rw [judgeResponse_wait hoffer h hstream hshort]
    exact ⟨.waiting h hshort, rfl, readBetween_same rfl⟩
  · obtain ⟨more, hmore⟩ : block <+: s.input :=
      List.prefix_of_prefix_length_le (List.prefix_append _ _) hstream (Nat.not_lt.mp hshort)
    have hafter : more <+: encodeAll frames := by
      rw [← hmore] at hstream
      exact (List.prefix_append_right_inj _).mp hstream
    obtain ⟨recv, faults, haccept, hfits, hbytes, hfront, hcap⟩ :=
      judgeResponse_accept (h.config ▸ hoffer.upgrade) h.fits (h.bytes.trans hmore.symm)
    have hjudge := s.grows_judgeResponse
    rw [haccept] at hjudge hcalm ⊢
    generalize hs₁ : ({ s with
      recv := recv, faults := faults, log := .response s.input :: s.log, marks := .consumed :: .opened :: s.marks
      reconnectDelayNs := 0 } : WsSession) = s₁ at hjudge hcalm ⊢
    have henter : Grows s (s₁.enter .opened) := hjudge.trans (everywhere_grows.enter s₁ .opened)
    have hsame : readBetween s (s₁.enter .opened) = [] := by
      obtain ⟨log, heq, -⟩ := s₁.enter_eq .opened
      rw [heq, ← hs₁]
      exact readBetween_same rfl
    have hopened : Parsing cfg block [] (s₁.enter .opened) ∧ (s₁.enter .opened).recv = recv ∧
        (s₁.enter .opened).input = s.input := by
      obtain ⟨log, heq, -⟩ := s₁.enter_eq .opened
      rw [heq, ← hs₁]
      refine ⟨⟨h.config, rfl, hfits, hcap.trans h.cap, ?_, ?_, ⟨h.frag.fits, h.frag.empty⟩, ?_⟩, rfl, rfl⟩
      · change s.input = block ++ [] ++ recv.bytes
        rw [List.append_nil, hbytes, hmore]
      · have hheld : s.held = none := if_pos h.noFrag
        change s.view = {}
        rw [view, h.messages, hheld]
        rfl
      · exact fun hbase => absurd h.noFrag hbase
    obtain ⟨hparsing, hrecv, hinput⟩ := hopened
    have hne : s₁.state ≠ .opened := by
      rw [← hs₁]
      intro hopen
      cases h.state.symm.trans hopen
    have hrest : Grows (s₁.enter .opened) (respond cb (.accept, s₁)) := by
      have hset : Grows (s₁.enter .opened) (setState cb s₁ .opened) :=
        keeps_setState everywhere_grows.above hcb.grows (Grows.refl _)
      exact hset.trans ((everywhere_grows.armPing _).trans (grows_parseRest hcb.grows _))
    obtain ⟨hexact, hinput', hsilent⟩ := exact_opens hcb hidles hoffer hne hparsing (hrecv ▸ hfront)
      (by rw [hrecv, hbytes]; exact hafter) (hcalm.right henter hrest)
    refine ⟨hexact, hinput'.trans hinput, ?_⟩
    rw [readBetween_trans henter hrest, hsame]
    exact hsilent

theorem advances_driveUpgradeRead (hcb : Keeping Stays cb) (hidles : Keeping Idles cb) (hoffer : Offer cfg block frames)
    (s : WsSession) (hs : s.state = .upgrading) : Advances cfg block frames s (driveUpgradeRead cb s) := by
  refine ⟨everywhere_grows.driveUpgradeRead hcb.grows s, fun hcalm hstream hexact => ?_⟩
  cases hexact with
  | opened _ h _ _ => exact absurd (h.state.symm.trans hs) nofun
  | waiting h hshort =>
    have hroom : s.recv.tailroom ≠ 0 := by
      have hlength := h.fits.length_bytes
      have hfit := hoffer.blockFits
      rw [h.bytes] at hlength
      rw [h.fits.tailroom_eq, h.front, h.cap]
      omega
    obtain ⟨v, s₁, hread⟩ : ∃ v s₁, s.readResponse = (v, s₁) := ⟨_, _, rfl⟩
    rw [driveUpgradeRead_eq, hread] at hcalm hstream ⊢
    rcases readResponse_turn hread with ⟨hfull, -⟩ | ⟨reads, ⟨rfl, hs₁⟩ | ⟨rfl, hs₁⟩ | ⟨rfl, hs₁⟩ | ⟨bytes, -, hlen, hjudge⟩⟩
    · exact absurd hfull hroom
    · have hkept : Kept s s₁ := hs₁ ▸ s.kept_heard reads
      refine ⟨.of_kept (.waiting h hshort) hkept, ?_⟩
      dsimp only [respond]
      rw [hkept.silent, List.append_nil]
      exact hkept.input
    · have hwire : s₁.wire = .read s.recv.tailroom .error :: s.wire := by rw [hs₁, heard]
      exact (disturbed hwire (grows_respond hcb.grows .reject s₁) (Or.inl rfl) hcalm).elim
    · have hwire : s₁.wire = .read s.recv.tailroom (.data []) :: s.wire := by rw [hs₁, heard]
      exact (disturbed hwire (grows_respond hcb.grows .reject s₁) (Or.inr rfl) hcalm).elim
    · obtain ⟨hfits, hbytes⟩ := h.fits.append hlen
      rw [h.bytes] at hbytes
      obtain ⟨s₂, hs₂⟩ : ∃ s₂, s₂ = (s.heard (.data bytes) reads (s.input ++ bytes)).appendRecv bytes := ⟨_, rfl⟩
      have hgather : Gathering cfg s₂ := by
        rw [hs₂]
        exact ⟨h.config, h.state, hfits, h.cap, h.front, hbytes, h.messages, h.noFrag, ⟨h.frag.fits, h.frag.empty⟩⟩
      obtain ⟨hgot, hreads, hinput⟩ := grows_arrival hs₂
      rw [← hs₂] at hjudge
      rw [← hjudge] at hcalm hstream ⊢
      have hanswer : Grows s₂ (respond cb s₂.judgeResponse) :=
        s₂.grows_judgeResponse.trans (grows_respond hcb.grows _ _)
      rw [readBetween_trans hgot hanswer, hreads, ← List.append_assoc, ← hinput] at hstream
      obtain ⟨hexact, hinput', hsilent⟩ := exact_judged hcb hidles hoffer hgather
        ((List.prefix_append _ _).trans hstream) (hcalm.right hgot hanswer)
      refine ⟨hexact, ?_⟩
      rw [readBetween_trans hgot hanswer, hreads, hsilent, List.append_nil, hinput', hinput]

theorem advances_onReady (hcb : Keeping Stays cb) (hidles : Keeping Idles cb) (hoffer : Offer cfg block frames)
    (s : WsSession) : Advances cfg block frames s (onReady cb s) := by
  unfold onReady
  refine (Advances.of_stays (stays_checkTimeouts hcb s)).trans ?_
  generalize checkTimeouts cb s = s₁
  dsimp only
  split
  · next hdown =>
    refine .of_state (everywhere_grows.maybeReconnect hcb.grows s₁) ?_
    rintro (hup | hopen)
    · rw [hup] at hdown
      exact absurd hdown (by decide)
    · rw [hopen] at hdown
      exact absurd hdown (by decide)
  · split
    · next hconn =>
      refine .of_state (everywhere_grows.polled hcb.grows s₁) ?_
      rintro (hup | hopen)
      · exact absurd (hconn.symm.trans hup) nofun
      · exact absurd (hconn.symm.trans hopen) nofun
    · refine (Advances.of_stays (keeps_flushPending flushes_stays hcb s₁)).trans ?_
      unfold drive
      split
      · next hup => exact advances_driveUpgradeRead hcb hidles hoffer _ hup
      · next hup =>
        split
        · exact (advances_driveFrameRead hcb hidles hoffer _ hup).trans (.of_stays (stays_checkKeepalive hcb _))
        · exact .of_stays (flushes_stays.refl _)

end Read

end WsSession

/-- The public calls that let a connection go on. -/
def Api.goesOn : Api → Bool
  | .act a => a.isSend
  | .onReady | .checkTimeouts => true

namespace WsSession

variable {cb : Callbacks} {cfg : Config} {block : List UInt8} {frames : List ServerFrame}

theorem advances_api (hcb : Keeping Stays cb) (hidles : Keeping Idles cb) (hoffer : Offer cfg block frames) (s : WsSession)
    {a : Api} (ha : a.goesOn = true) : Advances cfg block frames s (api cb s a) := by
  cases a with
  | act a => exact .of_stays (stays_send hcb s ha)
  | onReady => exact advances_onReady hcb hidles hoffer s
  | checkTimeouts => exact .of_stays (stays_checkTimeouts hcb s)

theorem advances_run (hcb : Keeping Stays cb) (hidles : Keeping Idles cb) (hoffer : Offer cfg block frames) (s : WsSession)
    (calls : List (Api × Env)) (hcalls : ∀ c ∈ calls, c.1.goesOn = true) :
    Advances cfg block frames s (runWith cb s calls) := by
  induction calls generalizing s with
  | nil => exact .of_stays (flushes_stays.refl s)
  | cons c rest ih =>
    have henv : Stays s { s with env := c.2 } := .of_kept { Grows.refl s with } { Kept.refl s with }
    have hcall := advances_api hcb hidles hoffer { s with env := c.2 } (hcalls c List.mem_cons_self)
    exact (Advances.of_stays henv).trans (hcall.trans (ih _ fun c hc => hcalls c (List.mem_cons_of_mem _ hc)))

/-- User code that only sends handles no frame. -/
theorem idles_callbacksOf (allowed : Act → Bool) (depth : Nat) : Keeping Idles (callbacksOf allowed depth) :=
  keeping_callbacksOf Idles.refl Idles.trans (fun _ _ => Idles.same rfl rfl rfl rfl rfl id)
    (fun _ hcb s a _ => idles_act hcb s a) depth

/-- A connection that has sent its upgrade request and read nothing, in any run. -/
theorem exact_startWith (hbegins : Keeping Begins cb) (hidles : Keeping Idles cb) (hbasic : Keeping Basic cb)
    (cfg : Config) (seed : UInt64) (autoReconnect : Bool) (calls : List (Api × Env)) (hoffer : Offer cfg block frames) :
    let s := runWith cb (fresh cfg seed autoReconnect) calls
    s.state = .upgrading → s.input = [] → Exact cfg block frames s := by
  intro s hup hinput
  have hready := ready_runWith hbegins hbasic cfg seed autoReconnect calls
  have hcfg : s.cfg = cfg := hready.config
  have hfresh : FragOk (fresh cfg seed autoReconnect) := ⟨IoBuffer.fits_empty, fun _ => rfl⟩
  have hfrag : FragOk s :=
    (@keeps_receive_runWith _ _ (fun _ => True) (fun _ _ => trivial) (fun _ _ => trivial) hidles hbasic hfresh trivial calls).1
  have hdawn := hready.early (Or.inr hup)
  obtain ⟨hfits, hfront, hbytes⟩ := hready.gathered hup
  obtain ⟨k, -, hend⟩ := hoffer.upgrade.block
  refine .waiting ⟨hcfg, hup, hfits, hcfg ▸ hdawn.cap, hfront, hbytes, hdawn.messages, hdawn.frag, hfrag⟩ ?_
  rw [hinput, List.length_nil]
  omega

theorem exact_start (cfg : Config) (seed : UInt64) (autoReconnect : Bool) (depth : Nat) (calls : List (Api × Env))
    (hoffer : Offer cfg block frames) :
    let s := run depth (fresh cfg seed autoReconnect) calls
    s.state = .upgrading → s.input = [] → Exact cfg block frames s :=
  exact_startWith (begins_callbacks depth) (idles_callbacks depth) (basic_callbacks depth) cfg seed autoReconnect calls
    hoffer

end WsSession

/-- The messages delivered on an open connection are those of the frames it has handled. -/
theorem Parsing.messages {cfg : Config} {block : List UInt8} {past : List ServerFrame} {s : WsSession}
    (h : Parsing cfg block past s) : s.messages = messagesOf past := by
  have hdone : s.messages.map (fun m => (m.opcode, m.payload)) = (assembled past).done := congrArg Assembly.done h.view
  rw [messagesOf, ← hdone, List.map_map]
  exact (List.map_id _).symm

/-- When everything has come, nothing is left of a next frame. -/
theorem rest_nil {block bytes : List UInt8} {past rest : List ServerFrame}
    (hall : block ++ encodeAll past ++ bytes = block ++ encodeAll (past ++ rest))
    (htail : ∀ f ∈ rest.head?, bytes.length < f.encode.length) : rest = [] ∧ bytes = [] := by
  have hbytes : bytes = encodeAll rest := by
    rw [encodeAll_append, ← List.append_assoc] at hall
    exact List.append_cancel_left hall
  cases rest with
  | nil => exact ⟨rfl, hbytes⟩
  | cons f rest =>
    have hlen := htail f rfl
    rw [hbytes, encodeAll_cons, List.length_append] at hlen
    omega

/-- **The receive path is exact, however the stream is cut.** Let a session, whatever has become of its earlier
connections, have sent its upgrade request and read nothing yet. From there let user code only send, and nothing
disturb the connection; the bytes it reads, in whatever reads, are the beginning of an accepting header block and frames
in order. Until the block is complete the session waits. From then on it is open, it has delivered the messages
of the frames that are complete, each once and in order, and its receive buffer holds what has come of the next
frame. -/
theorem received_exactly (cfg : Config) (seed : UInt64) (autoReconnect : Bool) (depth depth' : Nat)
    (life calls : List (Api × Env)) (block : List UInt8) (frames : List ServerFrame) (hoffer : Offer cfg block frames) :
    let s₀ := WsSession.run depth (fresh cfg seed autoReconnect) life
    let s := WsSession.runWith (WsSession.callbacksOf Act.isSend depth') s₀ calls
    let got := readBetween s₀ s
    s₀.state = .upgrading → s₀.input = [] → (∀ c ∈ calls, c.1.goesOn = true) → Calm s₀ s →
    got <+: block ++ encodeAll frames →
      (got.length < block.length → s.state = .upgrading ∧ s.messages = [] ∧ s.recv.bytes = got) ∧
      (block.length ≤ got.length → s.state = .opened ∧ ∃ past rest, frames = past ++ rest ∧
        s.messages = messagesOf past ∧ got = block ++ encodeAll past ++ s.recv.bytes ∧
        ∀ f ∈ rest.head?, s.recv.bytes.length < f.encode.length) ∧
      (got = block ++ encodeAll frames → s.messages = messagesOf frames ∧ s.recv.bytes = []) := by
  intro s₀ s got hup hinput hcalls hcalm hstream
  have hadvances : Advances cfg block frames s₀ s := WsSession.advances_run (WsSession.stays_callbacksOf depth')
    (WsSession.idles_callbacksOf Act.isSend depth') hoffer s₀ calls hcalls
  have hstart := WsSession.exact_start cfg seed autoReconnect depth life hoffer hup hinput
  have hread : s₀.input ++ got = got := by
    rw [hinput]
    rfl
  obtain ⟨hexact, hall⟩ := hadvances.exact hcalm (hread.symm ▸ hstream) hstart
  replace hall : s.input = got := hall.trans hread
  cases hexact with
  | waiting h hshort =>
    rw [hall] at hshort
    refine ⟨fun _ => ⟨h.state, h.messages, h.bytes.trans hall⟩, fun hlong => ?_, fun hwhole => ?_⟩
    · exact absurd hshort (Nat.not_lt.mpr hlong)
    · rw [hwhole, List.length_append] at hshort
      omega
  | @opened past rest hframes h hfront htail =>
    have hgot : got = block ++ encodeAll past ++ s.recv.bytes := hall.symm.trans h.input
    refine ⟨fun hshort => ?_, fun _ => ⟨h.state, past, rest, hframes, h.messages, hgot, htail⟩, fun hwhole => ?_⟩
    · rw [hgot, List.length_append, List.length_append] at hshort
      omega
    · obtain ⟨hnone, hbytes⟩ := rest_nil (hgot.symm.trans (hwhole.trans (congrArg (block ++ encodeAll ·) hframes))) htail
      rw [hnone, List.append_nil] at hframes
      exact ⟨hframes ▸ h.messages, hbytes⟩

/-- A header block that accepts the upgrade. -/
def acceptBlock : List UInt8 := Http.ascii "HTTP/1.1 101 Switching Protocols\r\n\r\n"

/-- A message in two fragments with a ping between them, and one in a frame with a long length. -/
def mixedFrames : List ServerFrame :=
  [⟨false, .text, [0x41]⟩, ⟨true, .ping, []⟩, ⟨true, .continuation, [0x42]⟩, ⟨true, .binary, List.replicate 130 7⟩]

/-- A connection that dies inside a fragmented message and inside a frame, and the upgrade request of the next. -/
def earlierLife : List (Api × Env) :=
  opening ++ [(.onReady, { reads := [.data [0x01, 0x01, 0x58, 0x80, 0x05, 0x59]] }), (.onReady, { reads := [.error] }),
    (.act .connect, { connects := [some 8] }), (.onReady, { opens := [.opened], writes := [.accepted 256] })]

/-- The block and the frames in four reads: cut inside the block, inside the first frame and inside a length. User code
answers the first message. -/
def cutCalls : List (Api × Env) :=
  let stream := acceptBlock ++ encodeAll mixedFrames
  [(.onReady, { reads := [.data (stream.take 20)] }),
    (.onReady, { reads := [.data ((stream.drop 20).take 18)] }),
    (.onReady, { reads := [.data ((stream.drop 38).take 10)], scripts := [[.send [0x4f] false]], writes := [.accepted 7] }),
    (.onReady, { reads := [.data (stream.drop 48)] })]

theorem mixedFrames_offered : Offer plainConfig acceptBlock mixedFrames where
  upgrade := ⟨by decide +kernel, by decide +kernel, by decide +kernel⟩
  valid f hf := by
    have hall : ∀ f ∈ mixedFrames, f.payload.length < 2 ^ 63 ∧
        (f.opcode.isControl = true → f.fin = true ∧ f.payload.length ≤ 125) ∧ f.opcode ≠ .close := by decide +kernel
    exact ⟨(hall f hf).1, (hall f hf).2.1, (hall f hf).2.2⟩
  ordered := by decide +kernel
  blockFits := by decide +kernel
  framesFit := by decide +kernel
  messagesFit := by decide +kernel
  restFits := by decide +kernel

theorem cut_received_exactly :
    let s₀ := WsSession.run 0 (fresh plainConfig 1 false) earlierLife
    let s := WsSession.runWith (WsSession.callbacksOf Act.isSend 1) s₀ cutCalls
    readBetween s₀ s = acceptBlock ++ encodeAll mixedFrames ∧ s.state = .opened ∧ s.messages = messagesOf mixedFrames ∧
      s.recv.bytes = [] := by
  have hgot : readBetween (WsSession.run 0 (fresh plainConfig 1 false) earlierLife)
      (WsSession.runWith (WsSession.callbacksOf Act.isSend 1) (WsSession.run 0 (fresh plainConfig 1 false) earlierLife)
        cutCalls) = acceptBlock ++ encodeAll mixedFrames := by decide +kernel
  obtain ⟨-, hopen, hall⟩ := received_exactly plainConfig 1 false 0 1 earlierLife cutCalls acceptBlock mixedFrames
    mixedFrames_offered (by decide +kernel) (by decide +kernel) (by decide +kernel)
    ⟨by decide +kernel, by decide +kernel, by decide +kernel⟩ (hgot ▸ List.prefix_rfl)
  have hlong : acceptBlock.length ≤ (acceptBlock ++ encodeAll mixedFrames).length := by decide +kernel
  exact ⟨hgot, (hopen (hgot.symm ▸ hlong)).1, hall hgot⟩

end Lepton.Ws

import Lepton.HttpBounds
import Lepton.HttpClient

/-! Rules for whole calls of the client. A preorder on clients that every step between two calls of the user's
code keeps is kept by every public call, given callbacks that keep a relation `R` of their own; and with the
preorder for `R` it is kept by callbacks of any depth. -/

namespace Lepton.Http

theorem not_live_failed : ¬ HttpState.failed.Live := by decide

namespace HttpClient

variable {s s' : HttpClient}

/-- Callbacks that keep a relation. -/
structure Keeping (R : HttpClient → HttpClient → Prop) (cb : Callbacks) : Prop where
  onResponse : ∀ s, R s (cb.onResponse s)
  onError : ∀ s, R s (cb.onError s)

/-- A preorder `Q` kept by every step of the client, with callbacks that keep `R`. -/
structure Steps (R Q : HttpClient → HttpClient → Prop) : Prop where
  refl : ∀ s, Q s s
  trans : ∀ {s s' s''}, Q s s' → Q s' s'' → Q s s''
  expired : ∀ {s s₁ s'}, s.deadlinePassed = (true, s₁) → R s₁.shutDown s' → Q s s'
  unexpired : ∀ {s s'}, s.deadlinePassed = (false, s') → Q s s'
  refused : ∀ {s s₁ s'}, s.tryDial = (false, s₁) → R s₁.shutDown s' → Q s s'
  dialed : ∀ {s s₁}, s.tryDial = (true, s₁) → Q s ({ s₁ with state := .connecting } : HttpClient).register
  submit : ∀ {s r text}, s.state = .idle → buildHttpRequest s.send.tailroom s.cfg.host r = some text →
    Q s ((s.asks r).submit text)
  blocked : ∀ {s s' n}, s.state = .sending → flushLoop n s = (.blocked, s') → Q s s'
  sent : ∀ {s s' n}, s.state = .sending → flushLoop n s = (.sent, s') → Q s s'
  unsent : ∀ {s s₁ s' n}, s.state = .sending → flushLoop n s = (.broken, s₁) → R s₁.shutDown s' → Q s s'
  stop : ∀ {s s'}, s.state = .receiving → s.recvTurn = (.stop, s') → Q s s'
  more : ∀ {s s'}, s.state = .receiving → s.recvTurn = (.more, s') → Q s s'
  broken : ∀ {s s₁ s'}, s.state = .receiving → s.recvTurn = (.broken, s₁) → R s₁.shutDown s' → Q s s'
  answered : ∀ {s s₁ s' r}, s.state = .receiving → s.recvTurn = (.complete r, s₁) → R (s₁.deliver r) s' →
    ¬ s'.state.Live → Q s s'
  rested : ∀ {s s₁ s' r}, s.state = .receiving → s.recvTurn = (.complete r, s₁) → R (s₁.deliver r) s' →
    s'.state.Live → Q s ((s'.note (.completed s'.state)).rest r.consumed)
  polled : ∀ {s s'}, s.transportPollOpen = (.connecting, s') → Q s s'
  unopened : ∀ {s s₁ s' ph}, s.state = .connecting → s.transportPollOpen = (ph, s₁) → ph = .failed ∨ ph = .closed →
    R s₁.shutDown s' → Q s s'
  opened : ∀ {s s'}, s.state = .connecting → s.transportPollOpen = (.opened, s') →
    Q s (({ s' with state := .idle } : HttpClient).arm false)
  close : ∀ s, Q s s.close

/-- A preorder `R` kept by the user's calls on a client that is not idle. -/
structure Aside (R : HttpClient → HttpClient → Prop) : Prop where
  refl : ∀ s, R s s
  trans : ∀ {s s' s''}, R s s' → R s' s'' → R s s''
  idle : ∀ {s s'}, s.state = .idle → R s s'
  refused : ∀ {s s₁ s'}, s.tryDial = (false, s₁) → R s₁.shutDown s' → R s s'
  dialed : ∀ {s s₁}, s.tryDial = (true, s₁) → R s ({ s₁ with state := .connecting } : HttpClient).register
  close : ∀ s, R s s.close

/-! What the steps leave alone. -/

theorem now_snd (s : HttpClient) : ∃ clocks, s.now.2 = { s with env := { s.env with clocks := clocks } } := ⟨_, rfl⟩

/-- A look at the deadlines, of which one passes only while it is awaited. -/
theorem deadlinePassed_eq {b : Bool} (h : s.deadlinePassed = (b, s')) :
    (∃ clocks, s' = { s with env := { s.env with clocks := clocks } }) ∧
      (b = true → s.state = .connecting ∨ s.state = .sending ∨ s.state = .receiving) := by
  obtain ⟨clocks, hclocks⟩ := s.now_snd
  unfold deadlinePassed at h
  split at h
  · next hs =>
    cases h
    exact ⟨⟨clocks, hclocks⟩, fun _ => Or.inl hs.1⟩
  · split at h
    · next hs =>
      cases h
      exact ⟨⟨clocks, hclocks⟩, fun _ => Or.inr hs.1⟩
    · cases h
      exact ⟨⟨s.env.clocks, rfl⟩, nofun⟩

theorem transportPollOpen_eq {ph : StreamPhase} (h : s.transportPollOpen = (ph, s')) :
    ∃ opens, s' = { s with env := { s.env with opens := opens }, wire := .pollOpen ph :: s.wire } := by
  unfold transportPollOpen at h
  split at h
  · cases h
    exact ⟨s.env.opens, rfl⟩
  · cases h
    exact ⟨_, rfl⟩

theorem transportWrite_eq {src : List UInt8} {r : WriteResult} (h : s.transportWrite src = (r, s')) :
    ∃ writes output sends, s' = { s with env := { s.env with writes := writes }, output := output, sends := sends,
                                         wire := .write src r :: s.wire } := by
  unfold transportWrite at h
  split at h
  · cases h
    exact ⟨s.env.writes, s.output, s.sends, rfl⟩
  · split at h
    · cases h
      exact ⟨_, _, _, rfl⟩
    · cases h
      exact ⟨_, _, _, rfl⟩

/-- A read brings bytes that fit, or nothing. -/
theorem transportRead_cases (s : HttpClient) (room : Nat) :
    ∃ reads, (∃ bytes, bytes.length ≤ room ∧ s.transportRead room
        = (.data bytes, { s with env := { s.env with reads := reads }, input := s.input ++ bytes,
                                 wire := .read room (.data bytes) :: s.wire })) ∨
      ∃ r, (r = .again ∨ r = .error) ∧ s.transportRead room
        = (r, { s with env := { s.env with reads := reads }, wire := .read room r :: s.wire }) := by
  unfold transportRead
  split
  · exact ⟨s.env.reads, Or.inr ⟨.again, Or.inl rfl, rfl⟩⟩
  · next r rest _ =>
    refine ⟨rest, ?_⟩
    cases r with
    | data bytes => exact Or.inl ⟨_, List.length_take_le _ _, rfl⟩
    | again => exact Or.inr ⟨.again, Or.inl rfl, rfl⟩
    | error => exact Or.inr ⟨.error, Or.inr rfl, rfl⟩

theorem arm_eq (s : HttpClient) (wants : Bool) :
    ∃ interest armed, s.arm wants = { s with interest := interest, writeArmed := armed } ∧
      ∀ fd, (interest fd).isSome = (s.interest fd).isSome := by
  unfold arm
  split
  · exact ⟨s.interest, s.writeArmed, rfl, fun _ => rfl⟩
  · refine ⟨_, _, rfl, fun fd => ?_⟩
    unfold notifyWriteInterest
    dsimp only
    split
    · rfl
    · exact s.interest.isSome_modify s.fd wants fd

theorem opened_eq (h : s.transportPollOpen = (.opened, s')) :
    ∃ opens interest armed, ({ s' with state := .idle } : HttpClient).arm false
        = { s with env := { s.env with opens := opens }, wire := .pollOpen .opened :: s.wire, state := .idle,
                   interest := interest, writeArmed := armed } ∧
      ∀ fd, (interest fd).isSome = (s.interest fd).isSome := by
  obtain ⟨opens, rfl⟩ := transportPollOpen_eq h
  obtain ⟨interest, armed, harm, hsome⟩ := arm_eq _ false
  exact ⟨opens, interest, armed, harm, hsome⟩

theorem armRequest_eq (s : HttpClient) :
    ∃ clocks t, s.armRequest = { s with env := { s.env with clocks := clocks }, requestDeadlineNs := t } := by
  obtain ⟨clocks, h⟩ := s.now_snd
  unfold armRequest
  dsimp only
  rw [h]
  split
  · exact ⟨clocks, _, rfl⟩
  · exact ⟨s.env.clocks, _, rfl⟩

/-- A request that is accepted, with its deadline. -/
theorem submit_eq (s : HttpClient) (text : List UInt8) :
    ∃ clocks t, s.submit text = { s.note (.requested s.recv.bytes) with
      env := { s.env with clocks := clocks }
      requestDeadlineNs := t
      send := s.send.append text
      faults := tally s.faults (text.length ≤ s.send.tailroom)
      sendOff := 0
      recv := s.recv.reset 0
      state := .sending
      requests := s.requests ++ [text]
      notices := .accepted :: s.notices } :=
  armRequest_eq _

theorem armConnect_eq (s : HttpClient) :
    ∃ clocks t, s.armConnect = { s with env := { s.env with clocks := clocks }, connectDeadlineNs := t } := by
  obtain ⟨clocks, h⟩ := s.now_snd
  unfold armConnect
  dsimp only
  rw [h]
  split
  · exact ⟨clocks, _, rfl⟩
  · exact ⟨s.env.clocks, _, rfl⟩

/-- A new buffer is empty, if there is one. -/
theorem acquire_eq (s : HttpClient) :
    ∃ acquires, s.acquire.2
        = { s with env := { s.env with acquires := acquires }, pool := .acquired s.acquire.1.base :: s.pool } ∧
      (s.acquire.1 = {} ∨ ∃ id, s.acquire.1 = .blank id s.cfg.cap 0) := by
  unfold acquire
  split
  · exact ⟨s.env.acquires, rfl, Or.inr ⟨0, rfl⟩⟩
  · exact ⟨_, rfl, Or.inl rfl⟩
  · exact ⟨_, rfl, Or.inr ⟨_, rfl⟩⟩

theorem fits_new {cfg : ClientConfig} {b : IoBuffer} (h : b = {} ∨ ∃ id, b = .blank id cfg.cap 0) : b.Fits := by
  obtain rfl | ⟨id, rfl⟩ := h
  · exact ⟨Nat.zero_le _, rfl, by decide⟩
  · exact IoBuffer.fits_blank (Nat.zero_le _) cfg.cap_lt

theorem takeBuffers_eq (s : HttpClient) :
    ∃ acquires send recv, s.takeBuffers.2
        = { s with env := { s.env with acquires := acquires }, send := send, recv := recv, pool := s.takeBuffers.2.pool } ∧
      (send.Fits ∧ recv.Fits) ∧
      (s.takeBuffers.1 = true → (∃ id, send = .blank id s.cfg.cap 0) ∧ ∃ id, recv = .blank id s.cfg.cap 0) := by
  obtain ⟨send, s₁, hfirst⟩ : ∃ send s₁, s.releaseBuffers.acquire = (send, s₁) := ⟨_, _, rfl⟩
  obtain ⟨acquires₁, heq₁, hsend⟩ := s.releaseBuffers.acquire_eq
  rw [hfirst] at heq₁ hsend
  dsimp only at hsend
  obtain ⟨recv, s₂, hsecond⟩ : ∃ recv s₂, ({ s₁ with send := send } : HttpClient).acquire = (recv, s₂) := ⟨_, _, rfl⟩
  obtain ⟨acquires₂, heq₂, hrecv⟩ := ({ s₁ with send := send } : HttpClient).acquire_eq
  rw [hsecond] at heq₂ hrecv
  dsimp only at hrecv
  change s₁ = _ at heq₁
  change s₂ = _ at heq₂
  unfold takeBuffers
  rw [hfirst]
  dsimp only
  rw [hsecond]
  refine ⟨acquires₂, send, recv, ?_, ⟨fits_new hsend, ?_⟩, fun hboth => ?_⟩
  · rw [heq₂, heq₁]
    rfl
  · rw [heq₁] at hrecv
    exact fits_new hrecv
  · rw [Bool.and_eq_true] at hboth
    rw [heq₁] at hrecv
    refine ⟨hsend.resolve_left fun h => ?_, hrecv.resolve_left fun h => ?_⟩
    · exact absurd hboth.1 (h ▸ nofun)
    · exact absurd hboth.2 (h ▸ nofun)

/-- A connect that fails leaves the connection of before, or none. -/
theorem tryDial_false (h : s.tryDial = (false, s')) :
    ∃ env send recv deadline armed fd linked wire interest pool, s'
      = { s with env := env, send := send, recv := recv, connectDeadlineNs := deadline, writeArmed := armed,
                 fd := fd, linked := linked, wire := wire, interest := interest, notices := .dial s.state :: s.notices,
                 pool := pool } ∧
        (send.Fits ∧ recv.Fits) ∧ (wire = s.wire ∨ wire = .connect false :: s.wire) := by
  obtain ⟨ok, s₁, hbuffers⟩ :
      ∃ ok s₁, ({ s with notices := .dial s.state :: s.notices } : HttpClient).takeBuffers = (ok, s₁) := ⟨_, _, rfl⟩
  obtain ⟨acquires, send, recv, heq, hfits, -⟩ := takeBuffers_eq { s with notices := .dial s.state :: s.notices }
  rw [hbuffers] at heq
  change s₁ = _ at heq
  unfold tryDial at h
  rw [hbuffers] at h
  cases ok with
  | false =>
    cases h
    rw [heq]
    exact ⟨_, send, recv, s.connectDeadlineNs, s.writeArmed, s.fd, s.linked, s.wire, s.interest, _, rfl, hfits, Or.inl rfl⟩
  | true =>
    obtain ⟨clocks, t, harm⟩ := s₁.armConnect_eq
    dsimp only at h
    rw [harm, heq] at h
    unfold transportConnect at h
    dsimp only at h
    split at h
    · cases h
    · cases h
      exact ⟨_, _, _, _, _, _, _, _, _, _, rfl, hfits, Or.inr rfl⟩

/-- A connect that succeeds starts a new connection over empty buffers. -/
theorem tryDial_true (h : s.tryDial = (true, s')) :
    ∃ env send recv deadline fd pool, s'
      = { s with env := env, send := .blank send s.cfg.cap 0, recv := .blank recv s.cfg.cap 0,
                 connectDeadlineNs := deadline, writeArmed := true, fd := some fd, linked := true,
                 asked := [], requests := [], responses := [], output := [], sends := [], input := [],
                 wire := .connect true :: s.wire,
                 interest := s.interest.close s.fd, log := .dialed s.registered :: s.log,
                 notices := .dial s.state :: s.notices, pool := pool } := by
  obtain ⟨ok, s₁, hbuffers⟩ :
      ∃ ok s₁, ({ s with notices := .dial s.state :: s.notices } : HttpClient).takeBuffers = (ok, s₁) := ⟨_, _, rfl⟩
  obtain ⟨acquires, send, recv, heq, -, hblank⟩ := takeBuffers_eq { s with notices := .dial s.state :: s.notices }
  rw [hbuffers] at heq hblank
  change s₁ = _ at heq
  unfold tryDial at h
  rw [hbuffers] at h
  cases ok with
  | false => cases h
  | true =>
    obtain ⟨⟨sendId, rfl⟩, ⟨recvId, rfl⟩⟩ := hblank rfl
    obtain ⟨clocks, t, harm⟩ := s₁.armConnect_eq
    dsimp only at h
    rw [harm, heq] at h
    unfold transportConnect at h
    dsimp only at h
    split at h
    · cases h
      exact ⟨_, sendId, recvId, _, _, _, rfl⟩
    · cases h

theorem register_cases (s : HttpClient) :
    (s.registered = true ∧ s.register = s) ∨
      ∃ ok adds interest, s.register = { s with env := { s.env with adds := adds }, registered := ok,
                                                interest := interest, log := .added ok :: s.log } ∧
        (ok = true → s.cfg.busyPoll = false → ∃ fd, s.fd = some fd ∧ (interest fd).isSome) := by
  unfold register
  split
  · next h => exact Or.inl ⟨h, rfl⟩
  · right
    unfold loopAdd
    split
    · next hbusy => exact ⟨true, s.env.adds, s.interest, rfl, fun _ h => absurd (hbusy.symm.trans h) nofun⟩
    · split
      · exact ⟨false, s.env.adds, s.interest, rfl, nofun⟩
      · exact ⟨false, _, s.interest, rfl, nofun⟩
      · next fd hfd _ =>
        refine ⟨true, _, _, rfl, fun _ _ => ⟨fd, hfd, ?_⟩⟩
        rw [Interest.add, Function.update_self]
        rfl

/-- What the sending loop changes. The state changes only at its end. -/
theorem flushLoop_eq {n : Nat} {how : Sending} (h : flushLoop n s = (how, s')) :
    ∃ writes output sends wire sendOff interest armed, s'
        = { s with env := { s.env with writes := writes }, output := output, sends := sends, wire := wire, sendOff := sendOff,
                   interest := interest, writeArmed := armed, state := if how = .sent then .receiving else s.state } ∧
      (∃ new, wire = new ++ s.wire ∧ ∀ c ∈ new, ∃ src r, c = .write src r) ∧
      ∀ fd, (interest fd).isSome = (s.interest fd).isSome := by
  induction n generalizing s with
  | zero =>
    cases h
    exact ⟨_, _, _, s'.wire, _, s'.interest, _, rfl, ⟨[], rfl, nofun⟩, fun _ => rfl⟩
  | succ n ih =>
    have hone (src : List UInt8) (r : WriteResult) :
        ∃ new, .write src r :: s.wire = new ++ s.wire ∧ ∀ c ∈ new, ∃ src r, c = .write src r :=
      ⟨[.write src r], rfl, fun c hc => ⟨src, r, List.mem_singleton.mp hc⟩⟩
    rw [flushLoop] at h
    split at h
    · split at h
      · next s₁ hwrite =>
        obtain ⟨writes, output, sends, rfl⟩ := transportWrite_eq hwrite
        obtain ⟨interest, armed, harm, hsome⟩ := arm_eq _ true
        rw [harm] at h
        cases h
        exact ⟨_, _, _, _, _, interest, _, rfl, hone _ _, hsome⟩
      · next s₁ hwrite =>
        obtain ⟨writes, output, sends, rfl⟩ := transportWrite_eq hwrite
        cases h
        exact ⟨_, _, _, _, _, _, _, rfl, hone _ _, fun _ => rfl⟩
      · next k s₁ hwrite =>
        obtain ⟨writes, output, sends, rfl⟩ := transportWrite_eq hwrite
        obtain ⟨writes', output', sends', wire, sendOff, interest, armed, rfl, ⟨new, hwire, hnew⟩, hsome⟩ := ih h
        refine ⟨writes', output', sends', wire, sendOff, interest, armed, rfl,
          ⟨new ++ [.write (s.send.bytes.drop s.sendOff) (.accepted k)], ?_, fun c hc => ?_⟩, hsome⟩
        · rw [hwire, List.append_assoc]
          rfl
        · rcases List.mem_append.mp hc with hc | hc
          · exact hnew c hc
          · exact ⟨_, _, List.mem_singleton.mp hc⟩
    · obtain ⟨interest, armed, harm, hsome⟩ := ({ s with state := .receiving } : HttpClient).arm_eq false
      rw [harm] at h
      cases h
      exact ⟨_, _, _, s.wire, _, interest, _, rfl, ⟨[], rfl, nofun⟩, hsome⟩

theorem parse_snd (s : HttpClient) : ∃ recv lost, s.parse.2 = { s with recv := recv, lost := lost } := by
  unfold parse
  split
  · exact ⟨_, s.lost, rfl⟩
  · exact ⟨s.recv, true, rfl⟩
  · exact ⟨s.recv, true, rfl⟩

theorem recvParse_snd (s : HttpClient) (eof : Bool) : (s.recvParse eof).2 = s.parse.2 := by
  unfold recvParse
  split
  · next h => rw [h]
  · next h => rw [h]
  · next h => rw [h]

/-- What a turn of the receiving loop changes. -/
theorem recvTurn_eq {t : RecvTurn} (h : s.recvTurn = (t, s')) :
    ∃ reads input wire recv faults lost, s'
        = { s with env := { s.env with reads := reads }, input := input, wire := wire, recv := recv,
                   faults := faults, lost := lost } ∧
      (wire = s.wire ∨ ∃ room r, wire = .read room r :: s.wire) := by
  have hsnd : s' = s.recvTurn.2 := by rw [h]
  rw [hsnd, recvTurn]
  split
  · exact ⟨s.env.reads, s.input, s.wire, s.recv, s.faults, s.lost, rfl, Or.inl rfl⟩
  · obtain ⟨reads, ⟨bytes, -, hread⟩ | ⟨r, hr, hread⟩⟩ := s.transportRead_cases s.recv.tailroom
    · rw [hread]
      dsimp only
      split
      · rw [recvParse_snd]
        obtain ⟨recv, lost, hparse⟩ := parse_snd { s with
          env := { s.env with reads := reads }, input := s.input ++ bytes,
          wire := .read s.recv.tailroom (.data bytes) :: s.wire }
        rw [hparse]
        exact ⟨reads, _, _, recv, s.faults, lost, rfl, Or.inr ⟨_, _, rfl⟩⟩
      · rw [recvParse_snd]
        obtain ⟨recv, lost, hparse⟩ := parse_snd (({ s with
          env := { s.env with reads := reads }, input := s.input ++ bytes,
          wire := .read s.recv.tailroom (.data bytes) :: s.wire } : HttpClient).appendRecv bytes)
        rw [hparse]
        exact ⟨reads, _, _, recv, _, lost, rfl, Or.inr ⟨_, _, rfl⟩⟩
    · rw [hread]
      rcases hr with rfl | rfl
      · exact ⟨reads, s.input, _, s.recv, s.faults, s.lost, rfl, Or.inr ⟨_, _, rfl⟩⟩
      · exact ⟨reads, s.input, _, s.recv, s.faults, s.lost, rfl, Or.inr ⟨_, _, rfl⟩⟩

theorem tally_of {faults : Nat} {p : Prop} [Decidable p] (h : p) : tally faults p = faults := if_pos h

/-- What the parser makes of the receive buffer: a complete response lies in it. -/
theorem fits_parse (hfits : s.recv.Fits) :
    s.parse.2.recv.Fits ∧ ∀ r, s.parse.1 = .complete r → r.consumed ≤ s.parse.2.recv.len := by
  have hlength := hfits.length_bytes
  have hinside := hfits.inside
  have hsmall := hfits.small
  have hsize : s.recv.bytes.length < 2 ^ 63 := by omega
  have hparsed := parseHttpResponse_inBuffer (s.recv.bytes.length + 1) hsize
  unfold parse
  split
  · next r buf hparse =>
    rw [hparse] at hparsed
    obtain ⟨hbuf, hconsumed⟩ := hparsed
    refine ⟨(hfits.rewrite (f := fun _ => buf) hbuf).1, fun r' hr' => ?_⟩
    dsimp only at hr'
    split at hr'
    · next hcomplete =>
      cases hr'
      exact hlength ▸ hconsumed hcomplete
    · cases hr'
  · exact ⟨hfits, nofun⟩
  · exact ⟨hfits, nofun⟩

theorem fits_recvParse (hfits : s.recv.Fits) (eof : Bool) :
    (s.recvParse eof).2.recv.Fits ∧
      ∀ r, (s.recvParse eof).1 = .complete r → r.consumed ≤ (s.recvParse eof).2.recv.len := by
  have hparse := fits_parse hfits
  unfold recvParse
  split
  · next h =>
    rw [h] at hparse
    refine ⟨hparse.1, fun r hr => ?_⟩
    dsimp only at hr
    split at hr
    · cases hr
    · cases hr
  · next h =>
    rw [h] at hparse
    exact ⟨hparse.1, nofun⟩
  · next h =>
    rw [h] at hparse
    refine ⟨hparse.1, fun r hr => ?_⟩
    cases hr
    exact hparse.2 _ rfl

/-- A turn of the receiving loop keeps the receive buffer well formed, and a complete response lies in it. -/
theorem fits_recvTurn {t : RecvTurn} (h : s.recvTurn = (t, s')) (hfits : s.recv.Fits) :
    s'.recv.Fits ∧ s'.faults = s.faults ∧ ∀ r, t = .complete r → r.consumed ≤ s'.recv.len := by
  suffices hall : s.recvTurn.2.recv.Fits ∧ s.recvTurn.2.faults = s.faults ∧
      ∀ r, s.recvTurn.1 = .complete r → r.consumed ≤ s.recvTurn.2.recv.len by
    rwa [h] at hall
  clear h
  have hparsed {s₁ : HttpClient} (eof : Bool) (hfits₁ : s₁.recv.Fits) (hfaults : s₁.faults = s.faults) :
      (s₁.recvParse eof).2.recv.Fits ∧ (s₁.recvParse eof).2.faults = s.faults ∧
        ∀ r, (s₁.recvParse eof).1 = .complete r → r.consumed ≤ (s₁.recvParse eof).2.recv.len := by
    refine ⟨(fits_recvParse hfits₁ eof).1, ?_, (fits_recvParse hfits₁ eof).2⟩
    obtain ⟨recv, lost, hparse⟩ := s₁.parse_snd
    rw [recvParse_snd, hparse]
    exact hfaults
  unfold recvTurn
  split
  · exact ⟨hfits, rfl, nofun⟩
  · obtain ⟨reads, ⟨bytes, hroom, hread⟩ | ⟨r, hr, hread⟩⟩ := s.transportRead_cases s.recv.tailroom
    · rw [hread]
      dsimp only
      split
      · exact hparsed true hfits rfl
      · exact hparsed false (hfits.append hroom).1 (tally_of hroom)
    · rw [hread]
      rcases hr with rfl | rfl
      · exact ⟨hfits, rfl, nofun⟩
      · exact ⟨hfits, rfl, nofun⟩

theorem compactRecv_eq (h : s.compactRecv = some s') :
    ∃ recv, s' = { s with recv := recv } ∧ recv.base = s.recv.base ∧ (s.recv.Backed → recv.Backed) := by
  unfold compactRecv at h
  split at h
  · cases h
    exact ⟨_, rfl, rfl, fun hbacked => ⟨hbacked.size, hbacked.small⟩⟩
  · split at h
    · cases h
      exact ⟨s.recv, rfl, rfl, id⟩
    · split at h
      · cases h
        exact ⟨_, rfl, rfl, IoBuffer.Backed.moveToFront⟩
      · cases h

/-- The client is ready for the next request, or the process has ended. -/
theorem rest_cases (s : HttpClient) (n : Nat) :
    (∃ recv faults, s.rest n
        = { s with recv := recv, faults := faults, send := s.send.reset 0, sendOff := 0, state := .idle } ∧
        recv.base = s.recv.base ∧ (s.recv.Backed → recv.Backed)) ∨
      ∃ faults, s.rest n = { s with faults := faults, lost := true } := by
  unfold rest
  dsimp only
  split
  · next s₁ h =>
    obtain ⟨recv, rfl, hbase, hbacked⟩ := compactRecv_eq h
    exact Or.inl ⟨recv, _, rfl, hbase, fun hs => hbacked (hs.consume n)⟩
  · exact Or.inr ⟨_, rfl⟩

theorem rest_kept (s : HttpClient) (n : Nat) : (s.rest n).log = s.log ∧ (s.rest n).input = s.input := by
  rcases s.rest_cases n with ⟨recv, faults, heq, -⟩ | ⟨faults, heq⟩
  · rw [heq]
    exact ⟨rfl, rfl⟩
  · rw [heq]
    exact ⟨rfl, rfl⟩

/-- A response that lies in the buffer is dropped without a fault. -/
theorem rest_eq {n : Nat} (hfits : s.recv.Fits) (hn : n ≤ s.recv.len) :
    ∃ recv : IoBuffer, recv.Fits ∧ recv.bytes = s.recv.bytes.drop n ∧ s.rest n
      = { s with recv := recv, send := s.send.reset 0, sendOff := 0, state := .idle } := by
  obtain ⟨hfits', hbytes'⟩ := hfits.consume hn
  have hin : 0 + (s.recv.consume n).len ≤ s.recv.cap := by
    have := hfits'.inside
    change (s.recv.consume n).head + _ ≤ s.recv.cap at this
    omega
  have hroom : (s.recv.consume n).len ≤ ((s.recv.consume n).reset 0).tailroom := by
    rw [(IoBuffer.Backed.reset ⟨hfits'.backed, hfits'.small⟩).tailroom_eq]
    change _ ≤ s.recv.cap - 0 - 0
    omega
  unfold rest compactRecv
  dsimp only
  rw [tally_of hn, if_pos hroom]
  by_cases hlen : (s.recv.consume n).len = 0
  · rw [if_pos hlen]
    refine ⟨(s.recv.consume n).reset 0, IoBuffer.Backed.reset ⟨hfits'.backed, hfits'.small⟩, ?_, rfl⟩
    refine (List.eq_nil_of_length_eq_zero ?_).symm
    rw [← hbytes', hfits'.length_bytes, hlen]
  · rw [if_neg hlen]
    by_cases hhead : (s.recv.consume n).head = 0
    · rw [if_pos hhead]
      exact ⟨_, hfits', hbytes', rfl⟩
    · rw [if_neg hhead]
      exact ⟨_, hfits'.moveToFront.1, hfits'.moveToFront.2.trans hbytes', rfl⟩

/-! The rules. -/

section Rules

variable {R Q : HttpClient → HttpClient → Prop} {cb : Callbacks}

theorem keeps_recvLoop (hQ : Steps R Q) (hcb : Keeping R cb) (fuel : Nat) (s : HttpClient) (hs : s.state = .receiving) :
    Q s (recvLoop cb fuel s) := by
  induction fuel generalizing s with
  | zero => exact hQ.refl s
  | succ fuel ih =>
    rw [recvLoop]
    split
    · next h => exact hQ.stop hs h
    · next h => exact hQ.broken hs h (hcb.onError _)
    · next r s₁ h =>
      have hcall := hcb.onResponse (s₁.deliver r)
      unfold complete
      dsimp only
      split
      · next hdead =>
        refine hQ.answered hs h hcall fun hlive => ?_
        exact hdead.elim hlive.2 hlive.1
      · next hlive => exact hQ.rested hs h hcall ⟨fun h => hlive (Or.inr h), fun h => hlive (Or.inl h)⟩
    · next s₁ h =>
      refine hQ.trans (hQ.more hs h) (ih s₁ ?_)
      obtain ⟨reads, input, wire, recv, faults, lost, rfl, -⟩ := recvTurn_eq h
      exact hs

theorem keeps_flushSend (hQ : Steps R Q) (hcb : Keeping R cb) (s : HttpClient) (hs : s.state = .sending) :
    Q s (flushSend cb s) := by
  unfold flushSend
  split
  · next h => exact hQ.blocked hs h
  · next h => exact hQ.unsent hs h (hcb.onError _)
  · next s₁ h =>
    refine hQ.trans (hQ.sent hs h) (keeps_recvLoop hQ hcb _ s₁ ?_)
    obtain ⟨_, _, _, _, _, _, _, rfl, -, -⟩ := flushLoop_eq h
    rfl

theorem state_submit (s : HttpClient) (text : List UInt8) : (s.submit text).state = .sending := by
  obtain ⟨clocks, t, h⟩ := s.submit_eq text
  rw [h]

theorem keeps_startConnect (hQ : Steps R Q) (hcb : Keeping R cb) (s : HttpClient) : Q s (startConnect cb s) := by
  unfold startConnect
  split
  · next h => exact hQ.refused h (hcb.onError _)
  · next h => exact hQ.dialed h

/-- A request is refused, or it is queued and flushed. -/
theorem act_request (cb : Callbacks) (s : HttpClient) (r : Request) :
    act cb s (.request r) = s ∨
      s.state = .idle ∧ ∃ text, buildHttpRequest s.send.tailroom s.cfg.host r = some text ∧
        act cb s (.request r) = flushSend cb ((s.asks r).submit text) := by
  unfold act
  by_cases hidle : s.state = .idle
  · cases hbuild : buildHttpRequest s.send.tailroom s.cfg.host r with
    | none => simp [request, hidle, hbuild]
    | some text =>
      refine Or.inr ⟨hidle, text, rfl, ?_⟩
      simp [request, asks, hidle, hbuild]
  -- `request` answers Busy or NotReady
  · have hrefused : (request cb s r).1 ≠ .ok ∧ (request cb s r).2 = s := by
      rw [request, if_pos hidle]
      refine ⟨?_, rfl⟩
      dsimp only
      split <;> nofun
    left
    change (request cb (if (request cb s r).1 = .ok then s.asks r else s) r).2 = s
    rw [if_neg hrefused.1, hrefused.2]

theorem keeps_act (hQ : Steps R Q) (hcb : Keeping R cb) (s : HttpClient) (a : Act) : Q s (act cb s a) := by
  cases a with
  | connect =>
    change Q s (connect cb s)
    unfold connect
    split
    · exact hQ.refl s
    · exact keeps_startConnect hQ hcb s
  | request r =>
    rcases act_request cb s r with h | ⟨hidle, text, hbuild, h⟩
    · rw [h]
      exact hQ.refl s
    · rw [h]
      exact hQ.trans (hQ.submit hidle hbuild) (keeps_flushSend hQ hcb _ ((s.asks r).state_submit text))
  | close => exact hQ.close s

theorem keeps_checkTimeouts (hQ : Steps R Q) (hcb : Keeping R cb) (s : HttpClient) : Q s (checkTimeouts cb s) := by
  unfold checkTimeouts
  split
  · next h => exact hQ.expired h (hcb.onError _)
  · next h => exact hQ.unexpired h

/-- A rule for what `on_ready` does after `check_timeouts`. -/
theorem keeps_checked (hQ : Steps R Q) (hcb : Keeping R cb) (s : HttpClient) : Q (checkTimeouts cb s) (onReady cb s) := by
  unfold onReady
  generalize checkTimeouts cb s = s
  dsimp only
  split
  · next hs =>
    split
    · next h => exact hQ.polled h
    · next h => exact hQ.opened hs h
    · next h => exact hQ.unopened hs h (Or.inl rfl) (hcb.onError _)
    · next h => exact hQ.unopened hs h (Or.inr rfl) (hcb.onError _)
  · next hs => exact keeps_flushSend hQ hcb s hs
  · next hs => exact keeps_recvLoop hQ hcb _ s hs
  · exact hQ.refl s

theorem keeps_onReady (hQ : Steps R Q) (hcb : Keeping R cb) (s : HttpClient) : Q s (onReady cb s) :=
  hQ.trans (keeps_checkTimeouts hQ hcb s) (keeps_checked hQ hcb s)

/-- A preorder that user calls keep, given callbacks that keep it, is kept by callbacks of any depth. -/
theorem keeping_of_act (hrefl : ∀ s, R s s) (htrans : ∀ {s s' s''}, R s s' → R s' s'' → R s s'')
    (hact : ∀ cb, Keeping R cb → ∀ s a, R s (act cb s a))
    (hpop : ∀ s scripts, R s { s with env := { s.env with scripts := scripts } }) (depth : Nat) :
    Keeping R (callbacks depth) := by
  induction depth with
  | zero => exact ⟨hrefl, hrefl⟩
  | succ depth ih =>
    have hfold (acts : List Act) (s : HttpClient) : R s (acts.foldl (act (callbacks depth)) s) := by
      induction acts generalizing s with
      | nil => exact hrefl s
      | cons a rest ihrest => exact htrans (hact _ ih s a) (ihrest _)
    have hscript (s : HttpClient) : R s (script (callbacks depth) s) := by
      unfold script
      split
      · exact hrefl s
      · exact htrans (hpop s _) (hfold ..)
    exact ⟨hscript, hscript⟩

/-- **The rule for callbacks.** What every user call keeps, given callbacks that keep it, callbacks of any depth
keep. -/
theorem keeping_callbacks (hR : Steps R R) (hpop : ∀ s scripts, R s { s with env := { s.env with scripts := scripts } })
    (depth : Nat) : Keeping R (callbacks depth) :=
  keeping_of_act hR.refl hR.trans (fun _ hcb => keeps_act hR hcb) hpop depth

/-- **The rule for callbacks in which no request is accepted.** The relation says nothing of an idle client, the only
one to accept a request. -/
theorem keeping_aside (hR : Aside R) (hpop : ∀ s scripts, R s { s with env := { s.env with scripts := scripts } })
    (depth : Nat) : Keeping R (callbacks depth) := by
  refine keeping_of_act hR.refl hR.trans (fun cb hcb s a => ?_) hpop depth
  cases a with
  | connect =>
    change R s (connect cb s)
    unfold connect
    split
    · exact hR.refl s
    · unfold startConnect
      split
      · next h => exact hR.refused h (hcb.onError _)
      · next h => exact hR.dialed h
  | request r =>
    rcases act_request cb s r with h | ⟨hidle, -⟩
    · rw [h]
      exact hR.refl s
    · exact hR.idle hidle
  | close => exact hR.close s

theorem keeps_api (hQ : Steps R Q) (hcb : Keeping R cb) (s : HttpClient) (a : Api) : Q s (api cb s a) := by
  cases a with
  | act a => exact keeps_act hQ hcb s a
  | onReady => exact keeps_onReady hQ hcb s
  | checkTimeouts => exact keeps_checkTimeouts hQ hcb s

/-- **The rule for runs.** -/
theorem keeps_run {depth : Nat} (hQ : Steps R Q) (hcb : Keeping R (callbacks depth))
    (henv : ∀ s env, Q s { s with env := env }) (s : HttpClient) (calls : List (Api × Env)) : Q s (run depth s calls) := by
  induction calls generalizing s with
  | nil => exact hQ.refl s
  | cons c rest ih => exact hQ.trans (hQ.trans (henv s c.2) (keeps_api hQ hcb _ c.1)) (ih _)

end Rules

end HttpClient

end Lepton.Http

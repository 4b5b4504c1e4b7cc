import Lepton.TlsStream

/-! The order of ciphertext through the output BIO. `pump_out` takes a chunk from the front of the BIO
and, when the socket is full, puts the unsent rest back at its end. The order survives when nothing
is queued behind the chunk; otherwise the rest of the chunk moves behind later ciphertext. Ciphertext
is lost when the BIO is freed before it is drained. -/

namespace Lepton.Tls

variable {s : TlsStream}

/-- A boundary event that ends the transport. -/
def Io.Fatal : Io → Prop
  | .send _ answer => answer = .error
  | .recv answer => answer = .error
  | _ => False

/-- The socket refuses a write only when nothing is queued behind the chunk, and OpenSSL is freed only
when the output BIO is drained. -/
def Io.Drained : Io → Prop
  | .send behind answer => answer = .again → behind = 0
  | .sslFree backlog => backlog = 0
  | _ => True

instance : DecidablePred Io.Fatal
  | .send _ answer => inferInstanceAs (Decidable (answer = .error))
  | .recv answer => inferInstanceAs (Decidable (answer = .error))
  | .sslNew | .ssl .. | .sslFree _ | .nullUse => isFalse id

instance : DecidablePred Io.Drained
  | .send behind answer => inferInstanceAs (Decidable (answer = .again → behind = 0))
  | .sslFree backlog => inferInstanceAs (Decidable (backlog = 0))
  | .recv _ | .sslNew | .ssl .. | .nullUse => isTrue trivial

/-- What the socket has accepted, followed by what is still in the output BIO, is what OpenSSL has
produced. -/
def InOrder (s : TlsStream) : Prop := s.accepted ++ s.queued = s.produced

/-- The order, with the fact that a stream still connecting has no output BIO. -/
structure Ordered (s : TlsStream) : Prop where
  inOrder : InOrder s
  fresh : s.phase = .connectingTcp → s.wbio = none

def Calm (s : TlsStream) : Prop := ∀ io ∈ s.log, io.Drained ∧ ¬ io.Fatal

/-- `s'` continues `s`: its log extends that of `s`, and the order survives a calm continuation. -/
structure Keeps (s s' : TlsStream) : Prop where
  log : s.log <:+ s'.log
  ordered : Calm s' → Ordered s → Ordered s'

theorem Keeps.refl (s : TlsStream) : Keeps s s := ⟨List.suffix_rfl, fun _ h => h⟩

theorem Calm.of_suffix {s' : TlsStream} (h : Calm s') (hlog : s.log <:+ s'.log) : Calm s :=
  fun io hio => h io (hlog.subset hio)

theorem Keeps.trans {s' s'' : TlsStream} (h : Keeps s s') (h' : Keeps s' s'') : Keeps s s'' :=
  ⟨h.log.trans h'.log, fun hcalm hs => h'.ordered hcalm (h.ordered (hcalm.of_suffix h'.log) hs)⟩

/-- A step that leaves the bytes, the BIO and the log alone. -/
theorem Keeps.quiet {s' : TlsStream} (hlog : s'.log = s.log) (haccepted : s'.accepted = s.accepted)
    (hwbio : s'.wbio = s.wbio) (hproduced : s'.produced = s.produced)
    (hphase : s'.phase = .connectingTcp → s.phase = .connectingTcp) : Keeps s s' := by
  refine ⟨hlog ▸ List.suffix_rfl, fun _ hs => ⟨?_, fun hp => ?_⟩⟩
  · have := hs.inOrder
    unfold InOrder TlsStream.queued at *
    rw [haccepted, hwbio, hproduced]
    exact this
  · rw [hwbio]
    exact hs.fresh (hphase hp)

namespace TlsStream

/-! ### What the calls are made of -/

/-- A relation that the parts of the calls keep. -/
structure Parts (R : TlsStream → TlsStream → Prop) : Prop where
  refl : ∀ s, R s s
  trans : ∀ {s s' s''}, R s s' → R s' s'' → R s s''
  quiet : ∀ {s s' : TlsStream}, s'.log = s.log → s'.accepted = s.accepted → s'.wbio = s.wbio →
    s'.produced = s.produced → (s'.phase = .connectingTcp → s.phase = .connectingTcp) → R s s'
  sslCall : ∀ s, R s s.sslCall.2
  sslFree : ∀ s, R s s.sslFree
  pumpOut : ∀ s, R s s.pumpOut.2
  pumpInLoop : ∀ answers readAny s, R s (pumpInLoop answers readAny s).2.2
  beginHandshake : ∀ s, s.phase = .connectingTcp → R s s.beginHandshake

namespace Parts

variable {R : TlsStream → TlsStream → Prop} (h : Parts R)

include h

theorem fail (s : TlsStream) : R s s.fail := h.trans (h.sslFree s) (h.quiet rfl rfl rfl rfl nofun)

theorem use (s : TlsStream) (present : Bool) : R s (s.use present) := h.quiet rfl rfl rfl rfl id

theorem pumpIn (s : TlsStream) : R s s.pumpIn.2.2 := h.trans (h.use s _) (h.pumpInLoop ..)

theorem pump (s : TlsStream) : R s s.pump.2 := by
  unfold TlsStream.pump
  dsimp only
  split
  · exact h.trans (h.pumpOut s) (h.pumpIn _)
  · exact h.pumpOut s

theorem handshakeLoop (fuel : Nat) (s : TlsStream) : R s (TlsStream.handshakeLoop fuel s).2 := by
  induction fuel generalizing s with
  | zero => exact h.refl s
  | succ fuel ih =>
    rw [TlsStream.handshakeLoop]
    have hcall := h.sslCall s
    dsimp only
    split
    · have hpump := h.trans hcall (h.pump _)
      split
      · exact h.trans hpump (h.quiet rfl rfl rfl rfl nofun)
      · exact hpump
    · have hin := h.trans hcall (h.pumpIn _)
      split
      · exact hin
      · have hout := h.trans hin (h.pumpOut _)
        split
        · exact hout
        · split
          · exact h.trans hout (ih _)
          · exact hout
    · have hout := h.trans hcall (h.pumpOut _)
      split
      · exact hout
      · exact h.trans hout (ih _)
    · exact h.trans hcall (h.fail _)

theorem pollOpen (s : TlsStream) : R s s.pollOpen.2 := by
  unfold TlsStream.pollOpen
  split
  · next hphase =>
    have hopens (env : Env) : R s { s with env := env } := h.quiet rfl rfl rfl rfl id
    have hbegin (env : Env) : R s { s with env := env }.beginHandshake.handshake.2 :=
      h.trans (hopens env) (h.trans (h.beginHandshake { s with env := env } hphase) (h.handshakeLoop _ _))
    dsimp only
    split
    · exact hopens _
    · exact hbegin _
    · exact h.trans (hopens _) (h.fail _)
  · exact h.handshakeLoop _ s
  · exact h.refl s
  · exact h.refl s
  · exact h.refl s

theorem readPump (s : TlsStream) : R s s.readPump.2 := by
  unfold TlsStream.readPump
  have huse := h.use s s.ssl
  dsimp only
  split
  · exact h.trans huse (h.trans (h.use _ _) (h.pump _))
  · exact h.trans huse (h.pumpOut _)

theorem readAgain (s : TlsStream) : R s s.readAgain.2 := by
  unfold TlsStream.readAgain
  dsimp only
  split
  · exact h.trans (h.readPump s) (h.fail _)
  · exact h.readPump s

theorem read (s : TlsStream) : R s s.read.2 := by
  unfold TlsStream.read
  split
  · exact h.refl s
  · have hpump := h.readPump s
    dsimp only
    split
    · exact h.trans hpump (h.fail _)
    · have hcall := h.trans hpump (h.sslCall _)
      split
      · exact hcall
      · split
        · have hagain := h.trans hcall (h.sslCall _)
          split
          · exact hagain
          · exact h.trans hagain (h.readAgain _)
        · exact h.trans hcall (h.readAgain _)
      · exact h.trans hcall (h.readAgain _)
      · exact hcall
      · exact hcall

theorem write (s : TlsStream) (src : List UInt8) : R s (s.write src).2 := by
  have hpumped (s : TlsStream) (r : WriteResult) :
      R s (if s.pump.1 = false then ((.error : WriteResult), s.pump.2.fail) else (r, s.pump.2)).2 := by
    split
    · exact h.trans (h.pump s) (h.fail _)
    · exact h.pump s
  unfold TlsStream.write
  split
  · exact h.refl s
  · split
    · exact h.refl s
    · have hcall := h.sslCall s
      dsimp only
      split
      · exact h.trans hcall (hpumped _ _)
      · exact h.trans hcall (hpumped _ _)
      · exact h.trans hcall (hpumped _ _)
      · exact hcall

theorem close (s : TlsStream) : R s s.close := by
  unfold TlsStream.close
  have hfree : R s (if s.ssl then (if s.phase = .established then s.sslCall.2.pump.2 else s).sslFree else s) := by
    split
    · split
      · exact h.trans (h.sslCall s) (h.trans (h.pump _) (h.sslFree _))
      · exact h.sslFree s
    · exact h.refl s
  exact h.trans hfree (h.quiet rfl rfl rfl rfl nofun)

end Parts

/-! ### The order -/

theorem keeps_sslCall (s : TlsStream) : Keeps s s.sslCall.2 := by
  unfold sslCall
  split
  · split
    · exact ⟨List.suffix_cons _ _, fun _ hs => ⟨hs.inOrder, hs.fresh⟩⟩
    · next a rest _ =>
      refine ⟨List.suffix_cons _ _, fun _ hs => ⟨?_, fun hp => ?_⟩⟩
      · have hord := hs.inOrder
        unfold InOrder queued at hord ⊢
        change s.accepted ++ _ = _
        cases hw : s.wbio with
        | none =>
          rw [hw] at hord
          simpa using hord
        | some w =>
          rw [hw] at hord
          simp only [Option.map_some, Option.getD_some, Option.isSome_some, if_true] at hord ⊢
          rw [← hord, List.append_assoc]
      · rw [hs.fresh hp]
        rfl
  · refine ⟨List.suffix_cons _ _, fun _ hs => ⟨hs.inOrder, hs.fresh⟩⟩

theorem keeps_sslFree (s : TlsStream) : Keeps s s.sslFree := by
  unfold sslFree
  split
  · refine ⟨List.suffix_cons _ _, fun hcalm hs => ⟨?_, fun _ => rfl⟩⟩
    have hdrained : s.queued.length = 0 := (hcalm _ List.mem_cons_self).1
    have hord := hs.inOrder
    unfold InOrder at hord ⊢
    rw [List.eq_nil_of_length_eq_zero hdrained] at hord
    exact hord
  · exact Keeps.refl s

/-- The chunk in hand stands between the accepted and the queued bytes. -/
structure Sending (buf : List UInt8) (s : TlsStream) : Prop where
  inOrder : s.accepted ++ buf ++ s.queued = s.produced
  wbio : s.wbio.isSome
  phase : s.phase ≠ .connectingTcp

theorem queued_map (h : s.wbio.isSome) (f : List UInt8 → List UInt8) :
    (s.wbio.map f).getD [] = f s.queued := by
  obtain ⟨w, hw⟩ := Option.isSome_iff_exists.mp h
  unfold queued
  rw [hw]
  rfl

/-- Putting the rest back keeps the order when nothing is queued behind it. -/
theorem Sending.putBack {buf : List UInt8} (h : Sending buf s) (hbehind : s.queued.length = 0)
    (io : Io) (env : Env) :
    Ordered { s.note io with env := env, wbio := s.wbio.map (· ++ buf) } := by
  have hempty := List.eq_nil_of_length_eq_zero hbehind
  refine ⟨?_, fun hp => absurd hp h.phase⟩
  have hord := h.inOrder
  change s.accepted ++ (s.wbio.map (· ++ buf)).getD [] = s.produced
  rw [queued_map h.wbio, hempty, List.nil_append]
  rw [hempty, List.append_nil] at hord
  exact hord

theorem Sending.accept {buf : List UInt8} (h : Sending buf s) (n : Nat) (io : Io) (env : Env) :
    Sending (buf.drop n) { s.note io with env := env, accepted := s.accepted ++ buf.take n } := by
  refine ⟨?_, h.wbio, h.phase⟩
  change s.accepted ++ buf.take n ++ buf.drop n ++ s.queued = s.produced
  rw [List.append_assoc s.accepted, List.take_append_drop]
  exact h.inOrder

theorem Sending.done (h : Sending [] s) : Ordered s := by
  refine ⟨?_, fun hp => absurd hp h.phase⟩
  have hord := h.inOrder
  rw [List.append_nil] at hord
  exact hord

/-- The next chunk is the front of the BIO. -/
theorem sending_takeChunk (h : Ordered s) (hqueued : s.queued ≠ []) :
    Sending (s.queued.take kCipherChunk) { s with wbio := s.wbio.map (·.drop kCipherChunk) } := by
  have hwbio : s.wbio.isSome := by
    unfold queued at hqueued
    cases hw : s.wbio with
    | none => exact absurd (by rw [hw]; rfl) hqueued
    | some w => rfl
  refine ⟨?_, by rw [Option.isSome_map]; exact hwbio, fun hp => ?_⟩
  · change s.accepted ++ s.queued.take kCipherChunk ++ (s.wbio.map (·.drop kCipherChunk)).getD [] = s.produced
    rw [queued_map hwbio, List.append_assoc, List.take_append_drop]
    exact h.inOrder
  · rw [h.fresh hp] at hwbio
    exact absurd hwbio (by decide)

theorem pumpOutLoop_log (answers : List WriteResult) (buf : List UInt8) (s : TlsStream) :
    s.log <:+ (pumpOutLoop answers buf s).2.log := by
  induction answers generalizing buf s with
  | nil => exact List.suffix_cons _ _
  | cons a rest ih =>
    cases a with
    | again => exact List.suffix_cons _ _
    | error => exact List.suffix_cons _ _
    | accepted n =>
      rw [pumpOutLoop]
      have hnote (s' : TlsStream) (io : Io) (h : s'.log = io :: s.log) : s.log <:+ s'.log :=
        h ▸ List.suffix_cons _ _
      split
      · exact (hnote _ _ rfl).trans (ih ..)
      · split
        · exact hnote _ _ rfl
        · exact List.IsSuffix.trans (hnote _ (.send s.queued.length (.accepted n)) rfl) (ih ..)

/-- A calm run of the sending loop ends in order. -/
theorem pumpOutLoop_ordered (answers : List WriteResult) (buf : List UInt8) (s : TlsStream)
    (hcalm : Calm (pumpOutLoop answers buf s).2) (hs : Sending buf s) :
    Ordered (pumpOutLoop answers buf s).2 := by
  induction answers generalizing buf s with
  | nil =>
    have hbehind : s.queued.length = 0 := (hcalm _ List.mem_cons_self).1 rfl
    exact hs.putBack hbehind _ _
  | cons a rest ih =>
    cases a with
    | again =>
      have hbehind : s.queued.length = 0 := (hcalm _ List.mem_cons_self).1 rfl
      exact hs.putBack hbehind _ _
    | error => exact absurd rfl (hcalm _ List.mem_cons_self).2
    | accepted n =>
      have haccept := hs.accept n (.send s.queued.length (.accepted n)) { s.env with sends := rest }
      rw [pumpOutLoop] at hcalm ⊢
      split at hcalm
      · next hrest =>
        rw [if_pos hrest]
        exact ih _ _ hcalm haccept
      · next hrest =>
        rw [if_neg hrest]
        rw [not_not.mp hrest] at haccept
        split at hcalm
        · next hempty =>
          rw [if_pos hempty]
          exact haccept.done
        · next hqueued =>
          rw [if_neg hqueued]
          exact ih _ _ hcalm (sending_takeChunk haccept.done hqueued)

theorem keeps_pumpOut (s : TlsStream) : Keeps s s.pumpOut.2 := by
  unfold pumpOut
  split
  · exact Keeps.quiet rfl rfl rfl rfl id
  · next hqueued =>
    have hlog := pumpOutLoop_log s.env.sends (s.queued.take kCipherChunk)
      { s with wbio := s.wbio.map (·.drop kCipherChunk) }
    refine ⟨hlog, fun hcalm hs => ?_⟩
    exact pumpOutLoop_ordered _ _ _ hcalm (sending_takeChunk hs hqueued)

theorem keeps_pumpInLoop (answers : List ReadResult) (readAny : Bool) (s : TlsStream) :
    Keeps s (pumpInLoop answers readAny s).2.2 := by
  have hnote (s : TlsStream) (io : Io) (env : Env) (rbio : Option (List UInt8)) :
      Keeps s { s.note io with env := env, rbio := rbio } :=
    ⟨List.suffix_cons _ _, fun _ hs => ⟨hs.inOrder, hs.fresh⟩⟩
  induction answers generalizing readAny s with
  | nil =>
    rw [pumpInLoop]
    split
    · exact Keeps.refl s
    · exact hnote s _ s.env s.rbio
  | cons a rest ih =>
    rw [pumpInLoop]
    split
    · exact Keeps.refl s
    · cases a with
      | again => exact hnote s _ _ s.rbio
      | error => exact hnote s _ _ s.rbio
      | data bytes =>
        dsimp only
        split
        · exact hnote s _ _ s.rbio
        · exact (hnote s _ _ _).trans (ih ..)

/-- A step out of the connecting phase that leaves the bytes alone. -/
theorem keeps_leave {s' : TlsStream} (hlog : s.log <:+ s'.log) (haccepted : s'.accepted = s.accepted)
    (hqueued : Ordered s → s'.queued = s.queued) (hproduced : s'.produced = s.produced)
    (hphase : s'.phase ≠ .connectingTcp) : Keeps s s' := by
  refine ⟨hlog, fun _ hs => ⟨?_, fun hp => absurd hp hphase⟩⟩
  have hord := hs.inOrder
  unfold InOrder at hord ⊢
  rw [haccepted, hqueued hs, hproduced]
  exact hord

/-- A handshake begins with an empty output BIO in place of none. -/
theorem keeps_beginHandshake (s : TlsStream) (hphase : s.phase = .connectingTcp) :
    Keeps s s.beginHandshake := by
  have hqueued (hs : Ordered s) : [] = s.queued := by
    rw [queued, hs.fresh hphase]
    rfl
  obtain ⟨env, ⟨heq, -⟩ | ⟨rbio, wbio, heq, -⟩ | heq⟩ := s.beginHandshake_cases
  · rw [heq]
    exact keeps_leave List.suffix_rfl rfl (fun _ => rfl) rfl nofun
  · rw [heq]
    exact keeps_leave ((List.suffix_cons _ _).trans (List.suffix_cons _ _)) rfl hqueued rfl nofun
  · rw [heq]
    exact keeps_leave (List.suffix_cons _ _) rfl hqueued rfl nofun

theorem parts_keeps : Parts Keeps where
  refl := Keeps.refl
  trans := Keeps.trans
  quiet := Keeps.quiet
  sslCall := keeps_sslCall
  sslFree := keeps_sslFree
  pumpOut := keeps_pumpOut
  pumpInLoop := keeps_pumpInLoop
  beginHandshake := keeps_beginHandshake

end TlsStream

open TlsStream in
theorem keeps_call (s : TlsStream) {c : Call} (hc : c ≠ .connect) (env : Env) :
    Keeps s (call s c env) := by
  have henv : Keeps s { s with env := env } := Keeps.quiet rfl rfl rfl rfl id
  cases c with
  | connect => exact absurd rfl hc
  | pollOpen => exact henv.trans (parts_keeps.pollOpen _)
  | read => exact henv.trans (parts_keeps.read _)
  | write src => exact henv.trans (parts_keeps.write _ src)
  | close => exact henv.trans (parts_keeps.close _)

theorem keeps_run (s : TlsStream) (calls : List (Call × Env)) (hcalls : ∀ c ∈ calls, c.1 ≠ .connect) :
    Keeps s (run s calls) := by
  induction calls generalizing s with
  | nil => exact Keeps.refl s
  | cons c rest ih =>
    have hc := keeps_call s (hcalls c List.mem_cons_self) c.2
    exact hc.trans (ih _ fun c' hc' => hcalls c' (List.mem_cons_of_mem _ hc'))

/-- **Ciphertext in order.** On one connection, in every run of `poll_open`, `read`, `write` and
`close` in which the socket refuses a write only when nothing is queued behind the chunk, OpenSSL is
freed only with its output drained, and no transport error has occurred, the ciphertext accepted by
the socket followed by the queued ciphertext is what OpenSSL produced. -/
theorem ciphertext_inOrder (calls : List (Call × Env)) (hcalls : ∀ c ∈ calls, c.1 ≠ .connect)
    (hfatal : ∀ io ∈ (run dialing calls).log, ¬ io.Fatal)
    (hdrained : ∀ io ∈ (run dialing calls).log, io.Drained) : InOrder (run dialing calls) := by
  have hstart : Ordered dialing := ⟨rfl, fun _ => rfl⟩
  have hcalm : Calm (run dialing calls) := fun io hio => ⟨hdrained io hio, hfatal io hio⟩
  exact ((keeps_run dialing calls hcalls).ordered hcalm hstart).inOrder

/-- A connection is opened, and a record is sent in two pieces, the second after a refused write. -/
theorem ciphertext_inOrder_partial :
    let calls : List (Call × Env) :=
      [(.pollOpen, { opens := [.opened], ssl := [{ result := .ok, produced := [22] }], sends := [.accepted 1] }),
       (.write [104, 105], { ssl := [{ result := .ok, plain := [104, 105], produced := [23, 3, 3] }],
                             sends := [.accepted 1, .again] }),
       (.write [33], { ssl := [{ result := .ok, plain := [33], produced := [24, 4] }],
                       sends := [.accepted 3, .again] })]
    (run dialing calls).accepted = [22, 23, 3, 3, 24] ∧ (run dialing calls).wbio = some [4] ∧
      InOrder (run dialing calls) :=
  ⟨by decide, by decide, ciphertext_inOrder _ (by decide) (by decide) (by decide)⟩

/-- The handshake completes at once; then two writes produce `first` and `second`, and the socket is
full. -/
def refusedWrites (src src' first second : List UInt8) : List (Call × Env) :=
  [(.pollOpen, { opens := [.opened], ssl := [{ result := .ok }] }),
   (.write src, { ssl := [{ result := .ok, plain := src, produced := first }] }),
   (.write src', { ssl := [{ result := .ok, plain := src', produced := second }] })]

/-- A full socket gets the front chunk, which comes to stand behind the rest. -/
theorem pumpOut_refused {bytes : List UInt8} (hwbio : s.wbio = some bytes) (hne : bytes ≠ [])
    (hsends : s.env.sends = []) :
    s.pumpOut = (true, { s.note (.send (bytes.drop kCipherChunk).length .again) with
      wbio := some (bytes.drop kCipherChunk ++ bytes.take kCipherChunk) }) := by
  have hqueued : s.queued = bytes := by
    rw [TlsStream.queued, hwbio]
    rfl
  rw [TlsStream.pumpOut, hqueued, if_neg hne, hsends, TlsStream.pumpOutLoop, hwbio]
  rfl

/-- The stream after a handshake that takes one call of OpenSSL and sends nothing, with `produced` written since and
`queued` in the output BIO. -/
def stuck (produced queued : List UInt8) (log : List Io) : TlsStream :=
  { ssl := true, rbio := some [], wbio := some queued, phase := .established, produced := produced,
    log := log ++ [.recv .again, .ssl [] { result := .ok }, .sslNew], heap := { made := 1 } }

/-- What happens in a write of `src` that produces `out` behind `queued` and meets a full socket. -/
def refusal (queued src out : List UInt8) : List Io :=
  [.recv .again, .send ((queued ++ out).drop kCipherChunk).length .again,
   .ssl [] { result := .ok, plain := src, produced := out }]

theorem refusal_not_fatal (queued src out : List UInt8) : ∀ io ∈ refusal queued src out, ¬ io.Fatal := by
  simp [refusal, Io.Fatal]

theorem call_write_stuck {produced queued src out : List UInt8} {log : List Io} (hsrc : src ≠ []) (hout : out ≠ []) :
    call (stuck produced queued log) (.write src) { ssl := [{ result := .ok, plain := src, produced := out }] }
      = stuck (produced ++ out) ((queued ++ out).drop kCipherChunk ++ (queued ++ out).take kCipherChunk)
          (refusal queued src out ++ log) := by
  have hne : queued ++ out ≠ [] := List.append_ne_nil_of_right_ne_nil _ hout
  simp only [call, TlsStream.write, TlsStream.sslCall, stuck, ne_eq, not_true_eq_false, if_false, hsrc, if_true,
    Option.map_some, TlsStream.pump, Option.isSome_some]
  rw [pumpOut_refused rfl hne rfl]
  rfl

/-- The first write fits in a chunk, so it stays in its place. With the second one there is something behind the
chunk. -/
theorem run_refusedWrites {src src' first second : List UInt8} (hsrc : src ≠ []) (hsrc' : src' ≠ [])
    (hfirst : first ≠ []) (hsecond : second ≠ []) (hfits : first.length ≤ kCipherChunk) :
    run dialing (refusedWrites src src' first second)
      = stuck (first ++ second) ((first ++ second).drop kCipherChunk ++ (first ++ second).take kCipherChunk)
          (refusal first src' second ++ refusal [] src first) := by
  have hopen : call dialing .pollOpen { opens := [.opened], ssl := [{ result := .ok }] } = stuck [] [] [] := by decide
  have hwrite := @call_write_stuck [] [] src first [] hsrc hfirst
  have hstays : ([] ++ first).drop kCipherChunk ++ ([] ++ first).take kCipherChunk = first := by
    rw [List.nil_append, List.drop_eq_nil_of_le hfits, List.take_of_length_le hfits, List.nil_append]
  rw [hstays, List.nil_append, List.append_nil] at hwrite
  change call (call (call dialing .pollOpen _) (.write src) _) (.write src') _ = _
  rw [hopen, hwrite]
  exact call_write_stuck hsrc' hsecond

/-- Two writes of more than one chunk together, into a full socket, put the end before the beginning. -/
theorem run_refusedWrites_disorder {src src' first second : List UInt8} {a b : UInt8} (hsrc : src ≠ [])
    (hsrc' : src' ≠ []) (hfits : first.length ≤ kCipherChunk) (ha : first.head? = some a)
    (hb : ((first ++ second).drop kCipherChunk).head? = some b) (hne : a ≠ b) :
    (∀ io ∈ (run dialing (refusedWrites src src' first second)).log, ¬ io.Fatal) ∧
      ¬ InOrder (run dialing (refusedWrites src src' first second)) := by
  have hfirst : first ≠ [] := by
    rintro rfl
    cases ha
  have hsecond : second ≠ [] := by
    rintro rfl
    rw [List.append_nil, List.drop_eq_nil_of_le hfits] at hb
    cases hb
  rw [run_refusedWrites hsrc hsrc' hfirst hsecond hfits]
  constructor
  · intro io hio
    rcases List.mem_append.mp hio with hio | hio
    · exact (List.mem_append.mp hio).elim (refusal_not_fatal _ _ _ io) (refusal_not_fatal _ _ _ io)
    · have hopening : ∀ io ∈ [Io.recv .again, .ssl [] { result := .ok }, .sslNew], ¬ io.Fatal := by decide
      exact hopening io hio
  · intro h
    have hhead : ((first ++ second).drop kCipherChunk ++ (first ++ second).take kCipherChunk).head?
        = (first ++ second).head? := congrArg List.head? h
    rw [List.head?_append, hb, List.head?_append, ha] at hhead
    exact hne (Option.some.inj hhead).symm

/-- The records of two writes, 16406 and 3638 bytes, meet a full socket: the first chunk ends in the second record. -/
theorem refusedWrites_not_inOrder :
    let calls := refusedWrites (List.replicate 16384 7) (List.replicate 3616 7) (List.replicate 16406 1)
      (List.replicate 3638 2)
    (∀ c ∈ calls, c.1 ≠ .connect) ∧ (∀ io ∈ (run dialing calls).log, ¬ io.Fatal) ∧
      ¬ InOrder (run dialing calls) := by
  have hhead {n : Nat} {a : UInt8} (hn : n ≠ 0) : (List.replicate n a).head? = some a := by
    rw [List.head?_replicate, if_neg hn]
  have hsrc {n : Nat} (hn : n ≠ 0) : List.replicate n (7 : UInt8) ≠ [] :=
    fun h => hn (List.length_replicate.symm.trans (congrArg List.length h))
  have hbehind : ((List.replicate 16406 (1 : UInt8) ++ List.replicate 3638 2).drop kCipherChunk).head? = some 2 := by
    rw [List.drop_append, List.drop_replicate, List.drop_replicate, List.length_replicate]
    exact hhead (by decide)
  refine ⟨?_, run_refusedWrites_disorder (hsrc (by decide)) (hsrc (by decide)) ?_ (hhead (by decide)) hbehind
    (by decide)⟩
  · simp only [refusedWrites, List.mem_cons, List.not_mem_nil, or_false]
    rintro c (rfl | rfl | rfl)
    · exact Call.noConfusion
    · exact Call.noConfusion
    · exact Call.noConfusion
  · rw [List.length_replicate]
    decide

end Lepton.Tls

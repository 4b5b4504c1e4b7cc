import Lepton.TlsOrder

/-! What a TLS stream keeps in its output BIO between calls. A call that does not end the connection pumps out what
OpenSSL has produced, so the BIO is empty unless the socket has refused the last write; reads that return data are
the exception, as nothing is pumped behind them. The calls of a stream and their answers are replayed on the model,
so that a protocol layer can be put on top of it by its history of calls. -/

namespace Lepton

/-- Every answer that ends the connection is followed by a close at once. The latest call comes first. -/
inductive Attended : List StreamCall → Prop where
  | nil : Attended []
  | cons {c : StreamCall} {calls : List StreamCall} : ¬ c.Failing → Attended calls → Attended (c :: calls)
  | closed (c : StreamCall) {calls : List StreamCall} : Attended calls → Attended (.close :: c :: calls)

namespace Tls

/-- The answer of the last socket write on the connection. -/
def lastSend : List Io → Option WriteResult
  | [] => none
  | .send _ answer :: _ => some answer
  | .sslNew :: _ | .sslFree _ :: _ => none
  | .recv _ :: rest | .ssl _ _ :: rest | .nullUse :: rest => lastSend rest

namespace TlsStream

variable {s s' : TlsStream}

/-- The output BIO is empty, or the socket has refused what it holds. -/
def Flushed (s : TlsStream) : Prop := s.queued = [] ∨ lastSend s.log = some .again

/-- A step beside the output. -/
structure Beside (s s' : TlsStream) : Prop where
  wbio : s'.wbio = s.wbio
  last : lastSend s'.log = lastSend s.log
  ssl : s'.ssl = s.ssl
  tape : s'.env.ssl = s.env.ssl

theorem Beside.trans {s'' : TlsStream} (h : Beside s s') (h' : Beside s' s'') : Beside s s'' :=
  ⟨h'.wbio.trans h.wbio, h'.last.trans h.last, h'.ssl.trans h.ssl, h'.tape.trans h.tape⟩

theorem Flushed.of_eq (h : Flushed s) (hwbio : s'.wbio = s.wbio) (hlast : lastSend s'.log = lastSend s.log) :
    Flushed s' := by
  unfold Flushed queued
  rw [hwbio, hlast]
  exact h

/-- What holds between any two calls: OpenSSL is there while a connection is up, and nothing is left behind by a
stream without it. -/
structure Kept (s : TlsStream) : Prop where
  up : s.phase = .established ∨ s.phase = .handshaking → s.ssl = true
  gone : s.ssl = false → Flushed s

theorem Kept.of_ssl (h : s.ssl = true) : Kept s := ⟨fun _ => h, fun hnone => absurd (h.symm.trans hnone) nofun⟩

theorem Kept.of_flushed (hssl : s.phase = .established ∨ s.phase = .handshaking → s.ssl = true) (h : Flushed s) : Kept s :=
  ⟨hssl, fun _ => h⟩

/-! ### The pumps -/

theorem beside_pumpInLoop (answers : List ReadResult) (readAny : Bool) (s : TlsStream) :
    Beside s (pumpInLoop answers readAny s).2.2 := by
  induction answers generalizing readAny s with
  | nil =>
    rw [pumpInLoop]
    split
    · exact ⟨rfl, rfl, rfl, rfl⟩
    · exact ⟨rfl, rfl, rfl, rfl⟩
  | cons a rest ih =>
    rw [pumpInLoop]
    split
    · exact ⟨rfl, rfl, rfl, rfl⟩
    · dsimp only
      split
      · exact ⟨rfl, rfl, rfl, rfl⟩
      · exact ⟨rfl, rfl, rfl, rfl⟩
      · split
        · exact ⟨rfl, rfl, rfl, rfl⟩
        · refine Beside.trans ?_ (ih _ _)
          exact ⟨rfl, rfl, rfl, rfl⟩

theorem beside_pumpIn (s : TlsStream) : Beside s s.pumpIn.2.2 := by
  have huse : Beside s (s.use s.rbio.isSome) := ⟨rfl, rfl, rfl, rfl⟩
  exact huse.trans (beside_pumpInLoop ..)

/-- A pump that sends: it leaves OpenSSL alone, and flushes the output unless it fails. -/
structure Pumps (s : TlsStream) (ok : Bool) (s' : TlsStream) : Prop where
  ssl : s'.ssl = s.ssl
  tape : s'.env.ssl = s.env.ssl
  flushed : ok = true → Flushed s'

theorem pumps_pumpOutLoop (answers : List WriteResult) (buf : List UInt8) (s : TlsStream) :
    Pumps s (pumpOutLoop answers buf s).1 (pumpOutLoop answers buf s).2 := by
  induction answers generalizing buf s with
  | nil => exact ⟨rfl, rfl, fun _ => Or.inr rfl⟩
  | cons a rest ih =>
    cases a with
    | again => exact ⟨rfl, rfl, fun _ => Or.inr rfl⟩
    | error => exact ⟨rfl, rfl, nofun⟩
    | accepted n =>
      rw [pumpOutLoop]
      dsimp only
      split
      · exact ⟨(ih _ _).ssl, (ih _ _).tape, (ih _ _).flushed⟩
      · split
        · next hempty => exact ⟨rfl, rfl, fun _ => Or.inl hempty⟩
        · exact ⟨(ih _ _).ssl, (ih _ _).tape, (ih _ _).flushed⟩

theorem pumps_pumpOut (s : TlsStream) : Pumps s s.pumpOut.1 s.pumpOut.2 := by
  unfold pumpOut
  split
  · next hempty => exact ⟨rfl, rfl, fun _ => Or.inl hempty⟩
  · have h := pumps_pumpOutLoop s.env.sends (s.queued.take kCipherChunk) { s with wbio := s.wbio.map (·.drop kCipherChunk) }
    exact ⟨h.ssl, h.tape, h.flushed⟩

theorem pumps_pump (s : TlsStream) : Pumps s s.pump.1 s.pump.2 := by
  have h := s.pumps_pumpOut
  unfold pump
  dsimp only
  split
  · next hok =>
    have hin := s.pumpOut.2.beside_pumpIn
    exact ⟨hin.ssl.trans h.ssl, hin.tape.trans h.tape, fun _ => (h.flushed hok).of_eq hin.wbio hin.last⟩
  · exact ⟨h.ssl, h.tape, nofun⟩

theorem Pumps.of_use {present ok : Bool} (h : Pumps (s.use present) ok s') : Pumps s ok s' :=
  ⟨h.ssl, h.tape, h.flushed⟩

theorem pumps_readPump (s : TlsStream) : Pumps s s.readPump.1 s.readPump.2 := by
  unfold readPump
  dsimp only
  split
  · exact (pumps_pump _).of_use.of_use
  · exact (pumps_pumpOut _).of_use

theorem ssl_sslCall (s : TlsStream) : s.sslCall.2.ssl = s.ssl := by
  unfold sslCall
  split
  · split
    · rfl
    · rfl
  · rfl

/-- A call of OpenSSL that produces nothing. -/
theorem Flushed.sslCall (h : Flushed s) (hquiet : s.sslCall.1.produced = []) : Flushed s.sslCall.2 := by
  unfold TlsStream.sslCall at hquiet ⊢
  split
  · next hssl =>
    rw [if_pos hssl] at hquiet
    split
    · exact h.of_eq rfl rfl
    · next a rest htape =>
      rw [htape] at hquiet
      change a.produced = [] at hquiet
      refine h.of_eq ?_ rfl
      change s.wbio.map (· ++ a.produced) = s.wbio
      rw [hquiet]
      cases s.wbio with
      | none => rfl
      | some w => exact congrArg some (List.append_nil w)
  · exact h.of_eq rfl rfl

theorem flushed_sslFree (h : s.ssl = true) : Flushed s.sslFree := by
  left
  unfold sslFree
  rw [if_pos h]
  rfl

theorem flushed_fail_of_ssl (h : s.ssl = true) : Flushed s.fail := (flushed_sslFree h).of_eq rfl rfl

theorem kept_fail (h : s.ssl = false → Flushed s) : Kept s.fail := by
  refine ⟨nofun, fun _ => ?_⟩
  cases hssl : s.ssl with
  | true => exact flushed_fail_of_ssl hssl
  | false =>
    refine (h hssl).of_eq ?_ ?_
    · unfold fail sslFree
      rw [hssl]
      rfl
    · unfold fail sslFree
      rw [hssl]
      rfl

theorem sslCall_ssl (h : s.sslCall.1.result ≠ .error) : s.ssl = true := by
  by_contra hssl
  unfold sslCall at h
  rw [if_neg hssl] at h
  exact h rfl

/-- Without OpenSSL its calls leave the output alone. -/
theorem Flushed.sslCall_gone (h : Flushed s) (hssl : s.sslCall.2.ssl = false) : Flushed s.sslCall.2 := by
  refine h.sslCall ?_
  have hgone : ¬ s.ssl = true := fun htrue => absurd ((s.ssl_sslCall.trans htrue).symm.trans hssl) nofun
  unfold TlsStream.sslCall
  rw [if_neg hgone]

/-! ### The calls -/

/-- What a call leaves behind: nothing in the output that the socket has not refused, unless it fails. -/
structure Leaves (s' : TlsStream) (failing : Prop) : Prop where
  kept : Kept s'
  flushed : ¬ failing → Flushed s'

theorem Leaves.same (hk : Kept s) (hf : Flushed s) (failing : Prop) : Leaves s failing := ⟨hk, fun _ => hf⟩

theorem leaves_handshakeLoop (fuel : Nat) (hk : Kept s) (hf : Flushed s) :
    Leaves (handshakeLoop fuel s).2 ((handshakeLoop fuel s).1 = .failed) := by
  induction fuel generalizing s with
  | zero => exact Leaves.same hk hf _
  | succ fuel ih =>
    have hssl := s.ssl_sslCall
    rw [handshakeLoop]
    dsimp only
    split
    · next hok =>
      have hup : s.sslCall.2.ssl = true := hssl.trans (sslCall_ssl (by rw [hok]; intro h; cases h))
      have hpumps := s.sslCall.2.pumps_pump
      split
      · next hok => exact ⟨Kept.of_ssl (hpumps.ssl.trans hup), fun _ => (hpumps.flushed hok).of_eq rfl rfl⟩
      · exact ⟨Kept.of_ssl (hpumps.ssl.trans hup), fun h => absurd rfl h⟩
    · next hwant =>
      have hup : s.sslCall.2.ssl = true := hssl.trans (sslCall_ssl (by rw [hwant]; intro h; cases h))
      have hin := s.sslCall.2.beside_pumpIn
      have hpumps := s.sslCall.2.pumpIn.2.2.pumps_pumpOut
      have hup₂ := hpumps.ssl.trans (hin.ssl.trans hup)
      split
      · exact ⟨Kept.of_ssl (hin.ssl.trans hup), fun h => absurd rfl h⟩
      · split
        · exact ⟨Kept.of_ssl hup₂, fun h => absurd rfl h⟩
        · next hok =>
          have hclean := hpumps.flushed (by simpa using hok)
          split
          · exact ih (Kept.of_ssl hup₂) hclean
          · exact ⟨Kept.of_ssl hup₂, fun _ => hclean⟩
    · next hwant =>
      have hup : s.sslCall.2.ssl = true := hssl.trans (sslCall_ssl (by rw [hwant]; intro h; cases h))
      have hpumps := s.sslCall.2.pumps_pumpOut
      split
      · exact ⟨Kept.of_ssl (hpumps.ssl.trans hup), fun h => absurd rfl h⟩
      · next hok => exact ih (Kept.of_ssl (hpumps.ssl.trans hup)) (hpumps.flushed (by simpa using hok))
    · exact ⟨kept_fail hf.sslCall_gone, fun h => absurd rfl h⟩

theorem leaves_beginHandshake (hf : Flushed s) : Kept s.beginHandshake ∧ Flushed s.beginHandshake := by
  obtain ⟨env, ⟨heq, -⟩ | ⟨rbio, wbio, heq, -⟩ | heq⟩ := s.beginHandshake_cases
  · rw [heq]
    have hgone : Flushed (fail { s with env := env, ssl := false }) := hf.of_eq rfl rfl
    exact ⟨Kept.of_flushed nofun hgone, hgone⟩
  · rw [heq]
    exact ⟨kept_fail nofun, flushed_fail_of_ssl rfl⟩
  · rw [heq]
    exact ⟨Kept.of_ssl rfl, Or.inl rfl⟩

theorem leaves_pollOpen (hk : Kept s) (hf : Flushed s) :
    Leaves s.pollOpen.2 (s.pollOpen.1 = .failed ∨ s.pollOpen.1 = .closed) := by
  have hshake {s : TlsStream} (hk : Kept s) (hf : Flushed s) :
      Leaves s.handshake.2 (s.handshake.1 = .failed ∨ s.handshake.1 = .closed) := by
    have h := leaves_handshakeLoop (s.env.ssl.length + s.env.recvs.length + 1) hk hf
    exact ⟨h.kept, fun hok => h.flushed fun hfail => hok (Or.inl hfail)⟩
  unfold pollOpen
  split
  · have hopens (env : Env) : Kept { s with env := env } ∧ Flushed { s with env := env } :=
      ⟨⟨hk.up, fun h => (hk.gone h).of_eq rfl rfl⟩, hf.of_eq rfl rfl⟩
    dsimp only
    split
    · exact Leaves.same (hopens _).1 (hopens _).2 _
    · exact hshake (leaves_beginHandshake (hopens _).2).1 (leaves_beginHandshake (hopens _).2).2
    · exact ⟨kept_fail fun _ => (hopens _).2, fun h => absurd (Or.inl rfl) h⟩
  · exact hshake hk hf
  · exact Leaves.same hk hf _
  · exact Leaves.same hk hf _
  · exact Leaves.same hk hf _

theorem leaves_connect (hk : Kept s) (hf : Flushed s) : Leaves s.connect.2 (s.connect.1 = false) := by
  unfold connect
  split
  · split
    · exact ⟨⟨nofun, fun h => (hk.gone h).of_eq rfl rfl⟩, fun h => absurd rfl h⟩
    · exact ⟨⟨nofun, fun h => (hk.gone h).of_eq rfl rfl⟩, fun _ => hf.of_eq rfl rfl⟩
  · exact ⟨⟨nofun, fun h => (hk.gone h).of_eq rfl rfl⟩, fun h => absurd rfl h⟩

/-- A pump at the end of a call: the stream fails with it, or the call returns. -/
theorem Pumps.leaves {α : Type} {ok : Bool} (h : Pumps s ok s') (hssl : s.ssl = true) (error result : α) :
    Leaves (if ok = false then (error, s'.fail) else (result, s')).2
      ((if ok = false then (error, s'.fail) else (result, s')).1 = error) := by
  split
  · exact ⟨kept_fail fun hgone => absurd ((h.ssl.trans hssl).symm.trans hgone) nofun, fun hok => absurd rfl hok⟩
  · next hok => exact ⟨Kept.of_ssl (h.ssl.trans hssl), fun _ => h.flushed (by simpa using hok)⟩

theorem leaves_write (hk : Kept s) (hf : Flushed s) (src : List UInt8) :
    Leaves (s.write src).2 ((s.write src).1 = .error) := by
  unfold write
  split
  · exact Leaves.same hk hf _
  · next hphase =>
    split
    · exact Leaves.same hk hf _
    · have hup : s.sslCall.2.ssl = true := s.ssl_sslCall.trans (hk.up (Or.inl (not_not.mp hphase)))
      have hpumps := s.sslCall.2.pumps_pump
      dsimp only
      split
      · exact hpumps.leaves hup _ _
      · exact hpumps.leaves hup _ _
      · exact hpumps.leaves hup _ _
      · exact ⟨Kept.of_ssl hup, fun h => absurd rfl h⟩

theorem leaves_readAgain (hssl : s.ssl = true) : Leaves s.readAgain.2 (s.readAgain.1 = .error) :=
  s.pumps_readPump.leaves hssl _ _

/-- The answer of OpenSSL is one of the tape, or produces nothing. -/
theorem sslCall_quiet (hquiet : ∀ a ∈ s.env.ssl, a.produced = []) :
    s.sslCall.1.produced = [] ∧ ∀ a ∈ s.sslCall.2.env.ssl, a.produced = [] := by
  unfold sslCall
  split
  · split
    · exact ⟨rfl, hquiet⟩
    · next a rest htape =>
      rw [htape] at hquiet
      exact List.forall_mem_cons.mp hquiet
  · exact ⟨rfl, hquiet⟩

/-- Nothing is pumped behind a read that returns data, so nothing may be produced in it. -/
theorem leaves_read (hk : Kept s) (hf : Flushed s)
    (hquiet : ∀ bytes, s.read.1 = .data bytes → ∀ a ∈ s.env.ssl, a.produced = []) :
    Leaves s.read.2 (s.read.1 = .error) := by
  unfold read at hquiet ⊢
  split
  · exact Leaves.same hk hf _
  · next hphase =>
    rw [if_neg hphase] at hquiet
    have hpumps := s.pumps_readPump
    have hup : s.readPump.2.ssl = true := hpumps.ssl.trans (hk.up (Or.inl (not_not.mp hphase)))
    dsimp only at hquiet ⊢
    split
    · exact ⟨kept_fail fun hgone => absurd (hup.symm.trans hgone) nofun, fun h => absurd rfl h⟩
    · next hok =>
      rw [if_neg hok] at hquiet
      have hclean := hpumps.flushed (by simpa using hok)
      have htape := hpumps.tape
      generalize s.readPump.2 = s₁ at hquiet hup hclean htape ⊢
      rw [← htape] at hquiet
      have hup₂ := s₁.ssl_sslCall.trans hup
      cases hresult : s₁.sslCall.1.result with
      | ok =>
        rw [hresult] at hquiet
        exact ⟨Kept.of_ssl hup₂, fun _ => hclean.sslCall (sslCall_quiet (hquiet _ rfl)).1⟩
      | wantRead =>
        rw [hresult] at hquiet
        dsimp only at hquiet ⊢
        split
        · next hpending =>
          rw [if_pos hpending] at hquiet
          split
          · next hagain =>
            rw [if_pos hagain] at hquiet
            obtain ⟨hfirst, hrest⟩ := sslCall_quiet (hquiet _ rfl)
            have hsecond := (sslCall_quiet hrest).1
            exact ⟨Kept.of_ssl (s₁.sslCall.2.ssl_sslCall.trans hup₂), fun _ => (hclean.sslCall hfirst).sslCall hsecond⟩
          · exact leaves_readAgain (s₁.sslCall.2.ssl_sslCall.trans hup₂)
        · exact leaves_readAgain hup₂
      | wantWrite => exact leaves_readAgain hup₂
      | zeroReturn =>
        rw [hresult] at hquiet
        exact ⟨Kept.of_ssl hup₂, fun _ => hclean.sslCall (sslCall_quiet (hquiet _ rfl)).1⟩
      | error => exact ⟨Kept.of_ssl hup₂, fun h => absurd rfl h⟩

/-- A close leaves nothing behind, whatever came before. -/
theorem leaves_close (hk : Kept s) : Kept s.close ∧ Flushed s.close := by
  have hflushed : Flushed s.close := by
    unfold close
    dsimp only
    split
    · next hssl =>
      split
      · exact (flushed_sslFree (s.sslCall.2.pumps_pump.ssl.trans (s.ssl_sslCall.trans hssl))).of_eq rfl rfl
      · exact (flushed_sslFree hssl).of_eq rfl rfl
    · next hssl => exact (hk.gone (by simpa using hssl)).of_eq rfl rfl
  exact ⟨Kept.of_flushed nofun hflushed, hflushed⟩

/-! ### What the socket has refused -/

/-- What the socket has refused is still in the output BIO. -/
def Owes (s : TlsStream) : Prop := lastSend s.log = some .again → s.queued ≠ []

theorem Owes.of_eq (h : Owes s) (hwbio : s'.wbio = s.wbio) (hlast : lastSend s'.log = lastSend s.log) : Owes s' := by
  unfold Owes queued
  rw [hwbio, hlast]
  exact h

theorem Owes.sslCall (h : Owes s) : Owes s.sslCall.2 := by
  unfold TlsStream.sslCall
  split
  · split
    · exact h.of_eq rfl rfl
    · next a rest htape =>
      intro hlast
      have hqueued := h hlast
      unfold queued at hqueued ⊢
      cases hwbio : s.wbio with
      | none =>
        rw [hwbio] at hqueued
        exact absurd rfl hqueued
      | some w =>
        rw [hwbio] at hqueued
        exact List.append_ne_nil_of_left_ne_nil hqueued a.produced
  · exact h.of_eq rfl rfl

theorem chunk_of_queued (h : s.queued ≠ []) :
    s.queued.take kCipherChunk ≠ [] ∧ (s.wbio.map (·.drop kCipherChunk)).isSome = true := by
  refine ⟨fun hnil => (List.take_eq_nil_iff.mp hnil).elim (by decide) h, ?_⟩
  unfold queued at h
  cases hwbio : s.wbio with
  | none =>
    rw [hwbio] at h
    exact absurd rfl h
  | some w => rfl

/-- The sending loop ends with a write: the chunk that is refused goes back into the BIO. -/
theorem owes_pumpOutLoop (answers : List WriteResult) {buf : List UInt8} (hbuf : buf ≠ []) (hwbio : s.wbio.isSome) :
    Owes (pumpOutLoop answers buf s).2 := by
  have hback {s : TlsStream} {buf : List UInt8} (hbuf : buf ≠ []) (hwbio : s.wbio.isSome) :
      ((s.wbio.map (· ++ buf)).getD []) ≠ [] := by
    obtain ⟨w, hw⟩ := Option.isSome_iff_exists.mp hwbio
    rw [hw]
    exact List.append_ne_nil_of_right_ne_nil w hbuf
  induction answers generalizing buf s with
  | nil => exact fun _ => hback hbuf hwbio
  | cons a rest ih =>
    cases a with
    | again => exact fun _ => hback hbuf hwbio
    | error => exact fun h => by cases h
    | accepted n =>
      rw [pumpOutLoop]
      dsimp only
      split
      · next hmore => exact ih hmore hwbio
      · split
        · exact fun h => by cases h
        · next hqueued => exact ih (chunk_of_queued hqueued).1 (chunk_of_queued hqueued).2

theorem Owes.pumpOut (h : Owes s) : Owes s.pumpOut.2 := by
  unfold TlsStream.pumpOut
  split
  · exact h.of_eq rfl rfl
  · next hqueued => exact owes_pumpOutLoop _ (chunk_of_queued hqueued).1 (chunk_of_queued hqueued).2

theorem Owes.sslFree (h : Owes s) : Owes s.sslFree := by
  unfold TlsStream.sslFree
  split
  · exact nofun
  · exact h

theorem Owes.beginHandshake (h : Owes s) : Owes s.beginHandshake := by
  obtain ⟨env, ⟨heq, -⟩ | ⟨rbio, wbio, heq, -⟩ | heq⟩ := s.beginHandshake_cases
  · rw [heq]
    exact h.of_eq rfl rfl
  · rw [heq]
    exact nofun
  · rw [heq]
    exact nofun

theorem parts_owes : Parts fun s s' => Owes s → Owes s' where
  refl _ := id
  trans h h' hs := h' (h hs)
  quiet hlog _ hwbio _ _ hs := hs.of_eq hwbio (by rw [hlog])
  sslCall _ := Owes.sslCall
  sslFree _ := Owes.sslFree
  pumpOut _ := Owes.pumpOut
  pumpInLoop answers readAny s hs :=
    hs.of_eq (beside_pumpInLoop answers readAny s).wbio (beside_pumpInLoop answers readAny s).last
  beginHandshake _ _ := Owes.beginHandshake

theorem Owes.connect (h : Owes s) : Owes s.connect.2 := by
  unfold TlsStream.connect
  split
  · split
    · exact h.of_eq rfl rfl
    · exact h.of_eq rfl rfl
  · exact h.of_eq rfl rfl

/-! ### Histories -/

/-- A call on the stream, with the stream's own answer. -/
def reply (s : TlsStream) : StreamCall → StreamCall × TlsStream
  | .connect _ => (.connect s.connect.1, s.connect.2)
  | .pollOpen _ => (.pollOpen s.pollOpen.1, s.pollOpen.2)
  | .write src _ => (.write src (s.write src).1, (s.write src).2)
  | .read room _ => (.read room s.read.1, s.read.2)
  | .close => (.close, s.close)

theorem Owes.reply (h : Owes s) (c : StreamCall) : Owes (s.reply c).2 := by
  cases c with
  | connect _ => exact h.connect
  | pollOpen _ => exact parts_owes.pollOpen s h
  | write src _ => exact parts_owes.write s src h
  | read _ _ => exact parts_owes.read s h
  | close => exact parts_owes.close s h

end TlsStream

/-- The stream after a history of calls, the latest first, each with the outside world during it; none if the stream
answers a call otherwise. -/
def replay : List (StreamCall × Env) → Option TlsStream
  | [] => some {}
  | (c, env) :: rest =>
    match replay rest with
    | none => none
    | some s =>
      if (TlsStream.reply { s with env := env } c).1 = c then some (TlsStream.reply { s with env := env } c).2
      else none

/-- OpenSSL produces nothing in a read that returns data or the end of the stream. -/
def QuietRead : StreamCall × Env → Prop
  | (.read _ (.data _), env) => ∀ a ∈ env.ssl, a.produced = []
  | _ => True

instance : DecidablePred QuietRead
  | (.read _ (.data _), env) => inferInstanceAs (Decidable (∀ a ∈ env.ssl, a.produced = []))
  | (.read _ .again, _) | (.read _ .error, _) | (.connect _, _) | (.pollOpen _, _) | (.write _ _, _) | (.close, _) =>
    isTrue trivial

open TlsStream

theorem replay_cons {c : StreamCall × Env} {trace : List (StreamCall × Env)} {s' : TlsStream}
    (h : replay (c :: trace) = some s') :
    ∃ s, replay trace = some s ∧ reply { s with env := c.2 } c.1 = (c.1, s') := by
  rw [replay] at h
  split at h
  · cases h
  · next s hs =>
    split at h
    · next heq =>
      cases h
      exact ⟨s, hs, Prod.ext heq rfl⟩
    · cases h

theorem replay_owes {trace : List (StreamCall × Env)} {s : TlsStream} (h : replay trace = some s) : Owes s := by
  induction trace generalizing s with
  | nil =>
    cases h
    exact nofun
  | cons c rest ih =>
    obtain ⟨s₁, hs₁, hreply⟩ := replay_cons h
    have howes : Owes { s₁ with env := c.2 } := (ih hs₁).of_eq rfl rfl
    have hs := howes.reply c.1
    rwa [hreply] at hs

theorem leaves_reply {s s' : TlsStream} {c : StreamCall} (hk : Kept s) (hf : Flushed s)
    (h : reply s c = (c, s')) (hquiet : QuietRead (c, s.env)) : Leaves s' c.Failing := by
  cases c with
  | connect ok =>
    injection h with hc hs
    injection hc with hc
    rw [← hs, ← hc]
    exact leaves_connect hk hf
  | pollOpen ph =>
    injection h with hc hs
    injection hc with hc
    rw [← hs, ← hc]
    exact leaves_pollOpen hk hf
  | write src r =>
    injection h with hc hs
    injection hc with _ hc
    rw [← hs, ← hc]
    exact leaves_write hk hf src
  | read room r =>
    injection h with hc hs
    injection hc with _ hc
    rw [← hs, ← hc]
    refine leaves_read hk hf fun bytes hdata => ?_
    rw [← hc, hdata] at hquiet
    exact hquiet
  | close =>
    injection h with _ hs
    rw [← hs]
    exact ⟨(leaves_close hk).1, fun _ => (leaves_close hk).2⟩

/-- **What is left in the output BIO.** In a history in which every failure is followed by a close, the output BIO is
empty unless the socket has refused its last write. -/
theorem replay_flushed {trace : List (StreamCall × Env)} {s : TlsStream} (h : replay trace = some s)
    (hattended : Attended (trace.map Prod.fst)) (hquiet : ∀ c ∈ trace, QuietRead c) : Kept s ∧ Flushed s := by
  have hturn {s s' : TlsStream} {c : StreamCall × Env} (hs : Kept s ∧ Flushed s)
      (hreply : reply { s with env := c.2 } c.1 = (c.1, s')) (hc : QuietRead c) : Leaves s' c.1.Failing := by
    have hkept : Kept { s with env := c.2 } := ⟨hs.1.up, fun hgone => (hs.1.gone hgone).of_eq rfl rfl⟩
    exact leaves_reply hkept (hs.2.of_eq rfl rfl) hreply hc
  generalize hcalls : trace.map Prod.fst = calls at hattended
  induction hattended generalizing trace s with
  | nil =>
    cases List.map_eq_nil_iff.mp hcalls
    cases h
    exact ⟨⟨nofun, fun _ => Or.inl rfl⟩, Or.inl rfl⟩
  | cons hc _ ih =>
    obtain ⟨c, rest, rfl, rfl, hrest⟩ := List.map_eq_cons_iff.mp hcalls
    obtain ⟨hquiet₁, hquiet₂⟩ := List.forall_mem_cons.mp hquiet
    obtain ⟨s₁, hs₁, hreply⟩ := replay_cons h
    have hleaves := hturn (ih hs₁ hquiet₂ hrest) hreply hquiet₁
    exact ⟨hleaves.kept, hleaves.flushed hc⟩
  | closed _ _ ih =>
    obtain ⟨c, rest, rfl, hclose, hrest⟩ := List.map_eq_cons_iff.mp hcalls
    obtain ⟨d, older, rfl, rfl, holder⟩ := List.map_eq_cons_iff.mp hrest
    obtain ⟨-, hquiet'⟩ := List.forall_mem_cons.mp hquiet
    obtain ⟨hquiet₁, hquiet₂⟩ := List.forall_mem_cons.mp hquiet'
    obtain ⟨s₁, hs₁, hreply₁⟩ := replay_cons h
    obtain ⟨s₂, hs₂, hreply₂⟩ := replay_cons hs₁
    have hleaves := hturn (ih hs₂ hquiet₂ holder) hreply₂ hquiet₁
    rw [hclose] at hreply₁
    injection hreply₁ with _ heq
    rw [← heq]
    exact leaves_close ⟨hleaves.kept.up, fun hgone => (hleaves.kept.gone hgone).of_eq rfl rfl⟩

end Tls

end Lepton

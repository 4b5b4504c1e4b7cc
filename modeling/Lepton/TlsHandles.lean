import Lepton.Owners
import Lepton.TlsStream

/-! The OpenSSL handles of streams. A stream has all three of them while it shakes hands or is established, and none
otherwise; the `SSL` objects then have one owner each. Two things break this: a connect on a stream that still has its
handles, and an allocation that fails, after which `poll_open` goes on into the handshake without them. -/

namespace Lepton.Tls

open Function Owners

/-- The phases in which a stream works with OpenSSL. -/
def TlsPhase.Live (p : TlsPhase) : Prop := p = .handshaking ∨ p = .established

instance : DecidablePred TlsPhase.Live := fun p => inferInstanceAs (Decidable (p = .handshaking ∨ p = .established))

namespace TlsStream

variable {s s' s'' : TlsStream}

/-- All three handles are there. -/
structure Up (s : TlsStream) : Prop where
  ssl : s.ssl = true
  rbio : s.rbio.isSome = true
  wbio : s.wbio.isSome = true

/-- All three are null. -/
structure Down (s : TlsStream) : Prop where
  ssl : s.ssl = false
  rbio : s.rbio = none
  wbio : s.wbio = none

theorem Up.congr (h : s.Up) (hssl : s'.ssl = s.ssl) (hrbio : s'.rbio = s.rbio) (hwbio : s'.wbio = s.wbio) : s'.Up :=
  ⟨hssl.trans h.ssl, hrbio ▸ h.rbio, hwbio ▸ h.wbio⟩

theorem Down.congr (h : s.Down) (hssl : s'.ssl = s.ssl) (hrbio : s'.rbio = s.rbio) (hwbio : s'.wbio = s.wbio) :
    s'.Down :=
  ⟨hssl.trans h.ssl, hrbio.trans h.rbio, hwbio.trans h.wbio⟩

/-- The handles follow the phase. -/
structure Matched (s : TlsStream) : Prop where
  up : s.phase.Live → s.Up
  down : ¬ s.phase.Live → s.Down

theorem Up.matched (h : s.Up) (hphase : s.phase.Live) : s.Matched := ⟨fun _ => h, fun hno => absurd hphase hno⟩

theorem Down.matched (h : s.Down) (hphase : ¬ s.phase.Live) : s.Matched := ⟨fun hlive => absurd hlive hphase, fun _ => h⟩

/-- The handles follow the phase, whatever else changes. -/
theorem Matched.congr (h : s.Matched) (hssl : s'.ssl = s.ssl) (hrbio : s'.rbio = s.rbio) (hwbio : s'.wbio = s.wbio)
    (hphase : s'.phase = s.phase) : s'.Matched :=
  ⟨fun hlive => (h.up (hphase ▸ hlive)).congr hssl hrbio hwbio,
    fun hdead => (h.down (hphase ▸ hdead)).congr hssl hrbio hwbio⟩

/-- The object the stream holds. -/
def held (s : TlsStream) : Option Nat := if s.ssl then some s.handle else none

theorem Up.held_eq (h : s.Up) : s.held = some s.handle := if_pos h.ssl

theorem Down.held_eq (h : s.Down) : s.held = none := if_neg (by rw [h.ssl]; nofun)

/-! ### What a call does with the objects -/

/-- The objects, when `s` is stream `i` and the others hold what they hold. -/
def objects (others : Nat → Option Nat) (i : Nat) (s : TlsStream) : Objects Nat :=
  ⟨s.heap.made, s.heap.freed, update others i s.held⟩

/-- From `s` to `s'` objects are only made with an empty hand and given back by their owner. -/
def Trades (s s' : TlsStream) : Prop := ∀ others i, Steps (objects others i s) (objects others i s')

theorem Trades.trans (h : Trades s s') (h' : Trades s' s'') : Trades s s'' :=
  fun others i => (h others i).trans (h' others i)

theorem Trades.same (hheld : s'.held = s.held) (hmade : s'.heap.made = s.heap.made)
    (hfreed : s'.heap.freed = s.heap.freed) : Trades s s' := by
  intro others i
  rw [objects, objects, hheld, hmade, hfreed]

theorem trades_sslNew (hempty : s.held = none) : Trades s s.sslNew := by
  intro others i
  have hstep : Step (objects others i s) _ := .make (show update others i s.held i = none by rw [update_self, hempty])
  refine .single ?_
  convert hstep using 1
  rw [objects, objects, update_idem]
  rfl

theorem trades_sslFree (hup : s.ssl = true) : Trades s s.sslFree := by
  intro others i
  have hheld : s.held = some s.handle := if_pos hup
  have hstep : Step (objects others i s) _ :=
    .free (show update others i s.held i = some s.handle by rw [update_self, hheld])
  refine .single ?_
  convert hstep using 1
  rw [objects, objects, update_idem, sslFree, if_pos hup]
  rfl

/-- What is asked of a call: the handles follow the phase again, the objects have been dealt with properly, and, if
`calm`, no operation has met a null handle. -/
structure Serves (calm : Prop) (s s' : TlsStream) : Prop where
  matched : s'.Matched
  trades : Trades s s'
  safe : calm → s'.heap.nullUses = s.heap.nullUses

variable {calm : Prop}

theorem Serves.trans (h : Serves calm s s') (h' : Serves calm s' s'') : Serves calm s s'' :=
  ⟨h'.matched, h.trades.trans h'.trades, fun hcalm => (h'.safe hcalm).trans (h.safe hcalm)⟩

theorem Serves.refl (h : s.Matched) : Serves calm s s := ⟨h, .same rfl rfl rfl, fun _ => rfl⟩

/-! ### The parts that leave the handles alone -/

/-- `s'` has the handles of `s`. A null handle is met only if one of them is null. -/
structure Rests (s s' : TlsStream) : Prop where
  ssl : s'.ssl = s.ssl
  handle : s'.handle = s.handle
  rbio : s'.rbio.isSome = s.rbio.isSome
  wbio : s'.wbio.isSome = s.wbio.isSome
  phase : s'.phase = s.phase
  made : s'.heap.made = s.heap.made
  freed : s'.heap.freed = s.heap.freed
  safe : s.Up → s'.heap.nullUses = s.heap.nullUses

theorem Rests.refl (s : TlsStream) : Rests s s := ⟨rfl, rfl, rfl, rfl, rfl, rfl, rfl, fun _ => rfl⟩

theorem Rests.up (h : Rests s s') (hup : s.Up) : s'.Up :=
  ⟨h.ssl.trans hup.ssl, h.rbio.trans hup.rbio, h.wbio.trans hup.wbio⟩

theorem Rests.trans (h : Rests s s') (h' : Rests s' s'') : Rests s s'' :=
  ⟨h'.ssl.trans h.ssl, h'.handle.trans h.handle, h'.rbio.trans h.rbio, h'.wbio.trans h.wbio, h'.phase.trans h.phase,
    h'.made.trans h.made, h'.freed.trans h.freed, fun hup => (h'.safe (h.up hup)).trans (h.safe hup)⟩

theorem Rests.trades (h : Rests s s') : Trades s s' := by
  refine .same ?_ h.made h.freed
  rw [held, held, h.ssl, h.handle]

theorem Rests.serves (h : Rests s s') (hup : s.Up) (hphase : s.phase.Live) : Serves calm s s' :=
  ⟨(h.up hup).matched (h.phase ▸ hphase), h.trades, fun _ => h.safe hup⟩

theorem rests_use (s : TlsStream) {present : Bool} (h : s.Up → present = true) : Rests s (s.use present) := by
  refine ⟨rfl, rfl, rfl, rfl, rfl, rfl, rfl, fun hup => ?_⟩
  change s.heap.nullUses + (if present then 0 else 1) = s.heap.nullUses
  rw [h hup]
  rfl

theorem rests_sslCall (s : TlsStream) : Rests s s.sslCall.2 := by
  unfold sslCall
  split
  · split
    · exact ⟨rfl, rfl, rfl, rfl, rfl, rfl, rfl, fun _ => rfl⟩
    · refine ⟨rfl, rfl, ?_, ?_, rfl, rfl, rfl, fun _ => rfl⟩
      · exact Option.isSome_map
      · exact Option.isSome_map
  · next hnull =>
    refine ⟨rfl, rfl, rfl, rfl, rfl, rfl, rfl, fun hup => absurd hup.ssl hnull⟩

theorem rests_pumpOutLoop (answers : List WriteResult) (buf : List UInt8) (s : TlsStream) :
    Rests s (pumpOutLoop answers buf s).2 := by
  -- whatever is done to the contents of the BIO
  have hstep (s : TlsStream) (io : Io) (env : Env) (accepted : List UInt8) (f : List UInt8 → List UInt8) :
      Rests s { s.note io with env := env, accepted := accepted, wbio := s.wbio.map f } :=
    ⟨rfl, rfl, rfl, Option.isSome_map, rfl, rfl, rfl, fun _ => rfl⟩
  induction answers generalizing buf s with
  | nil => exact hstep s _ s.env s.accepted _
  | cons a rest ih =>
    cases a with
    | again => exact hstep s _ _ s.accepted _
    | error => exact ⟨rfl, rfl, rfl, rfl, rfl, rfl, rfl, fun _ => rfl⟩
    | accepted n =>
      have hkeep : Rests s { s.note (.send s.queued.length (.accepted n)) with
          env := { s.env with sends := rest }, accepted := s.accepted ++ buf.take n } :=
        ⟨rfl, rfl, rfl, rfl, rfl, rfl, rfl, fun _ => rfl⟩
      rw [pumpOutLoop]
      dsimp only
      split
      · exact hkeep.trans (ih _ _)
      · split
        · exact hkeep
        · exact (hstep s _ _ _ _).trans (ih _ _)

theorem rests_pumpOut (s : TlsStream) : Rests s s.pumpOut.2 := by
  unfold pumpOut
  split
  · exact rests_use s Up.wbio
  · have htake : Rests s { s with wbio := s.wbio.map (·.drop kCipherChunk) } :=
      ⟨rfl, rfl, rfl, Option.isSome_map, rfl, rfl, rfl, fun _ => rfl⟩
    exact htake.trans (rests_pumpOutLoop ..)

theorem rests_pumpInLoop (answers : List ReadResult) (readAny : Bool) (s : TlsStream) :
    Rests s (pumpInLoop answers readAny s).2.2 := by
  have hnote (s : TlsStream) (io : Io) (env : Env) : Rests s { s.note io with env := env } :=
    ⟨rfl, rfl, rfl, rfl, rfl, rfl, rfl, fun _ => rfl⟩
  induction answers generalizing readAny s with
  | nil =>
    rw [pumpInLoop]
    split
    · exact Rests.refl s
    · exact hnote s _ s.env
  | cons a rest ih =>
    rw [pumpInLoop]
    split
    · exact Rests.refl s
    · cases a with
      | again => exact hnote s _ _
      | error => exact hnote s _ _
      | data bytes =>
        dsimp only
        split
        · exact hnote s _ _
        · have hwrite : Rests s { s.note (.recv (.data bytes)) with
              env := { s.env with recvs := rest }, rbio := s.rbio.map (· ++ bytes.take kCipherChunk) } :=
            ⟨rfl, rfl, Option.isSome_map, rfl, rfl, rfl, rfl, fun _ => rfl⟩
          exact hwrite.trans (ih _ _)

theorem rests_pumpIn (s : TlsStream) : Rests s s.pumpIn.2.2 :=
  (rests_use s Up.rbio).trans (rests_pumpInLoop ..)

theorem rests_pump (s : TlsStream) : Rests s s.pump.2 := by
  unfold pump
  dsimp only
  split
  · exact s.rests_pumpOut.trans (rests_pumpIn _)
  · exact s.rests_pumpOut

theorem rests_readPump (s : TlsStream) : Rests s s.readPump.2 := by
  have hssl := rests_use s Up.ssl
  unfold readPump
  dsimp only
  split
  · exact (hssl.trans (rests_use _ Up.rbio)).trans (rests_pump _)
  · exact hssl.trans (rests_pumpOut _)

/-! ### The parts that make and free -/

theorem serves_fail (h : s.Up ∨ s.Down) : Serves calm s s.fail := by
  have hdead : ¬ s.fail.phase.Live := fun h => h.elim nofun nofun
  rcases h with hup | hdown
  · have hfree : s.fail = { s.note (.sslFree s.queued.length) with
        ssl := false, rbio := none, wbio := none, pending := 0, heap := s.heap.free s.handle, phase := .error } := by
      rw [fail, sslFree, if_pos hup.ssl]
    refine ⟨Down.matched ⟨?_, ?_, ?_⟩ hdead, (trades_sslFree hup.ssl).trans (.same rfl rfl rfl), fun _ => ?_⟩
    · rw [hfree]
    · rw [hfree]
    · rw [hfree]
    · rw [hfree]
      rfl
  · have hsame : s.fail = { s with phase := .error } := by
      rw [fail, sslFree, if_neg (by rw [hdown.ssl]; nofun)]
    rw [hsame] at hdead ⊢
    exact ⟨Down.matched (hdown.congr rfl rfl rfl) hdead, .same rfl rfl rfl, fun _ => rfl⟩

variable (calm) in
/-- `begin_handshake` on a stream without handles: it has all of them, or, after a failed allocation, none. -/
theorem serves_beginHandshake (hdown : s.Down) :
    Serves calm s s.beginHandshake ∧
      (s.beginHandshake.phase = .handshaking ∨ false ∈ s.env.allocs) := by
  obtain ⟨env, ⟨heq, hfailed⟩ | ⟨rbio, wbio, heq, hfailed⟩ | heq⟩ := s.beginHandshake_cases
  · have hquiet : Trades s { s with env := env, ssl := false } := by
      refine .same ?_ rfl rfl
      rw [hdown.held_eq]
      rfl
    have hfail : Serves calm _ _ :=
      serves_fail (s := { s with env := env, ssl := false }) (Or.inr ⟨rfl, hdown.rbio, hdown.wbio⟩)
    rw [heq]
    exact ⟨⟨hfail.matched, hquiet.trans hfail.trades, hfail.safe⟩, Or.inr hfailed⟩
  · have hmade : Trades s { s.sslNew with env := env, rbio := rbio, wbio := wbio } :=
      (trades_sslNew hdown.held_eq).trans (.same rfl rfl rfl)
    rw [heq]
    refine ⟨⟨Down.matched ⟨rfl, rfl, rfl⟩ (fun h => h.elim nofun nofun), ?_, fun _ => rfl⟩, Or.inr hfailed⟩
    exact hmade.trans ((trades_sslFree rfl).trans (.same rfl rfl rfl))
  · rw [heq]
    exact ⟨⟨Up.matched ⟨rfl, rfl, rfl⟩ (Or.inl rfl), (trades_sslNew hdown.held_eq).trans (.same rfl rfl rfl), fun _ => rfl⟩,
      Or.inl rfl⟩

/-! ### The calls -/

theorem serves_handshakeLoop (fuel : Nat) (hup : s.Up) (hphase : s.phase = .handshaking) :
    Serves calm s (handshakeLoop fuel s).2 := by
  induction fuel generalizing s with
  | zero => exact .refl (hup.matched (Or.inl hphase))
  | succ fuel ih =>
    have hcall := s.rests_sslCall
    have hlive : s.phase.Live := Or.inl hphase
    rw [handshakeLoop]
    dsimp only
    split
    · have hpump := hcall.trans (rests_pump _)
      split
      · have hserves : Serves calm s _ := hpump.serves hup hlive
        have hup' := hpump.up hup
        exact ⟨Up.matched (hup'.congr rfl rfl rfl) (Or.inr rfl), hserves.trades.trans (.same rfl rfl rfl), hserves.safe⟩
      · exact hpump.serves hup hlive
    · have hin := hcall.trans (rests_pumpIn _)
      split
      · exact hin.serves hup hlive
      · have hout := hin.trans (rests_pumpOut _)
        split
        · exact hout.serves hup hlive
        · split
          · exact (hout.serves hup hlive).trans (ih (hout.up hup) (hout.phase.trans hphase))
          · exact hout.serves hup hlive
    · have hout := hcall.trans (rests_pumpOut _)
      split
      · exact hout.serves hup hlive
      · exact (hout.serves hup hlive).trans (ih (hout.up hup) (hout.phase.trans hphase))
    · exact (hcall.serves hup hlive).trans (serves_fail (Or.inl (hcall.up hup)))

/-- A handshake without handles: `SSL_do_handshake` on a null pointer, and the stream fails. -/
theorem serves_handshake_down (hdown : s.Down) : Serves False s s.handshake.2 := by
  have hcall : s.sslCall = ({ result := .error }, (s.note .nullUse).use false) := by
    rw [sslCall, if_neg (by rw [hdown.ssl]; nofun)]
  have hfail : Serves False _ _ :=
    serves_fail (s := (s.note .nullUse).use false) (Or.inr (hdown.congr rfl rfl rfl))
  have hquiet : Trades s ((s.note .nullUse).use false) := .same rfl rfl rfl
  rw [handshake, handshakeLoop, hcall]
  exact ⟨hfail.matched, hquiet.trans hfail.trades, False.elim⟩

theorem serves_connect (hdown : s.Down) : Serves calm s s.connect.2 := by
  have hphase (env : Env) (phase : TlsPhase) (hdead : ¬ phase.Live) :
      Serves calm s { s with env := env, phase := phase } :=
    ⟨Down.matched (hdown.congr rfl rfl rfl) hdead, .same rfl rfl rfl, fun _ => rfl⟩
  unfold connect
  split
  · split
    · exact hphase _ .error (fun h => h.elim nofun nofun)
    · exact hphase _ .connectingTcp (fun h => h.elim nofun nofun)
  · exact hphase s.env .error (fun h => h.elim nofun nofun)

/-- `poll_open` from `ConnectingTcp`, once TCP is up. -/
theorem serves_beginHandshake_handshake (hdown : s.Down) :
    Serves (false ∉ s.env.allocs) s s.beginHandshake.handshake.2 := by
  obtain ⟨hserves, hphase⟩ := serves_beginHandshake (false ∉ s.env.allocs) hdown
  by_cases hlive : s.beginHandshake.phase.Live
  · rcases hlive with hshaking | hestablished
    · exact hserves.trans (serves_handshakeLoop _ (hserves.matched.up (Or.inl hshaking)) hshaking)
    · have hno : s.beginHandshake.phase ≠ .established := by
        obtain ⟨env, ⟨heq, -⟩ | ⟨rbio, wbio, heq, -⟩ | heq⟩ := s.beginHandshake_cases
        · rw [heq]; exact nofun
        · rw [heq]; exact nofun
        · rw [heq]; exact nofun
      exact absurd hestablished hno
  · have hfailed : false ∈ s.env.allocs := hphase.resolve_left fun h => hlive (Or.inl h)
    have hnull := serves_handshake_down (hserves.matched.down hlive)
    exact ⟨hnull.matched, hserves.trades.trans hnull.trades, fun hcalm => absurd hfailed hcalm⟩

theorem serves_pollOpen (h : s.Matched) : Serves (false ∉ s.env.allocs) s s.pollOpen.2 := by
  unfold pollOpen
  split
  · next hphase =>
    have hdown : s.Down := h.down (by rw [hphase]; exact fun h => h.elim nofun nofun)
    have hopens (opens : List StreamPhase) :
        Serves (false ∉ s.env.allocs) s { s with env := { s.env with opens := opens } } :=
      ⟨Down.matched (hdown.congr rfl rfl rfl) (by rw [hphase]; exact fun h => h.elim nofun nofun),
        .same rfl rfl rfl, fun _ => rfl⟩
    have hbegin (opens : List StreamPhase) : Serves (false ∉ s.env.allocs) _ _ :=
      serves_beginHandshake_handshake (s := { s with env := { s.env with opens := opens } })
        (hdown.congr rfl rfl rfl)
    dsimp only
    split
    · exact hopens _
    · exact (hopens _).trans (hbegin _)
    · exact (hopens _).trans (serves_fail (Or.inr (hdown.congr rfl rfl rfl)))
  · next hphase => exact serves_handshakeLoop _ (h.up (Or.inl hphase)) hphase
  · exact .refl h
  · exact .refl h
  · exact .refl h

theorem serves_readAgain (hup : s.Up) (hlive : s.phase.Live) : Serves calm s s.readAgain.2 := by
  have hpump := s.rests_readPump
  unfold readAgain
  dsimp only
  split
  · exact (hpump.serves hup hlive).trans (serves_fail (Or.inl (hpump.up hup)))
  · exact hpump.serves hup hlive

theorem serves_read (h : s.Matched) : Serves calm s s.read.2 := by
  unfold read
  split
  · exact .refl h
  · next hphase =>
    have hlive : s.phase.Live := Or.inr (not_not.mp hphase)
    have hup := h.up hlive
    have hpump := s.rests_readPump
    have hcall := hpump.trans (rests_sslCall _)
    have hagain {s' : TlsStream} (hrests : Rests s s') : Serves calm s s'.readAgain.2 :=
      (hrests.serves hup hlive).trans (serves_readAgain (hrests.up hup) (hrests.phase ▸ hlive))
    dsimp only
    split
    · exact (hpump.serves hup hlive).trans (serves_fail (Or.inl (hpump.up hup)))
    · split
      · exact hcall.serves hup hlive
      · have hsecond := hcall.trans (rests_sslCall _)
        split
        · split
          · exact hsecond.serves hup hlive
          · exact hagain hsecond
        · exact hagain hcall
      · exact hagain hcall
      · exact hcall.serves hup hlive
      · exact hcall.serves hup hlive

theorem serves_write (h : s.Matched) (src : List UInt8) : Serves calm s (s.write src).2 := by
  unfold write
  split
  · exact .refl h
  · next hphase =>
    have hlive : s.phase.Live := Or.inr (not_not.mp hphase)
    have hup := h.up hlive
    have hcall := s.rests_sslCall
    have hpump := hcall.trans (rests_pump _)
    have hfail : Serves calm s s.sslCall.2.pump.2.fail :=
      (hpump.serves hup hlive).trans (serves_fail (Or.inl (hpump.up hup)))
    split
    · exact .refl h
    · dsimp only
      split
      · split
        · exact hfail
        · exact hpump.serves hup hlive
      · split
        · exact hfail
        · exact hpump.serves hup hlive
      · split
        · exact hfail
        · exact hpump.serves hup hlive
      · exact hcall.serves hup hlive

theorem serves_close (h : s.Matched) : Serves calm s s.close := by
  have hdead : ¬ TlsPhase.Live .closed := fun h => h.elim nofun nofun
  by_cases hlive : s.phase.Live
  · have hup := h.up hlive
    have hrests : Rests s (if s.phase = .established then s.sslCall.2.pump.2 else s) := by
      split
      · exact s.rests_sslCall.trans (rests_pump _)
      · exact Rests.refl s
    unfold close
    rw [if_pos hup.ssl]
    generalize (if s.phase = .established then s.sslCall.2.pump.2 else s) = s₁ at hrests ⊢
    have hssl : s₁.ssl = true := (hrests.up hup).ssl
    refine ⟨Down.matched ⟨?_, ?_, ?_⟩ hdead, hrests.trades.trans ((trades_sslFree hssl).trans (.same rfl rfl rfl)),
      fun _ => ?_⟩
    · rw [sslFree, if_pos hssl]
    · rw [sslFree, if_pos hssl]
    · rw [sslFree, if_pos hssl]
    · rw [sslFree, if_pos hssl]
      exact hrests.safe hup
  · have hdown := h.down hlive
    have hsame : s.close = { s with phase := .closed } := by
      rw [close, if_neg (by rw [hdown.ssl]; nofun)]
    rw [hsame]
    exact ⟨Down.matched (hdown.congr rfl rfl rfl) hdead, .same rfl rfl rfl, fun _ => rfl⟩

end TlsStream

end Lepton.Tls

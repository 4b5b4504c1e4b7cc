import Lepton.HttpReady

/-! What the client writes: the accepted requests, one after another, each only after the response to the one
before. -/

namespace Lepton.Http

theorem length_buildHttpRequest {room : Nat} {host text : List UInt8} {r : Request}
    (h : buildHttpRequest room host r = some text) : text.length ≤ room := Ws.length_putAll (Nat.zero_le _) h

/-- With a write made after `k` responses, all that is written is of the first `k + 1` requests. -/
def Paced (requests : List (List UInt8)) (sends : List (List UInt8 × Nat)) : Prop :=
  ∀ n bytes k, sends[n]? = some (bytes, k) → (sends.take (n + 1)).flatMap Prod.fst <+: (requests.take (k + 1)).flatten

theorem Paced.nil (requests : List (List UInt8)) : Paced requests [] := nofun

/-- A prefix of the requests is made of fewer of their bytes. -/
theorem flatten_of_isPrefix {short long : List (List UInt8)} (h : short <+: long) : short.flatten <+: long.flatten := by
  obtain ⟨rest, rfl⟩ := h
  rw [List.flatten_append]
  exact List.prefix_append _ _

theorem take_snoc {α : Type} (l : List α) (a : α) : (l ++ [a]).take (l.length + 1) = l ++ [a] := by
  apply List.take_of_length_le
  rw [List.length_append]
  exact Nat.le_refl _

theorem Paced.more {requests : List (List UInt8)} {sends : List (List UInt8 × Nat)} (h : Paced requests sends)
    (text : List UInt8) : Paced (requests ++ [text]) sends := by
  intro n bytes k hn
  exact (h n bytes k hn).trans (flatten_of_isPrefix ((List.prefix_append requests [text]).take (k + 1)))

theorem Paced.snoc {requests : List (List UInt8)} {sends : List (List UInt8 × Nat)} (h : Paced requests sends)
    {bytes : List UInt8} {k : Nat} (hnew : sends.flatMap Prod.fst ++ bytes <+: (requests.take (k + 1)).flatten) :
    Paced requests (sends ++ [(bytes, k)]) := by
  intro n bytes' k' hn
  rcases Nat.lt_trichotomy n sends.length with hlt | heq | hgt
  · rw [List.getElem?_append_left hlt] at hn
    rw [List.take_append_of_le_length hlt]
    exact h n bytes' k' hn
  · subst heq
    rw [List.getElem?_append_right (Nat.le_refl _), Nat.sub_self] at hn
    cases hn
    rw [take_snoc, List.flatMap_append, List.flatMap_singleton]
    exact hnew
  · rw [List.getElem?_eq_none (by rw [List.length_append]; exact hgt)] at hn
    cases hn

namespace HttpClient

variable {cfg : ClientConfig} {s s' : HttpClient}

/-- A write is accepted for some bytes and noted, or leaves what is written. -/
theorem transportWrite_sends (s : HttpClient) (src : List UInt8) :
    (∃ k, (s.transportWrite src).1 = .accepted k ∧ (s.transportWrite src).2.output = s.output ++ src.take k ∧
        (s.transportWrite src).2.sends = s.sends ++ [(src.take k, s.responses.length)]) ∨
      (∀ k, (s.transportWrite src).1 ≠ .accepted k) ∧ (s.transportWrite src).2.output = s.output ∧
        (s.transportWrite src).2.sends = s.sends := by
  unfold transportWrite
  split
  · exact Or.inr ⟨nofun, rfl, rfl⟩
  · next r rest _ =>
    cases r with
    | accepted k => exact Or.inl ⟨k, rfl, rfl, rfl⟩
    | again => exact Or.inr ⟨nofun, rfl, rfl⟩
    | error => exact Or.inr ⟨nofun, rfl, rfl⟩

/-- What is written on the connection. -/
structure Spoken (cfg : ClientConfig) (s : HttpClient) : Prop where
  config : s.cfg = cfg
  built : List.Forall₂ (fun r text => ∃ room, buildHttpRequest room cfg.host r = some text) s.asked s.requests
  output : s.output = s.sends.flatMap Prod.fst
  paced : Paced s.requests s.sends

/-- The last request is written up to the send offset, and the others are answered. -/
structure Underway (s : HttpClient) (earlier : List (List UInt8)) : Prop where
  requests : s.requests = earlier ++ [s.send.bytes]
  output : s.output = earlier.flatten ++ s.send.bytes.take s.sendOff
  responses : s.responses.length = earlier.length

/-- Where a client stands with what it writes. -/
structure Stands (s : HttpClient) : Prop where
  send : s.state.Live → s.send.Fits
  backed : s.state.Live → s.recv.Backed
  fresh : s.state = .connecting → Fresh s
  idle : s.state = .idle → s.send.bytes = [] ∧ s.output = s.requests.flatten ∧ s.responses.length = s.requests.length
  sending : s.state = .sending → s.recv.Fits ∧ ∃ earlier, Underway s earlier
  receiving : s.state = .receiving →
    s.recv.Fits ∧ s.output = s.requests.flatten ∧ s.requests.length = s.responses.length + 1

/-- Both are kept. -/
def Speaks (cfg : ClientConfig) (s s' : HttpClient) : Prop := Spoken cfg s ∧ Stands s → Spoken cfg s' ∧ Stands s'

theorem Spoken.same (h : Spoken cfg s) (hcfg : s'.cfg = s.cfg) (hasked : s'.asked = s.asked)
    (hrequests : s'.requests = s.requests) (houtput : s'.output = s.output) (hsends : s'.sends = s.sends) : Spoken cfg s' := by
  refine ⟨hcfg.trans h.config, ?_, ?_, ?_⟩
  · rw [hasked, hrequests]
    exact h.built
  · rw [houtput, hsends]
    exact h.output
  · rw [hrequests, hsends]
    exact h.paced

theorem spoken_blank (hcfg : s.cfg = cfg) (hasked : s.asked = []) (hrequests : s.requests = []) (houtput : s.output = [])
    (hsends : s.sends = []) : Spoken cfg s := by
  refine ⟨hcfg, ?_, ?_, ?_⟩
  · rw [hasked, hrequests]
    exact .nil
  · rw [houtput, hsends]
    rfl
  · rw [hsends]
    exact Paced.nil _

theorem Parked.spoken (h : Parked s s') (hs : Spoken cfg s) : Spoken cfg s' := by
  obtain ⟨env, rfl⟩ | hgone := h
  · exact hs.same rfl rfl rfl rfl rfl
  · rcases hgone.history with ⟨hasked, hreq, -, hout, hsends, -⟩ | ⟨hasked, hreq, -, hout, hsends, -⟩
    · exact hs.same hgone.cfg hasked hreq hout hsends
    · exact spoken_blank (hgone.cfg.trans hs.config) hasked hreq hout hsends

theorem stands_ended (h : ¬ s.state.Live) : Stands s where
  send hlive := absurd hlive h
  backed hlive := absurd hlive h
  fresh hs := absurd (hs ▸ by decide) h
  idle hs := absurd (hs ▸ by decide) h
  sending hs := absurd (hs ▸ by decide) h
  receiving hs := absurd (hs ▸ by decide) h

theorem Fresh.stands (h : Fresh s) : Stands s where
  send _ := h.send.1
  backed _ := ⟨h.recv.1.backed, h.recv.1.small⟩
  fresh _ := h
  idle hs := absurd (h.state.symm.trans hs) nofun
  sending hs := absurd (h.state.symm.trans hs) nofun
  receiving hs := absurd (h.state.symm.trans hs) nofun

theorem Fresh.spoken (h : Fresh s) (hcfg : s.cfg = cfg) : Spoken cfg s :=
  spoken_blank hcfg h.asked h.requests h.output h.sends

/-- The client fails, with what it has written so far. -/
theorem failed_speaks (h : Withheld s.shutDown → Parked s.shutDown s') (hs : Spoken cfg s) : Spoken cfg s' ∧ Stands s' := by
  have hparked := h ⟨nofun, nofun⟩
  refine ⟨hparked.spoken (hs.same rfl rfl rfl rfl rfl), ?_⟩
  obtain ⟨env, rfl⟩ | hgone := hparked
  · exact stands_ended not_live_failed
  · exact hgone.state.elim stands_ended Fresh.stands

theorem Underway.kept {earlier : List (List UInt8)} (h : Underway s earlier) (hs : Spoken cfg s) (hcfg : s'.cfg = s.cfg)
    (hasked : s'.asked = s.asked) (hrequests : s'.requests = s.requests) (hresponses : s'.responses = s.responses)
    (hsend : s'.send = s.send) (hoff : s'.sendOff = s.sendOff) (houtput : s'.output = s.output)
    (hsends : s'.sends = s.sends) : Underway s' earlier ∧ Spoken cfg s' := by
  refine ⟨⟨?_, ?_, ?_⟩, hs.same hcfg hasked hrequests houtput hsends⟩
  · rw [hrequests, hsend]
    exact h.requests
  · rw [houtput, hsend, hoff]
    exact h.output
  · rw [hresponses]
    exact h.responses

/-- A turn of the writing loop. -/
theorem Underway.written {earlier : List (List UInt8)} {k : Nat} (h : Underway s earlier) (hs : Spoken cfg s)
    (hcfg : s'.cfg = s.cfg) (hasked : s'.asked = s.asked) (hrequests : s'.requests = s.requests)
    (hresponses : s'.responses = s.responses) (hsend : s'.send = s.send) (hoff : s'.sendOff = s.sendOff + k)
    (houtput : s'.output = s.output ++ (s.send.bytes.drop s.sendOff).take k)
    (hsends : s'.sends = s.sends ++ [((s.send.bytes.drop s.sendOff).take k, s.responses.length)]) :
    Underway s' earlier ∧ Spoken cfg s' := by
  have hout : s'.output = earlier.flatten ++ s'.send.bytes.take s'.sendOff := by
    rw [houtput, h.output, hsend, hoff, List.take_add, List.append_assoc]
  refine ⟨⟨by rw [hrequests, hsend, h.requests], hout, by rw [hresponses, h.responses]⟩, ⟨hcfg.trans hs.config, ?_, ?_, ?_⟩⟩
  · rw [hasked, hrequests]
    exact hs.built
  · rw [houtput, hsends, hs.output, List.flatMap_append, List.flatMap_singleton]
  · rw [hsends, hrequests]
    refine hs.paced.snoc ?_
    rw [← hs.output, ← houtput, hout, hsend, h.responses]
    have hall : s.requests.take (earlier.length + 1) = earlier ++ [s.send.bytes] := by
      rw [h.requests, take_snoc]
    rw [hall, List.flatten_append, List.flatten_singleton]
    exact (List.prefix_append_right_inj _).mpr (List.take_prefix _ _)

/-- The writing loop goes on with the open request, and ends with all of it written if it says so. -/
theorem underway_flushLoop {n : Nat} {how : Sending} {earlier : List (List UInt8)} (h : flushLoop n s = (how, s'))
    (hunder : Underway s earlier) (hs : Spoken cfg s) :
    Underway s' earlier ∧ Spoken cfg s' ∧ (how = .sent → s'.send.len ≤ s'.sendOff) := by
  induction n generalizing s with
  | zero =>
    cases h
    exact ⟨hunder, hs, fun h => by cases h⟩
  | succ n ih =>
    rw [flushLoop] at h
    split at h
    · have hsends := s.transportWrite_sends (s.send.bytes.drop s.sendOff)
      split at h
      · next s₁ hwrite =>
        rw [hwrite] at hsends
        obtain ⟨writes, output, sends, rfl⟩ := transportWrite_eq hwrite
        obtain ⟨k, hk, -⟩ | ⟨-, hout, hsends⟩ := hsends
        · cases hk
        obtain ⟨interest, armed, harm, -⟩ := arm_eq _ true
        rw [harm] at h
        cases h
        exact and_assoc.mp ⟨hunder.kept hs rfl rfl rfl rfl rfl rfl hout hsends, fun h => by cases h⟩
      · next s₁ hwrite =>
        rw [hwrite] at hsends
        obtain ⟨writes, output, sends, rfl⟩ := transportWrite_eq hwrite
        cases h
        obtain ⟨k, hk, -⟩ | ⟨-, hout, hsends⟩ := hsends
        · cases hk
        exact and_assoc.mp ⟨hunder.kept hs rfl rfl rfl rfl rfl rfl hout hsends, fun h => by cases h⟩
      · next k s₁ hwrite =>
        rw [hwrite] at hsends
        obtain ⟨writes, output, sends, rfl⟩ := transportWrite_eq hwrite
        obtain ⟨k', hk, hout, hsends⟩ | ⟨hne, -, -⟩ := hsends
        · cases hk
          exact and_imp.mpr (ih h) (hunder.written hs rfl rfl rfl rfl rfl rfl hout hsends)
        · exact absurd rfl (hne k)
    · next hdone =>
      cases h
      obtain ⟨interest, armed, harm, -⟩ := ({ s with state := .receiving } : HttpClient).arm_eq false
      rw [harm]
      exact ⟨⟨hunder.requests, hunder.output, hunder.responses⟩, hs.same rfl rfl rfl rfl rfl, fun _ => Nat.le_of_not_lt hdone⟩

theorem speaks_flushLoop {n : Nat} {how : Sending} (hs : s.state = .sending) (h : flushLoop n s = (how, s')) :
    Speaks cfg s s' := by
  rintro ⟨hspoken, hstands⟩
  obtain ⟨hrecvFits, earlier, hunder⟩ := hstands.sending hs
  have hfits := hstands.send (hs ▸ by decide)
  obtain ⟨hunder', hspoken', hdone⟩ := underway_flushLoop h hunder hspoken
  obtain ⟨writes, output, sends, wire, sendOff, interest, armed, heq, -, -⟩ := flushLoop_eq h
  have hstate : s'.state = if how = .sent then .receiving else .sending := by rw [heq, ← hs]
  have hsend : s'.send = s.send := by rw [heq]
  have hrecv : s'.recv = s.recv := by rw [heq]
  refine ⟨hspoken', fun _ => hsend ▸ hfits, fun _ => hrecv ▸ ⟨hrecvFits.backed, hrecvFits.small⟩, fun hc => ?_,
    fun hi => ?_, fun _ => ⟨hrecv ▸ hrecvFits, earlier, hunder'⟩, fun hr => ⟨hrecv ▸ hrecvFits, ?_⟩⟩
  · rw [hstate] at hc
    split at hc
    · cases hc
    · cases hc
  · rw [hstate] at hi
    split at hi
    · cases hi
    · cases hi
  · rw [hstate] at hr
    split at hr
    · next hsent =>
      have hlen : s'.send.bytes.length ≤ s'.sendOff := by
        rw [hsend, hfits.length_bytes, ← hsend]
        exact hdone hsent
      refine ⟨?_, ?_⟩
      · rw [hunder'.output, hunder'.requests, List.take_of_length_le hlen, List.flatten_append, List.flatten_singleton]
      · rw [hunder'.requests, hunder'.responses, List.length_append]
        rfl
    · cases hr

theorem recvTurn_unwritten {t : RecvTurn} (h : s.recvTurn = (t, s')) :
    s'.cfg = s.cfg ∧ s'.state = s.state ∧ s'.send = s.send ∧ s'.asked = s.asked ∧ s'.requests = s.requests ∧
      s'.responses = s.responses ∧ s'.output = s.output ∧ s'.sends = s.sends := by
  obtain ⟨reads, input, wire, recv, faults, lost, rfl, -⟩ := recvTurn_eq h
  exact ⟨rfl, rfl, rfl, rfl, rfl, rfl, rfl, rfl⟩

theorem speaks_recvTurn {t : RecvTurn} (hs : s.state = .receiving) (h : s.recvTurn = (t, s')) : Speaks cfg s s' := by
  obtain ⟨hcfg, hstate, hsend, hasked, hrequests, hresponses, houtput, hsends⟩ := recvTurn_unwritten h
  rintro ⟨hspoken, hstands⟩
  rw [hs] at hstate
  obtain ⟨hrecvFits, hout⟩ := hstands.receiving hs
  obtain ⟨hfits, -, -⟩ := fits_recvTurn h hrecvFits
  refine ⟨hspoken.same hcfg hasked hrequests houtput hsends, ⟨fun _ => ?_, fun _ => ⟨hfits.backed, hfits.small⟩,
    fun hc => ?_, fun hi => ?_, fun hc => ?_, fun _ => ⟨hfits, ?_⟩⟩⟩
  · rw [hsend]
    exact hstands.send (hs ▸ by decide)
  · exact absurd (hstate.symm.trans hc) nofun
  · exact absurd (hstate.symm.trans hi) nofun
  · exact absurd (hstate.symm.trans hc) nofun
  · rw [hrequests, hresponses, houtput]
    exact hout

/-- The response is complete, and so is what has been written for it. -/
theorem spoken_deliver {s₁ : HttpClient} {r : HttpResponseView} (hspoken : Spoken cfg s)
    (h : s.recvTurn = (.complete r, s₁)) : Spoken cfg (s₁.deliver r) := by
  obtain ⟨hcfg, -, -, hasked, hrequests, -, houtput, hsends⟩ := recvTurn_unwritten h
  exact hspoken.same hcfg hasked hrequests houtput hsends

/-- The idle client behind a response, with all of its requests written. -/
theorem stands_idle {recv : IoBuffer} {faults : Nat} (hfits : s.send.Fits) (hrecv : recv.Backed)
    (houtput : s.output = s.requests.flatten) (hanswered : s.responses.length = s.requests.length) :
    Stands { s with recv := recv, faults := faults, send := s.send.reset 0, sendOff := 0, state := .idle } :=
  ⟨fun _ => IoBuffer.Backed.reset ⟨hfits.backed, hfits.small⟩, fun _ => hrecv, nofun,
    fun _ => ⟨IoBuffer.bytes_reset _ _, houtput, hanswered⟩, nofun, nofun⟩

theorem speaks_rested {s₁ : HttpClient} {r : HttpResponseView} (hs : s.state = .receiving)
    (hturn : s.recvTurn = (.complete r, s₁)) (h : Withheld (s₁.deliver r) → Parked (s₁.deliver r) s')
    (hlive : s'.state.Live) : Speaks cfg s ((s'.note (.completed s'.state)).rest r.consumed) := by
  obtain ⟨-, hparked⟩ := parked_deliver hs hturn h
  obtain ⟨-, -, hsend, -, hrequests, hresponses, houtput, -⟩ := recvTurn_unwritten hturn
  rintro ⟨hspoken, hstands⟩
  have hspoken' : Spoken cfg s' := hparked.spoken (spoken_deliver hspoken hturn)
  obtain ⟨hrecvFits, hout, hpending⟩ := hstands.receiving hs
  obtain ⟨hfits, -, hconsumed⟩ := fits_recvTurn hturn hrecvFits
  obtain ⟨env, hsame⟩ | hgone := hparked
  -- the response still lies in the buffer
  · obtain ⟨recv, hrecv, -, hrest⟩ := rest_eq (s := s'.note (.completed s'.state)) (n := r.consumed)
      (by rw [hsame]; exact hfits) (by rw [hsame]; exact hconsumed r rfl)
    rw [hrest]
    refine ⟨hspoken'.same rfl rfl rfl rfl rfl, stands_idle ?_ ⟨hrecv.backed, hrecv.small⟩ ?_ ?_⟩
    · change s'.send.Fits
      rw [hsame]
      change s₁.send.Fits
      rw [hsend]
      exact hstands.send (hs ▸ by decide)
    · change s'.output = s'.requests.flatten
      rw [hsame]
      change s₁.output = s₁.requests.flatten
      rw [houtput, hrequests]
      exact hout
    · change s'.responses.length = s'.requests.length
      rw [hsame]
      change (s₁.responses ++ [_]).length = s₁.requests.length
      rw [List.length_append, hresponses, hrequests]
      exact hpending.symm
  · have hfresh : Fresh s' := hgone.state.resolve_left fun hdead => hdead hlive
    rcases (s'.note (.completed s'.state)).rest_cases r.consumed with ⟨recv, faults, hrest, -, hbacked⟩ | ⟨faults, hrest⟩
    · rw [hrest]
      refine ⟨hspoken'.same rfl rfl rfl rfl rfl,
        stands_idle hfresh.send.1 (hbacked ⟨hfresh.recv.1.backed, hfresh.recv.1.small⟩) ?_ ?_⟩
      · change s'.output = s'.requests.flatten
        rw [hfresh.output, hfresh.requests]
        rfl
      · change s'.responses.length = s'.requests.length
        rw [hfresh.responses, hfresh.requests]
        rfl
    · rw [hrest]
      refine ⟨hspoken'.same rfl rfl rfl rfl rfl, Fresh.stands ?_⟩
      exact { hfresh with }

theorem speaks_submit {r : Request} {text : List UInt8} (hidle : s.state = .idle)
    (hbuilt : buildHttpRequest s.send.tailroom s.cfg.host r = some text) : Speaks cfg s ((s.asks r).submit text) := by
  rintro ⟨hspoken, hstands⟩
  obtain ⟨hempty, hout, hanswered⟩ := hstands.idle hidle
  obtain ⟨hfits, hbytes⟩ := (hstands.send (hidle ▸ by decide)).append (length_buildHttpRequest hbuilt)
  rw [hempty, List.nil_append] at hbytes
  have hbacked := hstands.backed (hidle ▸ by decide)
  rw [hspoken.config] at hbuilt
  obtain ⟨clocks, t, heq⟩ := (s.asks r).submit_eq text
  rw [heq]
  refine ⟨⟨hspoken.config, ?_, hspoken.output, hspoken.paced.more text⟩, ⟨fun _ => hfits,
    fun _ => ⟨hbacked.size, hbacked.small⟩, nofun, nofun, fun _ => ⟨hbacked.reset, s.requests, ⟨?_, ?_, hanswered⟩⟩, nofun⟩⟩
  · exact List.rel_append hspoken.built (.cons ⟨_, hbuilt⟩ .nil)
  · change s.requests ++ [text] = s.requests ++ [(s.send.append text).bytes]
    rw [hbytes]
  · change s.output = s.requests.flatten ++ (s.send.append text).bytes.take 0
    rw [List.take_zero, List.append_nil]
    exact hout

theorem speaks_same (hcfg : s'.cfg = s.cfg) (hstate : s'.state = s.state) (hsend : s'.send = s.send)
    (hoff : s'.sendOff = s.sendOff) (hrecv : s'.recv = s.recv) (hasked : s'.asked = s.asked)
    (hrequests : s'.requests = s.requests) (hresponses : s'.responses = s.responses) (houtput : s'.output = s.output)
    (hsends : s'.sends = s.sends) (hinput : s'.input = s.input) : Speaks cfg s s' := by
  rintro ⟨hspoken, hstands⟩
  refine ⟨hspoken.same hcfg hasked hrequests houtput hsends, ⟨fun hlive => ?_, fun hlive => ?_, fun hc => ?_, fun hi => ?_,
    fun hc => ?_, fun hr => ?_⟩⟩
  · rw [hsend]
    exact hstands.send (hstate ▸ hlive)
  · rw [hrecv]
    exact hstands.backed (hstate ▸ hlive)
  · have hfresh := hstands.fresh (hstate ▸ hc)
    refine ⟨hc, hsend ▸ hfresh.send, hrecv ▸ hfresh.recv, ?_, ?_, ?_, ?_, ?_, ?_⟩
    · rw [hasked, hfresh.asked]
    · rw [hrequests, hfresh.requests]
    · rw [hresponses, hfresh.responses]
    · rw [houtput, hfresh.output]
    · rw [hsends, hfresh.sends]
    · rw [hinput, hfresh.input]
  · rw [hsend, houtput, hrequests, hresponses]
    exact hstands.idle (hstate ▸ hi)
  · obtain ⟨hfits, earlier, hunder⟩ := hstands.sending (hstate ▸ hc)
    exact ⟨hrecv ▸ hfits, earlier, (hunder.kept hspoken hcfg hasked hrequests hresponses hsend hoff houtput hsends).1⟩
  · rw [hrecv, houtput, hrequests, hresponses]
    exact hstands.receiving (hstate ▸ hr)

theorem steps_speaks (cfg : ClientConfig) : Steps (fun s s' => Withheld s → Parked s s') (Speaks cfg) where
  refl _ := id
  trans h h' := fun hs => h' (h hs)
  expired h h' := by
    obtain ⟨⟨clocks, rfl⟩, -⟩ := deadlinePassed_eq h
    exact fun hs => failed_speaks h' (hs.1.same rfl rfl rfl rfl rfl)
  unexpired h := by
    obtain ⟨⟨clocks, rfl⟩, -⟩ := deadlinePassed_eq h
    exact speaks_same rfl rfl rfl rfl rfl rfl rfl rfl rfl rfl rfl
  refused h h' := by
    obtain ⟨env, send, recv, deadline, armed, fd, linked, wire, interest, pool, rfl, -⟩ := tryDial_false h
    exact fun hs => failed_speaks h' (hs.1.same rfl rfl rfl rfl rfl)
  dialed h := fun hs =>
    ⟨(fresh_dialed h).1.spoken ((gone_dialed h).cfg.trans hs.1.config), (fresh_dialed h).1.stands⟩
  submit hidle hbuilt := speaks_submit hidle hbuilt
  blocked hs h := speaks_flushLoop hs h
  sent hs h := speaks_flushLoop hs h
  unsent hs h h' := fun hall => failed_speaks h' (speaks_flushLoop hs h hall).1
  stop hs h := speaks_recvTurn hs h
  more hs h := speaks_recvTurn hs h
  broken hs h h' := fun hall => failed_speaks h' (speaks_recvTurn hs h hall).1
  answered hs h h' hended := by
    obtain ⟨-, hparked⟩ := parked_deliver hs h h'
    exact fun hall => ⟨hparked.spoken (spoken_deliver hall.1 h), stands_ended hended⟩
  rested hs h h' hlive := speaks_rested hs h h' hlive
  polled h := by
    obtain ⟨opens, rfl⟩ := transportPollOpen_eq h
    exact speaks_same rfl rfl rfl rfl rfl rfl rfl rfl rfl rfl rfl
  unopened _ h _ h' := by
    obtain ⟨opens, rfl⟩ := transportPollOpen_eq h
    exact fun hs => failed_speaks h' (hs.1.same rfl rfl rfl rfl rfl)
  opened {s s'} hs h := by
    obtain ⟨opens, interest, armed, heq, -⟩ := opened_eq h
    rw [heq]
    rintro ⟨hspoken, hstands⟩
    have hfresh := hstands.fresh hs
    refine ⟨hspoken.same rfl rfl rfl rfl rfl, ⟨fun _ => hfresh.send.1,
      fun _ => ⟨hfresh.recv.1.backed, hfresh.recv.1.small⟩, nofun, fun _ => ⟨hfresh.send.2, ?_, ?_⟩, nofun, nofun⟩⟩
    · change s.output = s.requests.flatten
      rw [hfresh.output, hfresh.requests]
      rfl
    · change s.responses.length = s.requests.length
      rw [hfresh.responses, hfresh.requests]
      rfl
  close s := fun hs => ⟨hs.1.same rfl rfl rfl rfl rfl, stands_ended not_live_disconnected⟩

theorem spoken_run (cfg : ClientConfig) (depth : Nat) (calls : List (Api × Env)) :
    Spoken cfg (run depth (freshClient cfg) calls) ∧ Stands (run depth (freshClient cfg) calls) := by
  have hrun := keeps_run (steps_speaks cfg) (parked_callbacks depth)
    (fun _ _ => speaks_same rfl rfl rfl rfl rfl rfl rfl rfl rfl rfl rfl) (freshClient cfg) calls
  exact hrun ⟨spoken_blank rfl rfl rfl rfl rfl, stands_ended not_live_disconnected⟩

/-- A request that is refused. -/
theorem request_refused {cb : Callbacks} {r : Request} (h : (request cb s r).1 ≠ .ok) : (request cb s r).2 = s := by
  unfold request at h ⊢
  split
  · rfl
  · next hidle =>
    rw [if_neg hidle] at h
    split
    · rfl
    · next text htext =>
      rw [htext] at h
      exact absurd rfl h

theorem Spoken.isPrefix (h : Spoken cfg s) : s.output <+: s.requests.flatten := by
  rw [h.output]
  cases hlast : s.sends.getLast? with
  | none =>
    rw [List.getLast?_eq_none_iff.mp hlast]
    exact List.nil_prefix
  | some last =>
    obtain ⟨earlier, hsends⟩ := List.getLast?_eq_some_iff.mp hlast
    have hpaced := h.paced earlier.length last.1 last.2 (by rw [hsends]; exact List.getElem?_concat_length)
    rw [hsends, take_snoc, ← hsends] at hpaced
    exact hpaced.trans (flatten_of_isPrefix (List.take_prefix _ _))

/-- What the client has written on its connection: the requests of the user that it has accepted, in order, and none of
their bytes before the response to the request before. -/
structure WritesRequests (host : List UInt8) (s : HttpClient) : Prop where
  /-- What is built is the request of the user, one for each call that returned Ok. -/
  built : List.Forall₂ (fun r text => ∃ room, buildHttpRequest room host r = some text) s.asked s.requests
  accepted : s.output = s.sends.flatMap Prod.fst
  inOrder : s.output <+: s.requests.flatten
  paced : Paced s.requests s.sends

/-- **The client writes its requests, one at a time**; and a request that it refuses changes nothing. -/
theorem writes_requests (cfg : ClientConfig) (depth : Nat) (calls : List (Api × Env)) :
    WritesRequests cfg.host (run depth (freshClient cfg) calls) ∧
      ∀ (s : HttpClient) (cb : Callbacks) (r : Request), (request cb s r).1 ≠ .ok → (request cb s r).2 = s := by
  obtain ⟨hspoken, -⟩ := spoken_run cfg depth calls
  exact ⟨⟨hspoken.built, hspoken.output, hspoken.isPrefix, hspoken.paced⟩, fun _ _ _ h => request_refused h⟩

end HttpClient

/-- A request with a header and a body. -/
def order : Request := { method := .post, path := ascii "/order", headerLines := [ascii "X-Key: 1"], body := ascii "hi" }

/-- A response is awaited, an order is sent in two pieces, and the transport is full; one more request is refused. -/
def ordering : List (Api × Env) :=
  exchange [[greeting.encode]] ++
    [(.act (.request order), { writes := [.accepted 13, .accepted 20, .again] }), (.act (.request {}), ({} : Env))]

theorem ordering_writes_requests :
    let s := HttpClient.run 1 (freshClient smallConfig) ordering
    s.asked = [{}, order] ∧ (s.sends.map fun w => (w.1.length, w.2)) = [(26, 0), (13, 1), (20, 1)] ∧
      HttpClient.WritesRequests [] s ∧ (HttpClient.request (HttpClient.callbacks 1) s order).2 = s := by
  intro s
  obtain ⟨hwrites, hrefused⟩ := HttpClient.writes_requests smallConfig 1 ordering
  exact ⟨by decide, by decide, hwrites, hrefused s _ _ (by decide)⟩

end Lepton.Http

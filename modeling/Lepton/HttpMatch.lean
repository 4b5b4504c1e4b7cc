import Lepton.HttpReply
import Lepton.HttpAside

/-! Requests and responses of a keep-alive connection. As long as every request is made over an empty receive
buffer and `on_response` does not connect anew, the responses delivered are those of the stream, one for each
request and in order, however the stream is cut into reads; and every byte received behind them is in the receive
buffer. A request that finds left-over bytes in the receive buffer drops them. -/

namespace Lepton.Http

/-- The event is one of a client whose requests find no left-over bytes, and whose `on_response` leaves it in
place. -/
def Ev.Orderly : Ev → Prop
  | .requested leftover => leftover = []
  | .completed st => st = .receiving
  | .dialed _ | .added _ => True

instance : DecidablePred Ev.Orderly
  | .requested leftover => inferInstanceAs (Decidable (leftover = []))
  | .completed st => inferInstanceAs (Decidable (st = .receiving))
  | .dialed _ | .added _ => isTrue trivial

namespace HttpClient

variable {Rs : List Reply} {s s' : HttpClient}

/-- The responses of the stream that have been delivered are those to the first requests. -/
structure Answered (Rs : List Reply) (s : HttpClient) : Prop where
  answers : s.responses = (Rs.take s.responses.length).map Reply.answer
  requested : s.responses.length ≤ s.requests.length

/-- What has been received and not delivered is in the receive buffer. -/
structure Reads (Rs : List Reply) (s : HttpClient) : Prop where
  fits : s.recv.Fits
  bytes : s.input = (Rs.take s.responses.length).flatMap Reply.encode ++ s.recv.bytes

/-- The next response has not been received in full. -/
def Awaits (Rs : List Reply) (s : HttpClient) : Prop :=
  ∀ R, Rs[s.responses.length]? = some R → s.recv.bytes.length < R.encode.length

/-- A live connection: one request is open while it is sent and answered, and none otherwise. -/
structure Held (Rs : List Reply) (s : HttpClient) : Prop extends Reads Rs s where
  pending : s.requests.length
    = s.responses.length + if s.state = .sending ∨ s.state = .receiving then 1 else 0
  unread : s.state = .sending → s.recv.bytes = []
  awaits : s.state = .receiving → Awaits Rs s

/-- Of every stream of responses that the input is a part of. -/
def OnStream (P : List Reply → HttpClient → Prop) (s : HttpClient) : Prop :=
  ∀ Rs : List Reply, (∀ R ∈ Rs, R.SizesFit) → s.input <+: Rs.flatMap Reply.encode → P Rs s

/-- The invariant of a connection. -/
def Matching (s : HttpClient) : Prop := OnStream (fun Rs s => Answered Rs s ∧ (s.state.Live → Held Rs s)) s

theorem Matching.answered (h : Matching s) : OnStream Answered s := fun Rs hsizes hinput => (h Rs hsizes hinput).1

/-! ### Reading -/

/-- The parser on a buffer at the front of a stream: it waits while the first response is incomplete, and
otherwise returns it. -/
theorem parse_cases (hfits : s.recv.Fits) (hsizes : ∀ R ∈ Rs, R.SizesFit)
    (hfront : s.recv.bytes <+: Rs.flatMap Reply.encode) :
    (∃ recv, s.parse = (.waiting, { s with recv := recv }) ∧ recv.Fits ∧ recv.bytes = s.recv.bytes ∧
      ∀ R, Rs.head? = some R → s.recv.bytes.length < R.encode.length) ∨
    ∃ R rest r recv, Rs = R :: rest ∧ s.parse = (.complete r, { s with recv := recv }) ∧ recv.Fits ∧
      R.encode.length ≤ s.recv.bytes.length ∧ R.ReadFrom s.recv.bytes r recv.bytes := by
  have hsmall : s.recv.bytes.length < 2 ^ 63 := by
    have := hfits.length_bytes
    have := hfits.inside
    have := hfits.small
    omega
  have hwaits {r : HttpResponseView}
      (hparse : parseHttpResponse (s.recv.bytes.length + 1) s.recv.bytes = .ret r s.recv.bytes) (hr : r.complete = false) :
      ∃ recv, s.parse = (.waiting, { s with recv := recv }) ∧ recv.Fits ∧ recv.bytes = s.recv.bytes := by
    obtain ⟨hfits', hbytes'⟩ := hfits.rewrite (f := fun _ => s.recv.bytes) rfl
    refine ⟨s.recv.rewrite fun _ => s.recv.bytes, ?_, hfits', hbytes'⟩
    rw [parse, hparse]
    dsimp only
    rw [hr]
    rfl
  cases Rs with
  | nil =>
    have hnil : s.recv.bytes = [] := List.prefix_nil.mp hfront
    left
    obtain ⟨recv, hparse, hfits', hbytes'⟩ := hwaits (r := {}) (by rw [hnil]; rfl) rfl
    exact ⟨recv, hparse, hfits', hbytes', nofun⟩
  | cons R rest =>
    rw [List.flatMap_cons] at hfront
    obtain ⟨hshort, hfull⟩ := R.read (hsizes R List.mem_cons_self) hfront hsmall
    by_cases hlen : s.recv.bytes.length < R.encode.length
    · left
      obtain ⟨r, hparse, hr⟩ := hshort hlen
      obtain ⟨recv, hparse, hfits', hbytes'⟩ := hwaits hparse hr
      refine ⟨recv, hparse, hfits', hbytes', fun R' hR' => ?_⟩
      cases hR'
      exact hlen
    · right
      obtain ⟨r, buf, hparse, hread⟩ := hfull (by omega)
      obtain ⟨hfits', hbytes'⟩ := hfits.rewrite (f := fun _ => buf) hread.length
      refine ⟨R, rest, r, s.recv.rewrite fun _ => buf, rfl, ?_, hfits', by omega, ?_⟩
      · rw [parse, hparse]
        dsimp only
        rw [hread.complete]
        rfl
      · rw [hbytes']
        exact hread

/-- What a turn of the receiving loop leaves behind, by the way it ends. -/
def Turned (Rs : List Reply) (s : HttpClient) : RecvTurn → Prop
  | .stop | .more => Reads Rs s ∧ Awaits Rs s
  | .broken => True
  | .complete r => ∃ R, Rs[s.responses.length]? = some R ∧ (r.status, r.bodyBytes s.recv.bytes) = R.answer ∧
      s.recv.Fits ∧ r.consumed ≤ s.recv.len ∧
      s.input = (Rs.take (s.responses.length + 1)).flatMap Reply.encode ++ s.recv.bytes.drop r.consumed

/-- The bytes of a live connection are at the front of what is left of the stream. -/
theorem Reads.front (h : Reads Rs s) (hinput : s.input <+: Rs.flatMap Reply.encode) :
    s.recv.bytes <+: (Rs.drop s.responses.length).flatMap Reply.encode := by
  have hsplit : Rs.flatMap Reply.encode
      = (Rs.take s.responses.length).flatMap Reply.encode ++ (Rs.drop s.responses.length).flatMap Reply.encode := by
    rw [← List.flatMap_append, List.take_append_drop]
  rw [h.bytes, hsplit] at hinput
  exact (List.prefix_append_right_inj _).mp hinput

theorem turned_recvParse (hsizes : ∀ R ∈ Rs, R.SizesFit) (h : Reads Rs s)
    (hinput : s.input <+: Rs.flatMap Reply.encode) (eof : Bool) :
    Turned Rs (s.recvParse eof).2 (s.recvParse eof).1 := by
  rcases parse_cases h.fits (fun R hR => hsizes R (List.mem_of_mem_drop hR)) (h.front hinput) with
    ⟨recv, hparse, hfits, hbytes, hnext⟩ | ⟨R, rest, r, recv, hdrop, hparse, hfits, hlen, hread⟩
  · have hreads : Reads Rs { s with recv := recv } := ⟨hfits, by rw [h.bytes, ← hbytes]⟩
    have hawaits : Awaits Rs { s with recv := recv } := by
      intro R hR
      change recv.bytes.length < _
      rw [hbytes]
      refine hnext R ?_
      rw [List.head?_drop]
      exact hR
    rw [recvParse, hparse]
    cases eof with
    | true => trivial
    | false => exact ⟨hreads, hawaits⟩
  · have hget : Rs[s.responses.length]? = some R := by
      rw [← List.head?_drop, hdrop]
      rfl
    rw [recvParse, hparse]
    refine ⟨R, hget, ?_, hfits, ?_, ?_⟩
    · change (r.status, r.bodyBytes recv.bytes) = _
      rw [hread.status, hread.body]
      rfl
    · change r.consumed ≤ recv.len
      have hlength := hread.length
      rw [hfits.length_bytes] at hlength
      rw [hread.consumed, hlength]
      exact hlen
    · change s.input = (Rs.take (s.responses.length + 1)).flatMap Reply.encode ++ recv.bytes.drop r.consumed
      obtain ⟨tail, htail⟩ : R.encode <+: s.recv.bytes := by
        have hfront := h.front hinput
        rw [hdrop, List.flatMap_cons] at hfront
        exact List.prefix_of_prefix_length_le (List.prefix_append _ _) hfront hlen
      rw [h.bytes, hread.consumed, hread.behind, ← htail, List.drop_left, List.take_add_one, hget,
        List.flatMap_append, List.append_assoc, Option.toList_some, List.flatMap_singleton]

theorem recvParse_input (s : HttpClient) (eof : Bool) : (s.recvParse eof).2.input = s.input := by
  obtain ⟨recv, lost, h⟩ := s.parse_snd
  rw [recvParse_snd, h]

theorem turned_recvTurn (hsizes : ∀ R ∈ Rs, R.SizesFit) (h : Reads Rs s) (hawaits : Awaits Rs s)
    (hinput : s.recvTurn.2.input <+: Rs.flatMap Reply.encode) : Turned Rs s.recvTurn.2 s.recvTurn.1 := by
  unfold recvTurn at hinput ⊢
  split
  · trivial
  · next hroom =>
    rw [if_neg hroom] at hinput
    obtain ⟨reads, ⟨bytes, hlen, hread⟩ | ⟨r, hr, hread⟩⟩ := s.transportRead_cases s.recv.tailroom
    · rw [hread] at hinput ⊢
      dsimp only at hinput ⊢
      split
      · next hnil =>
        rw [if_pos hnil, recvParse_input] at hinput
        refine turned_recvParse hsizes ?_ hinput true
        refine ⟨h.fits, ?_⟩
        change s.input ++ bytes = _
        rw [hnil, List.append_nil]
        exact h.bytes
      · next hsome =>
        rw [if_neg hsome, recvParse_input] at hinput
        obtain ⟨hfits, hbytes⟩ := h.fits.append hlen
        refine turned_recvParse hsizes ?_ hinput false
        refine ⟨hfits, ?_⟩
        change s.input ++ bytes = _ ++ (s.recv.append bytes).bytes
        rw [hbytes, h.bytes, List.append_assoc]
        rfl
    · rw [hread]
      rcases hr with rfl | rfl
      · exact ⟨⟨h.fits, h.bytes⟩, hawaits⟩
      · trivial

/-- The connection is as it was. -/
structure Unmoved (s s' : HttpClient) : Prop where
  state : s'.state = s.state
  recv : s'.recv = s.recv
  requests : s'.requests = s.requests
  responses : s'.responses = s.responses
  input : s'.input = s.input

/-! ### Steps -/

theorem answered_of_history (h : OnStream Answered s) (hrequests : s'.requests = s.requests)
    (hresponses : s'.responses = s.responses) (hinput : s.input <+: s'.input) : OnStream Answered s' := by
  intro Rs hsizes hstream
  have hs := h Rs hsizes (hinput.trans hstream)
  exact ⟨by rw [hresponses]; exact hs.answers, by rw [hresponses, hrequests]; exact hs.requested⟩

theorem Fresh.matching (h : Fresh s) : Matching s := by
  intro Rs _ _
  refine ⟨⟨by rw [h.responses]; rfl, by rw [h.responses]; exact Nat.zero_le _⟩, fun _ => ?_⟩
  refine ⟨⟨h.recv.1, by rw [h.input, h.responses, h.recv.2]; rfl⟩, ?_, fun _ => h.recv.2, fun hs => ?_⟩
  · rw [h.requests, h.responses, h.state]
    rfl
  · rw [h.state] at hs
    cases hs

theorem Parked.answered (hp : Parked s s') (h : OnStream Answered s) : OnStream Answered s' := by
  obtain ⟨env, rfl⟩ | hgone := hp
  · exact answered_of_history h rfl rfl List.prefix_rfl
  · rcases hgone.history with ⟨-, hreq, hres, -, -, hin⟩ | ⟨-, hreq, hres, -, -, hin⟩
    · exact answered_of_history h hreq hres (hin ▸ List.prefix_rfl)
    · intro Rs _ _
      exact ⟨by rw [hres]; rfl, by rw [hres]; exact Nat.zero_le _⟩

theorem Parked.matching (hp : Parked s s') (hended : ¬ s.state.Live) (h : OnStream Answered s) : Matching s' := by
  intro Rs hsizes hstream
  refine ⟨hp.answered h Rs hsizes hstream, fun hlive => ?_⟩
  obtain ⟨env, rfl⟩ | hgone := hp
  · exact absurd hlive hended
  · rcases hgone.state with hdead | hfresh
    · exact absurd hlive hdead
    · exact (hfresh.matching Rs hsizes hstream).2 hlive

/-- The relation between the states of a run. -/
structure Carries (s s' : HttpClient) : Prop where
  log : s.log <:+ s'.log
  matching : (∀ e ∈ s'.log, e.Orderly) → Matching s → Matching s'

/-- A step that changes nothing the invariant speaks of, on an unchanged state. -/
theorem Carries.same (hlog : s'.log = s.log) (h : Unmoved s s') : Carries s s' where
  log := hlog ▸ List.suffix_rfl
  matching _ hs := by
    intro Rs hsizes hstream
    obtain ⟨hanswered, hheld⟩ := hs Rs hsizes (h.input ▸ hstream)
    refine ⟨⟨by rw [h.responses]; exact hanswered.answers, by rw [h.responses, h.requests]; exact hanswered.requested⟩,
      fun hlive => ?_⟩
    have hheld := hheld (h.state ▸ hlive)
    refine ⟨⟨h.recv ▸ hheld.fits, by rw [h.input, h.responses, h.recv]; exact hheld.bytes⟩, ?_, ?_, ?_⟩
    · rw [h.requests, h.responses, h.state]
      exact hheld.pending
    · rw [h.state, h.recv]
      exact hheld.unread
    · rw [h.state]
      intro hrecv R
      rw [h.responses, h.recv]
      exact hheld.awaits hrecv R

/-- The failure of a connection, and the callback behind it. -/
theorem Carries.failed {s₁ : HttpClient} (h : Withheld s₁.shutDown → Parked s₁.shutDown s') (hlog : s₁.log = s.log)
    (hrequests : s₁.requests = s.requests) (hresponses : s₁.responses = s.responses) (hinput : s.input <+: s₁.input) :
    Carries s s' := by
  have hp := h ⟨nofun, nofun⟩
  refine ⟨hlog ▸ hp.log, fun _ hs => hp.matching not_live_failed ?_⟩
  exact answered_of_history hs.answered hrequests hresponses hinput

theorem carries_submit (hidle : s.state = .idle) (r : Request) (text : List UInt8) :
    Carries s ((s.asks r).submit text) := by
  obtain ⟨clocks, t, hsubmit⟩ := (s.asks r).submit_eq text
  rw [hsubmit]
  refine ⟨List.suffix_cons _ _, fun horderly hs Rs hsizes hstream => ?_⟩
  -- nothing is left over, so nothing is dropped
  have hempty : s.recv.bytes = [] := horderly (.requested s.recv.bytes) List.mem_cons_self
  obtain ⟨hanswered, hheld⟩ := hs Rs hsizes hstream
  have hheld := hheld (hidle ▸ by decide)
  have hpending := hheld.pending
  rw [hidle] at hpending
  have hrequests : (s.requests ++ [text]).length = s.responses.length + 1 := by
    rw [List.length_append, hpending]
    rfl
  refine ⟨⟨hanswered.answers, ?_⟩, fun _ => ⟨⟨?_, ?_⟩, ?_, fun _ => rfl, nofun⟩⟩
  · change s.responses.length ≤ (s.requests ++ [text]).length
    omega
  · exact IoBuffer.Backed.reset ⟨hheld.fits.backed, hheld.fits.small⟩
  · have hbytes := hheld.bytes
    rw [hempty] at hbytes
    exact hbytes
  · exact hrequests

theorem carries_flushLoop {n : Nat} {how : Sending} (hs : s.state = .sending) (h : flushLoop n s = (how, s'))
    (hhow : how ≠ .broken) : Carries s s' := by
  obtain ⟨writes, output, sends, wire, sendOff, interest, armed, heq, -, -⟩ := flushLoop_eq h
  cases how with
  | blocked =>
    rw [heq]
    exact Carries.same rfl ⟨rfl, rfl, rfl, rfl, rfl⟩
  | broken => exact absurd rfl hhow
  | sent =>
    rw [heq]
    refine ⟨List.suffix_rfl, fun _ hm Rs hsizes hstream => ?_⟩
    obtain ⟨hanswered, hheld⟩ := hm Rs hsizes hstream
    have hheld := hheld (hs ▸ by decide)
    have hpending := hheld.pending
    rw [hs] at hpending
    refine ⟨⟨hanswered.answers, hanswered.requested⟩, fun _ => ⟨⟨hheld.fits, hheld.bytes⟩, hpending, nofun, fun _ R _ => ?_⟩⟩
    change s.recv.bytes.length < R.encode.length
    rw [hheld.unread hs]
    exact List.length_pos_of_ne_nil R.encode_ne_nil

theorem recvTurn_input (s : HttpClient) : s.input <+: s.recvTurn.2.input := by
  unfold recvTurn
  split
  · exact List.prefix_rfl
  · obtain ⟨reads, ⟨bytes, -, hread⟩ | ⟨r, hr, hread⟩⟩ := s.transportRead_cases s.recv.tailroom
    · rw [hread]
      dsimp only
      split
      · rw [recvParse_input]
        exact List.prefix_append _ _
      · rw [recvParse_input]
        exact List.prefix_append _ _
    · rw [hread]
      rcases hr with rfl | rfl
      · exact List.prefix_rfl
      · exact List.prefix_rfl

theorem recvTurn_kept {t : RecvTurn} (h : s.recvTurn = (t, s')) :
    s'.state = s.state ∧ s'.log = s.log ∧ s'.requests = s.requests ∧ s'.responses = s.responses := by
  obtain ⟨reads, input, wire, recv, faults, lost, rfl, -⟩ := recvTurn_eq h
  exact ⟨rfl, rfl, rfl, rfl⟩

/-- A turn of the receiving loop on a stream of responses. -/
theorem Matching.turned {t : RecvTurn} (h : Matching s) (hs : s.state = .receiving) (hturn : s.recvTurn = (t, s'))
    (hsizes : ∀ R ∈ Rs, R.SizesFit) (hstream : s'.input <+: Rs.flatMap Reply.encode) :
    Answered Rs s ∧ Held Rs s ∧ Turned Rs s' t := by
  have hinput := s.recvTurn_input
  rw [hturn] at hinput
  obtain ⟨hanswered, hheld⟩ := h Rs hsizes (hinput.trans hstream)
  have hheld := hheld (hs ▸ by decide)
  have hturned := turned_recvTurn hsizes hheld.toReads (hheld.awaits hs) (by rw [hturn]; exact hstream)
  rw [hturn] at hturned
  exact ⟨hanswered, hheld, hturned⟩

theorem carries_recvTurn {t : RecvTurn} (hs : s.state = .receiving) (hturn : s.recvTurn = (t, s'))
    (ht : t = .stop ∨ t = .more) : Carries s s' := by
  obtain ⟨hstate, hlog, hrequests, hresponses⟩ := recvTurn_kept hturn
  refine ⟨hlog ▸ List.suffix_rfl, fun _ hm Rs hsizes hstream => ?_⟩
  obtain ⟨hanswered, hheld, hturned⟩ := hm.turned hs hturn hsizes hstream
  have hread : Reads Rs s' ∧ Awaits Rs s' := by
    rcases ht with rfl | rfl
    · exact hturned
    · exact hturned
  refine ⟨⟨?_, ?_⟩, fun _ => ⟨hread.1, ?_, fun h => ?_, fun _ => hread.2⟩⟩
  · rw [hresponses]
    exact hanswered.answers
  · rw [hresponses, hrequests]
    exact hanswered.requested
  · rw [hresponses, hrequests, hstate]
    exact hheld.pending
  · exact absurd (hs.symm.trans (hstate.symm.trans h)) (by decide)

/-- The response that a turn has completed is the next one of the stream. -/
theorem answered_deliver {s₁ : HttpClient} {r : HttpResponseView} (h : Matching s) (hs : s.state = .receiving)
    (hturn : s.recvTurn = (.complete r, s₁)) : OnStream Answered (s₁.deliver r) := by
  intro Rs hsizes hstream
  obtain ⟨hanswered, hheld, R, hget, hanswer, -⟩ := h.turned hs hturn hsizes hstream
  obtain ⟨-, -, hrequests, hresponses⟩ := recvTurn_kept hturn
  have hpending := hheld.pending
  rw [if_pos (Or.inr hs)] at hpending
  have hdelivered : (s₁.deliver r).responses = s.responses ++ [R.answer] := by
    rw [deliver, hanswer, hresponses]
  have hlength : (s.responses ++ [R.answer]).length = s.responses.length + 1 := List.length_append
  rw [hresponses] at hget
  constructor
  · rw [hdelivered, hlength, List.take_add_one, hget, List.map_append, ← hanswered.answers]
    rfl
  · rw [hdelivered, hlength]
    change _ ≤ s₁.requests.length
    rw [hrequests, hpending]

theorem parked_deliver {s₁ : HttpClient} {r : HttpResponseView} (hs : s.state = .receiving)
    (hturn : s.recvTurn = (.complete r, s₁)) (h : Withheld (s₁.deliver r) → Parked (s₁.deliver r) s') :
    s.log <:+ s'.log ∧ Parked (s₁.deliver r) s' := by
  obtain ⟨hkept, hlog, -, -⟩ := recvTurn_kept hturn
  have hstate : (s₁.deliver r).state = .receiving := hkept.trans hs
  have hp := h ⟨by rw [hstate]; decide, by rw [hstate]; decide⟩
  exact ⟨hlog ▸ hp.log, hp⟩

theorem carries_answered {s₁ : HttpClient} {r : HttpResponseView} (hs : s.state = .receiving)
    (hturn : s.recvTurn = (.complete r, s₁)) (h : Withheld (s₁.deliver r) → Parked (s₁.deliver r) s')
    (hended : ¬ s'.state.Live) : Carries s s' := by
  obtain ⟨hlog, hp⟩ := parked_deliver hs hturn h
  refine ⟨hlog, fun _ hm Rs hsizes hstream => ⟨?_, fun hlive => absurd hlive hended⟩⟩
  exact hp.answered (answered_deliver hm hs hturn) Rs hsizes hstream

theorem carries_rested {s₁ : HttpClient} {r : HttpResponseView} (hs : s.state = .receiving)
    (hturn : s.recvTurn = (.complete r, s₁)) (h : Withheld (s₁.deliver r) → Parked (s₁.deliver r) s') :
    Carries s ((s'.note (.completed s'.state)).rest r.consumed) := by
  obtain ⟨hlog, hp⟩ := parked_deliver hs hturn h
  obtain ⟨hlogRest, hinputRest⟩ := (s'.note (.completed s'.state)).rest_kept r.consumed
  refine ⟨by rw [hlogRest]; exact hlog.trans (List.suffix_cons _ _), fun horderly hm Rs hsizes hstream => ?_⟩
  have hreceiving : s'.state = .receiving :=
    horderly (.completed s'.state) (by rw [hlogRest]; exact List.mem_cons_self)
  -- the callback has left the connection in place
  have hsame : Unmoved (s₁.deliver r) s' := by
    obtain ⟨env, rfl⟩ := hp.receiving hreceiving
    exact ⟨rfl, rfl, rfl, rfl, rfl⟩
  have hstream' : (s₁.deliver r).input <+: Rs.flatMap Reply.encode := by
    rw [← hsame.input]
    rw [hinputRest] at hstream
    exact hstream
  have hanswered := hp.answered (answered_deliver hm hs hturn) Rs hsizes (hsame.input ▸ hstream')
  obtain ⟨-, hheld, R, -, -, hfits, hconsumed, hbytes⟩ := hm.turned hs hturn hsizes hstream'
  have hrecv : s'.recv = s₁.recv := hsame.recv
  have hlength : s'.responses.length = s₁.responses.length + 1 := by
    rw [hsame.responses]
    exact List.length_append
  obtain ⟨recv, hfits', hbytes', hrest⟩ :=
    rest_eq (s := s'.note (.completed s'.state)) (hrecv ▸ hfits) (hrecv ▸ hconsumed)
  change _ = s'.recv.bytes.drop _ at hbytes'
  rw [hrecv] at hbytes'
  rw [hrest]
  refine ⟨⟨hanswered.answers, hanswered.requested⟩, fun _ => ⟨⟨hfits', ?_⟩, ?_, nofun, nofun⟩⟩
  · change s'.input = (Rs.take s'.responses.length).flatMap Reply.encode ++ recv.bytes
    rw [hbytes', hlength, ← hbytes]
    exact hsame.input
  · obtain ⟨-, -, hrequests, hresponses⟩ := recvTurn_kept hturn
    have hpending := hheld.pending
    rw [if_pos (Or.inr hs), ← hrequests, ← hresponses] at hpending
    change s'.requests.length = s'.responses.length + 0
    rw [hlength, ← hpending, hsame.requests]
    rfl

theorem steps_carries : Steps (fun s s' => Withheld s → Parked s s') Carries where
  refl _ := ⟨List.suffix_rfl, fun _ h => h⟩
  trans h h' := ⟨h.log.trans h'.log, fun horderly hs =>
    h'.matching horderly (h.matching (fun e he => horderly e (h'.log.subset he)) hs)⟩
  expired h h' := by
    obtain ⟨⟨clocks, rfl⟩, -⟩ := deadlinePassed_eq h
    exact Carries.failed h' rfl rfl rfl List.prefix_rfl
  unexpired h := by
    obtain ⟨⟨clocks, rfl⟩, -⟩ := deadlinePassed_eq h
    exact Carries.same rfl ⟨rfl, rfl, rfl, rfl, rfl⟩
  refused h h' := by
    obtain ⟨env, send, recv, deadline, armed, fd, linked, wire, interest, pool, rfl, -⟩ := tryDial_false h
    exact Carries.failed h' rfl rfl rfl List.prefix_rfl
  dialed h := ⟨(fresh_dialed h).2, fun _ _ => (fresh_dialed h).1.matching⟩
  submit hidle _ := carries_submit hidle _ _
  blocked hs h := carries_flushLoop hs h nofun
  sent hs h := carries_flushLoop hs h nofun
  unsent {s s₁ s' n} hs h h' := by
    obtain ⟨writes, output, sends, wire, sendOff, interest, armed, rfl, -, -⟩ := flushLoop_eq h
    exact Carries.failed h' rfl rfl rfl List.prefix_rfl
  stop hs h := carries_recvTurn hs h (Or.inl rfl)
  more hs h := carries_recvTurn hs h (Or.inr rfl)
  broken {s s₁ s'} hs h h' := by
    have hinput := s.recvTurn_input
    rw [h] at hinput
    obtain ⟨-, hlog, hrequests, hresponses⟩ := recvTurn_kept h
    exact Carries.failed h' hlog hrequests hresponses hinput
  answered hs h h' hended := carries_answered hs h h' hended
  rested hs h h' _ := carries_rested hs h h'
  polled h := by
    obtain ⟨opens, rfl⟩ := transportPollOpen_eq h
    exact Carries.same rfl ⟨rfl, rfl, rfl, rfl, rfl⟩
  unopened _ h _ h' := by
    obtain ⟨opens, rfl⟩ := transportPollOpen_eq h
    exact Carries.failed h' rfl rfl rfl List.prefix_rfl
  opened {s s'} hs hopen := by
    obtain ⟨opens, interest, armed, heq, -⟩ := opened_eq hopen
    rw [heq]
    refine ⟨List.suffix_rfl, fun _ hm Rs hsizes hstream => ?_⟩
    obtain ⟨hanswered, hheld⟩ := hm Rs hsizes hstream
    have hheld := hheld (hs ▸ by decide)
    have hpending := hheld.pending
    rw [hs] at hpending
    exact ⟨⟨hanswered.answers, hanswered.requested⟩, fun _ => ⟨⟨hheld.fits, hheld.bytes⟩, hpending, nofun, nofun⟩⟩
  close s := by
    refine ⟨List.suffix_rfl, fun _ hm Rs hsizes hstream => ⟨?_, fun hlive => absurd hlive not_live_disconnected⟩⟩
    obtain ⟨hanswered, -⟩ := hm Rs hsizes hstream
    exact ⟨hanswered.answers, hanswered.requested⟩

/-- What a run has made of a stream of responses: the delivered ones are the first of the stream, in order, one for
each request but the open one; and on a live connection what has been received behind them is in the receive
buffer, where the next one is not complete while it is awaited. -/
structure Matched (Rs : List Reply) (s : HttpClient) : Prop where
  answers : s.responses = (Rs.take s.responses.length).map Reply.answer
  requested : s.responses.length ≤ s.requests.length
  pending : s.state.Live → s.requests.length
    = s.responses.length + if s.state = .sending ∨ s.state = .receiving then 1 else 0
  bytes : s.state.Live → s.input = (Rs.take s.responses.length).flatMap Reply.encode ++ s.recv.bytes
  awaited : s.state = .receiving → ∀ R, Rs[s.responses.length]? = some R → s.recv.bytes.length < R.encode.length

/-- **Responses are matched to requests.** -/
theorem responses_matched (cfg : ClientConfig) (depth : Nat) (calls : List (Api × Env)) (Rs : List Reply)
    (hsizes : ∀ R ∈ Rs, R.SizesFit) (hstream : (run depth (freshClient cfg) calls).input <+: Rs.flatMap Reply.encode)
    (horderly : ∀ e ∈ (run depth (freshClient cfg) calls).log, e.Orderly) :
    Matched Rs (run depth (freshClient cfg) calls) := by
  have hrun := keeps_run steps_carries (parked_callbacks depth)
    (fun s env => Carries.same rfl ⟨rfl, rfl, rfl, rfl, rfl⟩) (freshClient cfg) calls
  have hstart : Matching (freshClient cfg) := by
    intro Rs _ _
    exact ⟨⟨rfl, Nat.zero_le _⟩, fun hlive => absurd hlive not_live_disconnected⟩
  obtain ⟨hanswered, hheld⟩ := hrun.matching horderly hstart Rs hsizes hstream
  exact ⟨hanswered.answers, hanswered.requested, fun hlive => (hheld hlive).pending, fun hlive => (hheld hlive).bytes,
    fun hs => (hheld (hs ▸ by decide)).awaits hs⟩

end HttpClient

/-- `200`, with the body `hi`. -/
def greeting : Response where
  minor := 49
  minorDigit := isSome_decDigit_one
  d1 := 50
  d2 := 48
  d3 := 48
  codeDigits := isSome_decDigit_ok
  reason := []
  reasonPlain := plain_nil
  before := []
  after := []
  framing := .sized ⟨[50], by decide, List.all_eq_true.mp (by decide), [104, 105], by decide, by decide⟩

/-- `204`, without a body. -/
def noContent : BareResponse where
  minor := 49
  minorDigit := isSome_decDigit_one
  d1 := 50
  d2 := 48
  d3 := 52
  codeDigits := List.all_eq_true.mp (by decide)
  reason := []
  reasonPlain := plain_nil
  headers := []
  headersPlain := by decide
  unframed := by decide

/-- Three responses, one of each framing. -/
def replies : List Reply := [.framed greeting, .bare noContent, .framed (chunkedOk breakBody)]

def smallConfig : ClientConfig := ⟨256, by decide, by decide, [], 0, 0, false⟩

/-- A connection is opened, and requests are made one after another; each request is sent at once, and each list
of reads answers one of them. -/
def exchange (reads : List (List (List UInt8))) : List (Api × Env) :=
  [(.act .connect, { connects := [some 7] }), (.onReady, { opens := [.opened] })]
    ++ reads.map fun rs => (.act (.request {}), { writes := [.accepted 26], reads := rs.map .data })

/-- The stream cut inside the responses and at their ends. -/
def cuts : List (List (List UInt8)) :=
  [[greeting.encode.take 5, greeting.encode.drop 5], [noContent.head],
    [(chunkedOk breakBody).encode.take 50, (chunkedOk breakBody).encode.drop 50]]

theorem replies_fit : ∀ R ∈ replies, R.SizesFit := by
  simp only [replies, List.forall_mem_cons, List.not_mem_nil, IsEmpty.forall_iff, implies_true, and_true]
  exact ⟨trivial, trivial, Response.sizesFit_of_lt (R := chunkedOk breakBody) (by decide)⟩

theorem cut_replies_matched :
    (HttpClient.run 1 (freshClient smallConfig) (exchange cuts)).responses.length = 3 ∧
      HttpClient.Matched replies (HttpClient.run 1 (freshClient smallConfig) (exchange cuts)) :=
  ⟨by decide, HttpClient.responses_matched smallConfig 1 (exchange cuts) replies replies_fit
    (by decide) (by decide)⟩

/-- Two responses in one read, and a second request. -/
def joint : List (List (List UInt8)) := [[greeting.encode ++ noContent.head], []]

/-- The second response is received in full, and dropped by the second request, which then waits for it. -/
theorem joint_not_matched :
    let s := HttpClient.run 1 (freshClient smallConfig) (exchange joint)
    s.state = .receiving ∧ s.requests.length = 2 ∧ s.responses.length = 1 ∧ s.recv.bytes = [] ∧
      s.input = [Reply.framed greeting, Reply.bare noContent].flatMap Reply.encode ∧
      ¬ HttpClient.Matched [.framed greeting, .bare noContent] s := by
  intro s
  have hrun : s.state = .receiving ∧ s.requests.length = 2 ∧ s.responses.length = 1 ∧ s.recv.bytes = [] ∧
      s.input = [Reply.framed greeting, Reply.bare noContent].flatMap Reply.encode := by decide
  obtain ⟨hstate, hrequests, hresponses, hbytes, hinput⟩ := hrun
  refine ⟨hstate, hrequests, hresponses, hbytes, hinput, fun h => ?_⟩
  have hkept := h.bytes (by rw [hstate]; decide)
  rw [hinput, hbytes, hresponses] at hkept
  exact absurd hkept (by decide)

end Lepton.Http

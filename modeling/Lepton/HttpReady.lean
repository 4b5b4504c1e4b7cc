import Lepton.HttpAside
import Lepton.HttpMatch

/-! The promises of a ready client: its transport is open, and each of its requests is completed. -/

namespace Lepton.Http

/-- The states in which the client says that it is connected. -/
def HttpState.Ready (st : HttpState) : Prop := st = .idle ∨ st = .sending ∨ st = .receiving

instance : DecidablePred HttpState.Ready := fun st => inferInstanceAs (Decidable (st = _ ∨ st = _ ∨ st = _))

/-- `poll_open` has reported Open since the last connect, and the transport has not been closed since. The calls are
listed with the latest first. -/
def reportedOpen : List StreamCall → Bool
  | [] => false
  | .connect _ :: _ => false
  | .close :: _ => false
  | .pollOpen .opened :: _ => true
  | _ :: earlier => reportedOpen earlier

/-- Writes tell nothing of the transport's phase. -/
theorem reportedOpen_writes {new earlier : List StreamCall} (h : ∀ c ∈ new, ∃ src r, c = .write src r) :
    reportedOpen (new ++ earlier) = reportedOpen earlier := by
  induction new with
  | nil => rfl
  | cons c rest ih =>
    obtain ⟨src, r, rfl⟩ := h c List.mem_cons_self
    exact ih fun c hc => h c (List.mem_cons_of_mem _ hc)

namespace HttpClient

variable {s s' : HttpClient}

/-- A ready client has an open transport. -/
def Backed (s : HttpClient) : Prop := s.state.Ready → reportedOpen s.wire = true

/-- A client stays backed, if no `on_response` has left it connecting. -/
structure StaysBacked (s s' : HttpClient) : Prop where
  log : s.log <:+ s'.log
  backed : (∀ st, .completed st ∈ s'.log → st ≠ .connecting) → Backed s → Backed s'

/-- What `on_error` leaves is not ready. -/
theorem Parked.not_ready (h : Parked s s') (hs : s.state = .failed) : ¬ s'.state.Ready := by
  obtain ⟨env, rfl⟩ | hgone := h
  · change ¬ s.state.Ready
    rw [hs]
    decide
  · rcases hgone.state with hdead | hfresh
    · rintro (hs' | hs' | hs')
      · exact hdead (hs' ▸ by decide)
      · exact hdead (hs' ▸ by decide)
      · exact hdead (hs' ▸ by decide)
    · rw [hfresh.state]
      decide

theorem StaysBacked.failed {s₁ : HttpClient} (h : Withheld s₁.shutDown → Parked s₁.shutDown s')
    (hlog : s₁.log = s.log) : StaysBacked s s' := by
  have hparked := h ⟨nofun, nofun⟩
  refine ⟨?_, fun _ _ hready => absurd hready (hparked.not_ready rfl)⟩
  have hsuffix := hparked.log
  change s₁.log <:+ s'.log at hsuffix
  rwa [hlog] at hsuffix

theorem StaysBacked.same (hlog : s'.log = s.log) (hready : s'.state.Ready → s.state.Ready)
    (hopen : reportedOpen s'.wire = reportedOpen s.wire) : StaysBacked s s' :=
  ⟨hlog ▸ List.suffix_rfl, fun _ hs h => hopen.trans (hs (hready h))⟩

theorem staysBacked_flushLoop {n : Nat} {how : Sending} (hs : s.state = .sending) (h : flushLoop n s = (how, s')) :
    StaysBacked s s' := by
  obtain ⟨writes, output, sends, wire, sendOff, interest, armed, rfl, ⟨new, hwire, hnew⟩, -⟩ := flushLoop_eq h
  refine StaysBacked.same rfl (fun _ => Or.inr (Or.inl hs)) ?_
  change reportedOpen wire = _
  rw [hwire, reportedOpen_writes hnew]

theorem reportedOpen_recvTurn {t : RecvTurn} (h : s.recvTurn = (t, s')) :
    s'.log = s.log ∧ s'.state = s.state ∧ reportedOpen s'.wire = reportedOpen s.wire := by
  obtain ⟨reads, input, wire, recv, faults, lost, rfl, hwire⟩ := recvTurn_eq h
  refine ⟨rfl, rfl, ?_⟩
  rcases hwire with rfl | ⟨room, r, rfl⟩
  · rfl
  · rfl

theorem staysBacked_recvTurn {t : RecvTurn} (h : s.recvTurn = (t, s')) : StaysBacked s s' := by
  obtain ⟨hlog, hstate, hopen⟩ := reportedOpen_recvTurn h
  exact StaysBacked.same hlog (fun hready => hstate ▸ hready) hopen

/-- The transport is that of the response, unless the callback has connected anew. -/
theorem staysBacked_rested {s₁ : HttpClient} {r : HttpResponseView} (hs : s.state = .receiving)
    (hturn : s.recvTurn = (.complete r, s₁)) (h : Withheld (s₁.deliver r) → Parked (s₁.deliver r) s')
    (hlive : s'.state.Live) : StaysBacked s ((s'.note (.completed s'.state)).rest r.consumed) := by
  obtain ⟨hlog, hparked⟩ := parked_deliver hs hturn h
  obtain ⟨-, -, hopen⟩ := reportedOpen_recvTurn hturn
  obtain ⟨hlogRest, -⟩ := (s'.note (.completed s'.state)).rest_kept r.consumed
  refine ⟨by rw [hlogRest]; exact hlog.trans (List.suffix_cons _ _), fun hcalm hbacked _ => ?_⟩
  have hstayed : s'.state ≠ .connecting := hcalm s'.state (by rw [hlogRest]; exact List.mem_cons_self)
  have hwire : ((s'.note (.completed s'.state)).rest r.consumed).wire = s'.wire := by
    rcases (s'.note (.completed s'.state)).rest_cases r.consumed with ⟨recv, faults, heq, -⟩ | ⟨faults, heq⟩
    · rw [heq]
      rfl
    · rw [heq]
      rfl
  rw [hwire]
  obtain ⟨env, rfl⟩ | hgone := hparked
  · exact hopen.trans (hbacked (Or.inr (Or.inr hs)))
  · rcases hgone.state with hdead | hfresh
    · exact absurd hlive hdead
    · exact absurd hfresh.state hstayed

theorem steps_staysBacked : Steps (fun s s' => Withheld s → Parked s s') StaysBacked where
  refl _ := ⟨List.suffix_rfl, fun _ h => h⟩
  trans h h' := ⟨h.log.trans h'.log, fun hcalm hs =>
    h'.backed hcalm (h.backed (fun st hst => hcalm st (h'.log.subset hst)) hs)⟩
  expired h h' := by
    obtain ⟨⟨clocks, rfl⟩, -⟩ := deadlinePassed_eq h
    exact StaysBacked.failed h' rfl
  unexpired h := by
    obtain ⟨⟨clocks, rfl⟩, -⟩ := deadlinePassed_eq h
    exact StaysBacked.same rfl id rfl
  refused h h' := by
    obtain ⟨env, send, recv, deadline, armed, fd, linked, wire, interest, pool, rfl, -⟩ := tryDial_false h
    exact StaysBacked.failed h' rfl
  dialed h := by
    obtain ⟨hfresh, hlog⟩ := fresh_dialed h
    refine ⟨hlog, fun _ _ hready => ?_⟩
    rw [hfresh.state] at hready
    exact absurd hready (by decide)
  submit {s r text} hidle _ := by
    obtain ⟨clocks, t, heq⟩ := (s.asks r).submit_eq text
    rw [heq]
    exact ⟨List.suffix_cons _ _, fun _ hs _ => hs (Or.inl hidle)⟩
  blocked hs h := staysBacked_flushLoop hs h
  sent hs h := staysBacked_flushLoop hs h
  unsent {s s₁ s' n} hs h h' := by
    obtain ⟨writes, output, sends, wire, sendOff, interest, armed, rfl, -, -⟩ := flushLoop_eq h
    exact StaysBacked.failed h' rfl
  stop _ h := staysBacked_recvTurn h
  more _ h := staysBacked_recvTurn h
  broken _ h h' := StaysBacked.failed h' (reportedOpen_recvTurn h).1
  answered hs h h' hended := by
    refine ⟨(parked_deliver hs h h').1, fun _ _ hready => absurd ?_ hended⟩
    rcases hready with hr | hr | hr
    · rw [hr]; decide
    · rw [hr]; decide
    · rw [hr]; decide
  rested hs h h' hlive := staysBacked_rested hs h h' hlive
  polled h := by
    obtain ⟨opens, rfl⟩ := transportPollOpen_eq h
    exact StaysBacked.same rfl id rfl
  unopened _ h _ h' := by
    obtain ⟨opens, rfl⟩ := transportPollOpen_eq h
    exact StaysBacked.failed h' rfl
  opened {s s'} _ h := by
    obtain ⟨opens, interest, armed, heq, -⟩ := opened_eq h
    rw [heq]
    exact ⟨List.suffix_rfl, fun _ _ _ => rfl⟩
  close s := ⟨List.suffix_rfl, fun _ _ hready => absurd hready (by change ¬ HttpState.disconnected.Ready; decide)⟩

/-- **A ready client has an open transport**, in every run in which no `on_response` leaves the client connecting. -/
theorem ready_reportedOpen (cfg : ClientConfig) (depth : Nat) (calls : List (Api × Env))
    (hcalm : ∀ st, .completed st ∈ (run depth (freshClient cfg) calls).log → st ≠ .connecting)
    (hready : (run depth (freshClient cfg) calls).state.Ready) :
    reportedOpen (run depth (freshClient cfg) calls).wire = true := by
  have hrun := keeps_run steps_staysBacked (parked_callbacks depth) (fun _ _ => StaysBacked.same rfl id rfl)
    (freshClient cfg) calls
  refine hrun.backed hcalm (fun hready => ?_) hready
  change HttpState.disconnected.Ready at hready
  exact absurd hready (by decide)

end HttpClient

/-- A request is answered, and the next one is sent by half. -/
def halfway : List (Api × Env) :=
  exchange [[greeting.encode]] ++ [(.act (.request {}), { writes := [.accepted 13, .again] })]

theorem halfway_reportedOpen :
    (HttpClient.run 1 (freshClient smallConfig) halfway).state = .sending ∧
      reportedOpen (HttpClient.run 1 (freshClient smallConfig) halfway).wire = true :=
  ⟨by decide +kernel, HttpClient.ready_reportedOpen smallConfig 1 halfway
    (fun st hst => by
      have hlog : (HttpClient.run 1 (freshClient smallConfig) halfway).log
        = [.requested [], .completed .receiving, .requested [], .added true, .dialed false] := by decide +kernel
      rw [hlog] at hst
      simp only [List.mem_cons, Ev.completed.injEq, reduceCtorEq, List.not_mem_nil, or_false, false_or] at hst
      subst hst
      decide)
    (by decide +kernel)⟩

/-- `on_response` closes the connection and dials a new one. -/
def redialing (response : List UInt8) : List (Api × Env) :=
  [(.act .connect, { connects := [some 7] }), (.onReady, { opens := [.opened] }),
    (.act (.request {}), { writes := [.accepted 26], reads := [.data response], connects := [some 8],
                           scripts := [[.close, .connect]] })]

/-- A response of which nothing is consumed: its head of 57 bytes and the announced length add up to `2 ^ 64`. -/
def unconsumed : List UInt8 := ascii "HTTP/1.1 200 OK\r\nContent-Length: 18446744073709551559\r\n\r\n"

/-- The client says that it is idle while its transport is connecting, and nothing else has gone wrong. -/
theorem redialing_not_reportedOpen :
    let s := HttpClient.run 1 (freshClient smallConfig) (redialing unconsumed)
    s.state = .idle ∧ reportedOpen s.wire = false ∧ s.wire.head? = some (.connect true) ∧ s.lost = false ∧ s.faults = 0 := by
  decide +kernel

/-! Completions. The user sees of a request that it is accepted, and later one call of `on_response` or `on_error`. -/

/-- A request has been accepted that is neither completed nor given up with `close`. -/
def openRequest : List Notice → Bool
  | [] => false
  | .accepted :: _ => true
  | .response :: _ => false
  | .error :: _ => false
  | .closed :: _ => false
  | .dial _ :: earlier => openRequest earlier

/-- Requests are accepted one at a time, a response belongs to the open request, and an error to the open request or
to the connection attempt right before it. -/
def Settled : List Notice → Prop
  | [] => True
  | .accepted :: earlier => openRequest earlier = false ∧ Settled earlier
  | .response :: earlier => openRequest earlier = true ∧ Settled earlier
  | .error :: earlier => (openRequest earlier = true ∨ ∃ st, earlier.head? = some (.dial st)) ∧ Settled earlier
  | .closed :: earlier => Settled earlier
  | .dial _ :: earlier => Settled earlier

/-- A client that is not in the middle of a request. -/
def HttpState.Free (st : HttpState) : Prop := st ≠ .sending ∧ st ≠ .receiving

instance : DecidablePred HttpState.Free := fun st => inferInstanceAs (Decidable (st ≠ _ ∧ st ≠ _))

namespace HttpClient

variable {s s' : HttpClient}

/-- Where the client stands with its requests. -/
structure Accounted (s : HttpClient) : Prop where
  recv : s.recv.Fits
  settled : Settled s.notices
  pending : openRequest s.notices = true ↔ ¬ s.state.Free
  dialing : s.state = .connecting → ∃ st, s.notices.head? = some (.dial st)

/-- A client stays accounted for, if no connection is dialed over an open request. -/
structure StaysAccounted (s s' : HttpClient) : Prop where
  notices : s.notices <:+ s'.notices
  accounted : (∀ st, .dial st ∈ s'.notices → st.Free) → Accounted s → Accounted s'

theorem StaysAccounted.same (hrecv : s.recv.Fits → s'.recv.Fits) (hnotices : s'.notices = s.notices)
    (hfree : s'.state.Free ↔ s.state.Free) (hconnecting : s'.state = .connecting → s.state = .connecting) :
    StaysAccounted s s' := by
  refine ⟨hnotices ▸ List.suffix_rfl, fun _ hs => ⟨hrecv hs.recv, hnotices ▸ hs.settled, ?_, fun hs' => ?_⟩⟩
  · rw [hnotices, hs.pending, hfree]
  · rw [hnotices]
    exact hs.dialing (hconnecting hs')

/-- `on_error` completes the open request, or reports that a connection attempt has failed. -/
theorem StaysAccounted.failed {s₁ : HttpClient} (hrecv : s.recv.Fits → s₁.recv.Fits) (hnotices : s₁.notices = s.notices)
    (hstate : s.state = .connecting ∨ s.state = .sending ∨ s.state = .receiving) :
    StaysAccounted s s₁.shutDown := by
  have hnew : s₁.shutDown.notices = .error :: s.notices := by rw [← hnotices]; rfl
  refine ⟨hnew ▸ List.suffix_cons _ _, fun _ hs => ⟨hrecv hs.recv, ?_, ?_, nofun⟩⟩
  · rw [hnew]
    refine ⟨?_, hs.settled⟩
    rcases hstate with hc | hbusy
    · exact Or.inr (hs.dialing hc)
    · refine Or.inl (hs.pending.mpr fun hfree => ?_)
      exact hbusy.elim hfree.1 hfree.2
  · rw [hnew]
    exact ⟨nofun, fun hbusy => absurd (by change HttpState.failed.Free; decide) hbusy⟩

/-- A connection attempt, over no open request. -/
theorem Accounted.free (hs : Accounted s) (hfree : s.state.Free) : openRequest s.notices = false := by
  by_contra hopen
  exact hs.pending.mp (Bool.eq_true_of_not_eq_false hopen) hfree

theorem staysAccounted_dialed {s₁ : HttpClient} (h : s.tryDial = (true, s₁)) :
    StaysAccounted s ({ s₁ with state := .connecting } : HttpClient).register := by
  obtain ⟨hfresh, -⟩ := fresh_dialed h
  have hnotices : ({ s₁ with state := .connecting } : HttpClient).register.notices = .dial s.state :: s.notices := by
    obtain ⟨env, send, recv, deadline, fd, pool, rfl⟩ := tryDial_true h
    rcases register_cases _ with ⟨-, hreg⟩ | ⟨ok, adds, interest, hreg, -⟩
    · rw [hreg]
    · rw [hreg]
  refine ⟨hnotices ▸ List.suffix_cons _ _, fun hcalm hs =>
    ⟨hfresh.recv.1, ?_, ?_, fun _ => ⟨s.state, by rw [hnotices]; rfl⟩⟩⟩
  · rw [hnotices]
    exact hs.settled
  · have hfree : s.state.Free := hcalm s.state (by rw [hnotices]; exact List.mem_cons_self)
    rw [hnotices, hfresh.state]
    change openRequest s.notices = true ↔ _
    rw [hs.free hfree]
    exact ⟨nofun, fun hbusy => absurd (by decide) hbusy⟩

theorem staysAccounted_refused {s₁ : HttpClient} (h : s.tryDial = (false, s₁)) : StaysAccounted s s₁.shutDown := by
  obtain ⟨env, send, recv, deadline, armed, fd, linked, wire, interest, pool, rfl, hfits, -⟩ := tryDial_false h
  refine ⟨(List.suffix_cons _ _).trans (List.suffix_cons _ _), fun _ hs =>
    ⟨hfits.2, ⟨Or.inr ⟨s.state, rfl⟩, hs.settled⟩, ?_, nofun⟩⟩
  exact ⟨nofun, fun hbusy => absurd (by change HttpState.failed.Free; decide) hbusy⟩

theorem staysAccounted_flushLoop {n : Nat} {how : Sending} (hs : s.state = .sending) (h : flushLoop n s = (how, s')) :
    StaysAccounted s s' := by
  obtain ⟨writes, output, sends, wire, sendOff, interest, armed, rfl, -, -⟩ := flushLoop_eq h
  cases how
  · exact StaysAccounted.same id rfl Iff.rfl id
  · exact StaysAccounted.same id rfl Iff.rfl id
  · refine StaysAccounted.same id rfl ?_ nofun
    change HttpState.receiving.Free ↔ s.state.Free
    rw [hs]
    decide

theorem notices_recvTurn {t : RecvTurn} (h : s.recvTurn = (t, s')) : s'.notices = s.notices ∧ s'.state = s.state := by
  obtain ⟨reads, input, wire, recv, faults, lost, rfl, -⟩ := recvTurn_eq h
  exact ⟨rfl, rfl⟩

theorem staysAccounted_recvTurn {t : RecvTurn} (h : s.recvTurn = (t, s')) : StaysAccounted s s' := by
  obtain ⟨hnotices, hstate⟩ := notices_recvTurn h
  exact StaysAccounted.same (fun hfits => (fits_recvTurn h hfits).1) hnotices (by rw [hstate]) (by rw [hstate]; exact id)

/-- `on_response` completes the open request. -/
theorem staysAccounted_rested {s₁ : HttpClient} {r : HttpResponseView} (hs : s.state = .receiving)
    (hturn : s.recvTurn = (.complete r, s₁)) :
    StaysAccounted s (((s₁.deliver r).note (.completed (s₁.deliver r).state)).rest r.consumed) := by
  obtain ⟨hnotices, -⟩ := notices_recvTurn hturn
  have hnew : (((s₁.deliver r).note (.completed (s₁.deliver r).state)).rest r.consumed).notices = .response :: s.notices := by
    rw [← hnotices]
    rcases ((s₁.deliver r).note (.completed (s₁.deliver r).state)).rest_cases r.consumed with
      ⟨recv, faults, heq, -⟩ | ⟨faults, heq⟩
    · rw [heq]
      rfl
    · rw [heq]
      rfl
  refine ⟨hnew ▸ List.suffix_cons _ _, fun _ hacc => ?_⟩
  -- the response still lies in the buffer
  obtain ⟨hfits, -, hconsumed⟩ := fits_recvTurn hturn hacc.recv
  obtain ⟨recv, hrecv, -, hrest⟩ :=
    rest_eq (s := (s₁.deliver r).note (.completed (s₁.deliver r).state)) hfits (hconsumed r rfl)
  refine ⟨?_, ?_, ?_, ?_⟩
  · rw [hrest]
    exact hrecv
  · rw [hnew]
    refine ⟨hacc.pending.mpr fun hfree => hfree.2 hs, hacc.settled⟩
  · rw [hnew, hrest]
    exact ⟨nofun, fun hbusy => absurd (by change HttpState.idle.Free; decide) hbusy⟩
  · rw [hrest]
    exact nofun

/-- With callbacks that return at once. -/
theorem steps_staysAccounted : Steps (fun s s' => s' = s) StaysAccounted where
  refl _ := ⟨List.suffix_rfl, fun _ h => h⟩
  trans h h' := ⟨h.notices.trans h'.notices, fun hcalm hs =>
    h'.accounted hcalm (h.accounted (fun st hst => hcalm st (h'.notices.subset hst)) hs)⟩
  expired h h' := by
    obtain ⟨⟨clocks, rfl⟩, hstate⟩ := deadlinePassed_eq h
    rw [h']
    exact StaysAccounted.failed id rfl (hstate rfl)
  unexpired h := by
    obtain ⟨⟨clocks, rfl⟩, -⟩ := deadlinePassed_eq h
    exact StaysAccounted.same id rfl Iff.rfl id
  refused h h' := h' ▸ staysAccounted_refused h
  dialed h := staysAccounted_dialed h
  submit {s r text} hidle _ := by
    obtain ⟨clocks, t, heq⟩ := (s.asks r).submit_eq text
    rw [heq]
    refine ⟨List.suffix_cons _ _, fun _ hs =>
      ⟨IoBuffer.Backed.reset ⟨hs.recv.backed, hs.recv.small⟩, ⟨hs.free (by rw [hidle]; decide), hs.settled⟩, ?_, nofun⟩⟩
    exact ⟨fun _ hfree => hfree.1 rfl, fun _ => rfl⟩
  blocked hs h := staysAccounted_flushLoop hs h
  sent hs h := staysAccounted_flushLoop hs h
  unsent {s s₁ s' n} hs h h' := by
    obtain ⟨writes, output, sends, wire, sendOff, interest, armed, rfl, -, -⟩ := flushLoop_eq h
    rw [h']
    exact StaysAccounted.failed id rfl (Or.inr (Or.inl hs))
  stop _ h := staysAccounted_recvTurn h
  more _ h := staysAccounted_recvTurn h
  broken hs h h' := by
    rw [h']
    exact StaysAccounted.failed (fun hfits => (fits_recvTurn h hfits).1) (notices_recvTurn h).1 (Or.inr (Or.inr hs))
  answered {s s₁ s' r} hs h h' hended := by
    -- the callback leaves the client receiving
    refine absurd ?_ hended
    rw [h']
    change s₁.state.Live
    rw [(notices_recvTurn h).2, hs]
    decide
  rested hs h h' _ := by
    rw [h']
    exact staysAccounted_rested hs h
  polled h := by
    obtain ⟨opens, rfl⟩ := transportPollOpen_eq h
    exact StaysAccounted.same id rfl Iff.rfl id
  unopened hs h _ h' := by
    obtain ⟨opens, rfl⟩ := transportPollOpen_eq h
    rw [h']
    exact StaysAccounted.failed id rfl (Or.inl hs)
  opened {s s'} hs h := by
    obtain ⟨opens, interest, armed, heq, -⟩ := opened_eq h
    rw [heq]
    refine StaysAccounted.same id rfl ?_ nofun
    change HttpState.idle.Free ↔ s.state.Free
    rw [hs]
    decide
  close s := by
    refine ⟨List.suffix_cons _ _, fun _ hs => ⟨hs.recv.release, hs.settled, ?_, nofun⟩⟩
    exact ⟨nofun, fun hbusy => absurd (by change HttpState.disconnected.Free; decide) hbusy⟩

/-- **Every accepted request is completed once**, in every run in which no connection is dialed over an open request
and callbacks do not call the client: a request is open just while the client sends it or awaits its response, and a
completion closes it. -/
theorem requests_settled (cfg : ClientConfig) (calls : List (Api × Env))
    (hcalm : ∀ st, .dial st ∈ (run 0 (freshClient cfg) calls).notices → st.Free) :
    Settled (run 0 (freshClient cfg) calls).notices ∧
      (openRequest (run 0 (freshClient cfg) calls).notices = true ↔
        (run 0 (freshClient cfg) calls).state = .sending ∨ (run 0 (freshClient cfg) calls).state = .receiving) := by
  have hcallbacks : Keeping (fun s s' => s' = s) (callbacks 0) := ⟨fun _ => rfl, fun _ => rfl⟩
  have hrun := keeps_run steps_staysAccounted hcallbacks (fun _ _ => StaysAccounted.same id rfl Iff.rfl id) (freshClient cfg) calls
  have hstart : Accounted (freshClient cfg) :=
    ⟨IoBuffer.fits_empty, trivial, ⟨nofun, fun hbusy => absurd (by change HttpState.disconnected.Free; decide) hbusy⟩, nofun⟩
  have hend := hrun.accounted hcalm hstart
  refine ⟨hend.settled, hend.pending.trans ?_⟩
  unfold HttpState.Free
  rw [not_and_or, not_not, not_not]

end HttpClient

/-- A request is answered; the next one fails in the middle, and so does the connection dialed after it. -/
def failing : List (Api × Env) :=
  halfway ++ [(.onReady, { writes := [.error] }), (.act .connect, { connects := [none] })]

theorem failing_settled :
    (HttpClient.run 0 (freshClient smallConfig) failing).notices
      = [.error, .dial .failed, .error, .accepted, .response, .accepted, .dial .disconnected] ∧
      Settled (HttpClient.run 0 (freshClient smallConfig) failing).notices ∧
      (openRequest (HttpClient.run 0 (freshClient smallConfig) failing).notices = true ↔
        (HttpClient.run 0 (freshClient smallConfig) failing).state = .sending ∨
          (HttpClient.run 0 (freshClient smallConfig) failing).state = .receiving) := by
  have hnotices : (HttpClient.run 0 (freshClient smallConfig) failing).notices
      = [.error, .dial .failed, .error, .accepted, .response, .accepted, .dial .disconnected] := by decide +kernel
  refine ⟨hnotices, HttpClient.requests_settled smallConfig failing fun st hst => ?_⟩
  rw [hnotices] at hst
  simp only [List.mem_cons, Notice.dial.injEq, reduceCtorEq, List.not_mem_nil, or_false, false_or] at hst
  rcases hst with rfl | rfl
  · decide
  · decide

/-- `connect` is called while a request waits for the transport, and the new connection opens. -/
def overdialed : List (Api × Env) :=
  halfway ++ [(.act .connect, { connects := [some 8] }), (.onReady, { opens := [.opened] })]

/-- The client is idle again, and the second of its two requests has had no completion. -/
theorem overdialed_not_settled :
    let s := HttpClient.run 0 (freshClient smallConfig) overdialed
    s.state = .idle ∧ openRequest s.notices = true ∧
      s.notices = [.dial .sending, .accepted, .response, .accepted, .dial .disconnected] := by decide +kernel

end Lepton.Http

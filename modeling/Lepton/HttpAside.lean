import Lepton.HttpFlow

/-! What the user's callbacks do to a client. `on_response` and `on_error` are called on a client that accepts no
request, so that all they can do is end its connection and dial a new one. -/

namespace Lepton.Http

theorem not_live_disconnected : ¬ HttpState.disconnected.Live := by decide

namespace HttpClient

variable {s s' : HttpClient}

/-- The client neither accepts requests nor has one in its send buffer. -/
def Withheld (s : HttpClient) : Prop := s.state ≠ .idle ∧ s.state ≠ .sending

/-- A connection on which nothing has happened. -/
structure Fresh (s : HttpClient) : Prop where
  state : s.state = .connecting
  send : s.send.Fits ∧ s.send.bytes = []
  recv : s.recv.Fits ∧ s.recv.bytes = []
  asked : s.asked = []
  requests : s.requests = []
  responses : s.responses = []
  output : s.output = []
  sends : s.sends = []
  input : s.input = []

/-- The connection of `s` has ended, and `s'` has none or a fresh one. -/
structure Gone (s s' : HttpClient) : Prop where
  log : s.log <:+ s'.log
  cfg : s'.cfg = s.cfg
  faults : s'.faults = s.faults
  buffers : s.send.Fits ∧ s.recv.Fits → s'.send.Fits ∧ s'.recv.Fits
  state : ¬ s'.state.Live ∨ Fresh s'
  history : (s'.asked = s.asked ∧ s'.requests = s.requests ∧ s'.responses = s.responses ∧ s'.output = s.output ∧
      s'.sends = s.sends ∧ s'.input = s.input) ∨
    s'.asked = [] ∧ s'.requests = [] ∧ s'.responses = [] ∧ s'.output = [] ∧ s'.sends = [] ∧ s'.input = []

/-- What callbacks do to a client that accepts no request: nothing, or they end its connection. -/
def Parked (s s' : HttpClient) : Prop := (∃ env, s' = { s with env := env }) ∨ Gone s s'

theorem Gone.withheld (h : Gone s s') : Withheld s' := by
  rcases h.state with hdead | hfresh
  · exact ⟨fun hs => hdead (hs ▸ by decide), fun hs => hdead (hs ▸ by decide)⟩
  · exact ⟨by rw [hfresh.state]; decide, by rw [hfresh.state]; decide⟩

theorem Parked.withheld (h : Parked s s') (hs : Withheld s) : Withheld s' := by
  obtain ⟨env, rfl⟩ | hgone := h
  · exact hs
  · exact hgone.withheld

theorem Parked.log (h : Parked s s') : s.log <:+ s'.log := by
  obtain ⟨env, rfl⟩ | hgone := h
  · exact List.suffix_rfl
  · exact hgone.log

theorem Fresh.env (h : Fresh s) (env : Env) : Fresh { s with env := env } :=
  ⟨h.state, h.send, h.recv, h.asked, h.requests, h.responses, h.output, h.sends, h.input⟩

theorem Parked.trans {s'' : HttpClient} (h : Parked s s') (h' : Parked s' s'') : Parked s s'' := by
  obtain ⟨env, rfl⟩ | hgone := h
  · obtain ⟨env', rfl⟩ | hgone' := h'
    · exact Or.inl ⟨env', rfl⟩
    · exact Or.inr ⟨hgone'.log, hgone'.cfg, hgone'.faults, hgone'.buffers, hgone'.state, hgone'.history⟩
  · obtain ⟨env', rfl⟩ | hgone' := h'
    · exact Or.inr ⟨hgone.log, hgone.cfg, hgone.faults, hgone.buffers, hgone.state.imp id (·.env env'), hgone.history⟩
    · refine Or.inr ⟨hgone.log.trans hgone'.log, hgone'.cfg.trans hgone.cfg, hgone'.faults.trans hgone.faults,
        fun hs => hgone'.buffers (hgone.buffers hs), hgone'.state, ?_⟩
      rcases hgone'.history with ⟨hasked, hreq, hres, hout, hsends, hin⟩ | hblank
      · rw [hasked, hreq, hres, hout, hsends, hin]
        exact hgone.history
      · exact Or.inr hblank

/-- The receiving client is as it was. -/
theorem Parked.receiving (h : Parked s s') (hs' : s'.state = .receiving) : ∃ env, s' = { s with env := env } := by
  obtain hsame | hgone := h
  · exact hsame
  · rcases hgone.state with hdead | hfresh
    · exact absurd (hs' ▸ by decide) hdead
    · exact absurd (hs'.symm.trans hfresh.state) (by decide)

/-- A connect that succeeds starts a fresh connection. -/
theorem fresh_dialed {s₁ : HttpClient} (h : s.tryDial = (true, s₁)) :
    Fresh ({ s₁ with state := .connecting } : HttpClient).register ∧
      s.log <:+ ({ s₁ with state := .connecting } : HttpClient).register.log := by
  obtain ⟨env, send, recv, deadline, fd, pool, heq⟩ := tryDial_true h
  have hfits (id : Nat) : (IoBuffer.blank id s.cfg.cap 0).Fits := IoBuffer.fits_blank (Nat.zero_le _) s.cfg.cap_lt
  rcases register_cases ({ s₁ with state := .connecting } : HttpClient) with ⟨-, hreg⟩ | ⟨ok, adds, interest, hreg, -⟩
  · rw [hreg, heq]
    exact ⟨⟨rfl, ⟨hfits send, rfl⟩, ⟨hfits recv, rfl⟩, rfl, rfl, rfl, rfl, rfl, rfl⟩, List.suffix_cons _ _⟩
  · rw [hreg, heq]
    exact ⟨⟨rfl, ⟨hfits send, rfl⟩, ⟨hfits recv, rfl⟩, rfl, rfl, rfl, rfl, rfl, rfl⟩,
      (List.suffix_cons _ _).trans (List.suffix_cons _ _)⟩

theorem gone_refused {s₁ : HttpClient} (h : s.tryDial = (false, s₁)) : Gone s s₁.shutDown := by
  obtain ⟨env, send, recv, deadline, armed, fd, linked, wire, interest, pool, heq, hfits, -⟩ := tryDial_false h
  rw [heq]
  exact ⟨List.suffix_rfl, rfl, rfl, fun _ => hfits, Or.inl not_live_failed, Or.inl ⟨rfl, rfl, rfl, rfl, rfl, rfl⟩⟩

theorem gone_dialed {s₁ : HttpClient} (h : s.tryDial = (true, s₁)) :
    Gone s ({ s₁ with state := .connecting } : HttpClient).register := by
  obtain ⟨hfresh, hlog⟩ := fresh_dialed h
  have hkept : ({ s₁ with state := .connecting } : HttpClient).register.cfg = s.cfg ∧
      ({ s₁ with state := .connecting } : HttpClient).register.faults = s.faults := by
    obtain ⟨env, send, recv, deadline, fd, pool, heq⟩ := tryDial_true h
    rcases register_cases ({ s₁ with state := .connecting } : HttpClient) with ⟨-, hreg⟩ | ⟨ok, adds, interest, hreg, -⟩
    · rw [hreg, heq]
      exact ⟨rfl, rfl⟩
    · rw [hreg, heq]
      exact ⟨rfl, rfl⟩
  exact ⟨hlog, hkept.1, hkept.2, fun _ => ⟨hfresh.send.1, hfresh.recv.1⟩, Or.inr hfresh,
    Or.inr ⟨hfresh.asked, hfresh.requests, hfresh.responses, hfresh.output, hfresh.sends, hfresh.input⟩⟩

theorem gone_close (s : HttpClient) : Gone s s.close :=
  ⟨List.suffix_rfl, rfl, rfl, fun hs => ⟨hs.1.release, hs.2.release⟩, Or.inl not_live_disconnected,
    Or.inl ⟨rfl, rfl, rfl, rfl, rfl, rfl⟩⟩

theorem aside_parked : Aside fun s s' => Withheld s → Parked s s' where
  refl s _ := Or.inl ⟨s.env, rfl⟩
  trans h h' hs := (h hs).trans (h' ((h hs).withheld hs))
  idle hidle hs := absurd hidle hs.1
  refused h h' _ := Parked.trans (Or.inr (gone_refused h)) (h' (gone_refused h).withheld)
  dialed h _ := Or.inr (gone_dialed h)
  close s _ := Or.inr s.gone_close

/-- **What callbacks do**, nested to any depth. -/
theorem parked_callbacks (depth : Nat) : Keeping (fun s s' => Withheld s → Parked s s') (callbacks depth) :=
  keeping_aside aside_parked (fun _ _ _ => Or.inl ⟨_, rfl⟩) depth

end HttpClient

end Lepton.Http

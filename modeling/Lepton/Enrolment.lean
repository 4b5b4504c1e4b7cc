import Mathlib.Data.List.Infix

/-! A client of a poller that registers once and remembers it in a flag, while its connections come and go. What
matters of such a client is a `View`; `Enrols` is the preorder of its steps, for runs whose events are all steady;
and a live client of such a run is listed with the poller. -/

namespace Lepton.Enrolment

/-- What matters of a client: its events and which of them are steady, whether it runs on a poller, is live, is
connected, has set its flag, and has its descriptor listed. -/
structure View (σ ε : Type) where
  log : σ → List ε
  steady : ε → Prop
  poller : σ → Prop
  live : σ → Prop
  linked : σ → Bool
  registered : σ → Bool
  listed : σ → Prop

variable {σ ε : Type} {v : View σ ε} {s s' s'' : σ}

def Steady (v : View σ ε) (s : σ) : Prop := ∀ e ∈ v.log s, v.steady e

/-- A live client is connected, and once the flag is set, a connected client is listed. -/
structure Enlisted (v : View σ ε) (s : σ) : Prop where
  poller : v.poller s
  live : v.live s → v.linked s = true
  listed : v.linked s = true → v.registered s = true → v.listed s

/-- The flag stays, a new connection ends up with the flag set, and the client stays enlisted. -/
structure Keeps (v : View σ ε) (s s' : σ) : Prop where
  stays : v.registered s = true → v.registered s' = true
  manned : v.linked s' = true → v.linked s = true ∨ v.registered s' = true
  enlisted : Enlisted v s → Enlisted v s'

/-- `s'` continues `s`, and a steady continuation keeps the registration. -/
structure Enrols (v : View σ ε) (s s' : σ) : Prop where
  log : v.log s <:+ v.log s'
  kept : Steady v s' → Keeps v s s'

theorem Steady.of_suffix (h : Steady v s') (hlog : v.log s <:+ v.log s') : Steady v s :=
  fun e he => h e (hlog.subset he)

theorem Enrols.refl (v : View σ ε) (s : σ) : Enrols v s s := ⟨List.suffix_rfl, fun _ => ⟨id, Or.inl, id⟩⟩

theorem Enrols.trans (h : Enrols v s s') (h' : Enrols v s' s'') : Enrols v s s'' := by
  refine ⟨h.log.trans h'.log, fun hsteady => ?_⟩
  have hfirst := h.kept (hsteady.of_suffix h'.log)
  have hsecond := h'.kept hsteady
  refine ⟨fun hr => hsecond.stays (hfirst.stays hr), fun hlinked => ?_, fun hs => hsecond.enlisted (hfirst.enlisted hs)⟩
  rcases hsecond.manned hlinked with hmid | hdone
  · exact (hfirst.manned hmid).imp id hsecond.stays
  · exact Or.inr hdone

/-- A step that leaves the connection and the registration alone, and makes nothing live. -/
theorem Enrols.same (hlog : v.log s <:+ v.log s') (hpoller : v.poller s → v.poller s') (hlive : v.live s' → v.live s)
    (hlinked : v.linked s' = v.linked s) (hregistered : v.registered s' = v.registered s)
    (hlisted : v.listed s → v.listed s') : Enrols v s s' := by
  refine ⟨hlog, fun _ => ⟨fun h => hregistered.trans h, fun h => Or.inl (hlinked.symm.trans h), fun hs => ?_⟩⟩
  exact ⟨hpoller hs.poller, fun h => hlinked.trans (hs.live (hlive h)),
    fun hl hr => hlisted (hs.listed (hlinked.symm.trans hl) (hregistered.symm.trans hr))⟩

/-- The end of a connection, from anywhere. -/
theorem Enrols.ended (hlog : v.log s <:+ v.log s') (hpoller : v.poller s → v.poller s') (hlive : ¬ v.live s')
    (hlinked : v.linked s' = false) (hregistered : v.registered s' = v.registered s) : Enrols v s s' := by
  have hgone : v.linked s' ≠ true := fun h => absurd (hlinked.symm.trans h) nofun
  refine ⟨hlog, fun _ => ⟨fun h => hregistered.trans h, fun h => absurd h hgone, fun hs => ?_⟩⟩
  exact ⟨hpoller hs.poller, fun h => absurd h hlive, fun h => absurd h hgone⟩

/-- A connect by a client without the flag, the steps up to its registration, and the registration. -/
theorem Enrols.connect {dialed calling : σ} (hnew : Steady v dialed → v.registered s = false)
    (hlog : v.log s <:+ v.log dialed) (hpoller : v.poller s → v.poller dialed) (hlinked : v.linked dialed = true)
    (hflag : v.registered dialed = v.registered s) (hcalls : Enrols v dialed calling)
    (hlog' : v.log calling <:+ v.log s') (hdone : Steady v s' → v.registered s' = true)
    (henlisted : Steady v s' → Enlisted v calling → Enlisted v s') : Enrols v s s' := by
  have hgrown := hcalls.log.trans hlog'
  refine ⟨hlog.trans hgrown, fun hsteady => ?_⟩
  have hfalse := hnew (hsteady.of_suffix hgrown)
  refine ⟨fun h => absurd (hfalse.symm.trans h) nofun, fun _ => Or.inr (hdone hsteady), fun hs => ?_⟩
  have hstart : Enlisted v dialed :=
    ⟨hpoller hs.poller, fun _ => hlinked, fun _ h => absurd (hfalse.symm.trans (hflag.symm.trans h)) nofun⟩
  exact henlisted hsteady ((hcalls.kept (hsteady.of_suffix hlog')).enlisted hstart)

/-- **A live client is listed** after a steady run from before its first connection. -/
theorem Enrols.listed (h : Enrols v s s') (hs : Enlisted v s) (hlinked : v.linked s = false) (hsteady : Steady v s')
    (hlive : v.live s') : v.listed s' := by
  obtain ⟨-, hmanned, henlisted⟩ := h.kept hsteady
  have hend := henlisted hs
  have hlinked' := hend.live hlive
  exact hend.listed hlinked' ((hmanned hlinked').resolve_left fun h => absurd (hlinked.symm.trans h) nofun)

end Lepton.Enrolment

import Lepton.HttpFlow
import Lepton.PoolCustody

/-! The pool buffers of a client: what it has acquired and not released is what its two handles name, whatever the
user's code does. -/

namespace Lepton.Http

open Custody

variable {s s' : HttpClient}

namespace HttpClient

/-- What the user's code and the outside world do with a client. A callback uses the client like any other code. The
buffers and the event loop are set for good. -/
inductive Uses : HttpClient → HttpClient → Prop where
  | done (s : HttpClient) : Uses s s
  /-- The outside world gets ready to answer. -/
  | wait (s : HttpClient) (env : Env) : Uses s { s with env := env }
  | set (s : HttpClient) (cfg : ClientConfig) (hcap : cfg.cap = s.cfg.cap) (hloop : cfg.busyPoll = s.cfg.busyPoll) :
      Uses s { s with cfg := cfg }
  | call (s : HttpClient) {cb : Callbacks} (hresponse : ∀ s, Uses s (cb.onResponse s))
      (herror : ∀ s, Uses s (cb.onError s)) (a : Api) : Uses s (api cb s a)
  | next {s s' s'' : HttpClient} (h : Uses s s') (h' : Uses s' s'') : Uses s s''

theorem uses_callbacks (depth : Nat) : Keeping Uses (callbacks depth) := by
  induction depth with
  | zero => exact ⟨.done, .done⟩
  | succ depth ih =>
    have hacts (acts : List Act) (s : HttpClient) : Uses s (acts.foldl (act (callbacks depth)) s) := by
      induction acts generalizing s with
      | nil => exact .done s
      | cons a rest ihrest => exact .next (.call s ih.onResponse ih.onError (.act a)) (ihrest _)
    have hcallback (s : HttpClient) : Uses s (script (callbacks depth) s) := by
      unfold script
      split
      · exact .done s
      · exact .next (.wait s _) (hacts _ _)
    exact ⟨hcallback, hcallback⟩

theorem uses_run (depth : Nat) (s : HttpClient) (calls : List (Api × Env)) : Uses s (run depth s calls) := by
  induction calls generalizing s with
  | nil => exact .done s
  | cons c rest ih =>
    have hcall : Uses s (call depth s c) :=
      .next (.wait s c.2) (.call _ (uses_callbacks depth).onResponse (uses_callbacks depth).onError c.1)
    exact .next hcall (ih _)

/-- **The rule for uses.** -/
theorem keeps_uses {R : HttpClient → HttpClient → Prop} (hR : Steps R R) (henv : ∀ s env, R s { s with env := env })
    (hset : ∀ s cfg, R s { s with cfg := cfg }) (h : Uses s s') : R s s' := by
  induction h with
  | done s => exact hR.refl s
  | wait s env => exact henv s env
  | set s cfg _ _ => exact hset s cfg
  | call s _ _ a ihresponse iherror =>
    cases a with
    | act a => exact keeps_act hR ⟨ihresponse, iherror⟩ s a
    | onReady => exact keeps_onReady hR ⟨ihresponse, iherror⟩ s
    | checkTimeouts => exact keeps_checkTimeouts hR ⟨ihresponse, iherror⟩ s
  | next _ _ ih ih' => exact hR.trans ih ih'

/-- What the client has done with the pool, the latest first. -/
def moves (s : HttpClient) : List (Move Nat) := s.pool.filterMap PoolCall.move

/-- The buffers that the handles of the client name. -/
def handles (s : HttpClient) : Multiset Nat := (s.send.item : Multiset Nat) + s.recv.item

/-- The client holds what its handles name. -/
def Owns (s : HttpClient) : Prop := held s.moves = some s.handles

theorem Owns.same (h : Owns s) (hpool : s'.pool = s.pool) (hsend : s'.send.item = s.send.item)
    (hrecv : s'.recv.item = s.recv.item) : Owns s' := by
  unfold Owns moves handles at h ⊢
  rw [hpool, hsend, hrecv]
  exact h

theorem handles_releaseBuffers (s : HttpClient) : s.releaseBuffers.handles = 0 := by
  unfold handles
  change (s.send.release.item : Multiset Nat) + s.recv.release.item = 0
  rw [IoBuffer.item_release, IoBuffer.item_release]
  rfl

theorem owns_releaseBuffers (h : Owns s) : Owns s.releaseBuffers := by
  unfold Owns
  rw [handles_releaseBuffers]
  have hmoves : s.releaseBuffers.moves = s.recv.item.map .give ++ (s.send.item.map .give ++ s.moves) := by
    change (s.recv.released ++ s.send.released ++ s.pool).filterMap PoolCall.move = _
    rw [List.filterMap_append, List.filterMap_append, s.recv.moves_released, s.send.moves_released, List.append_assoc]
    rfl
  rw [hmoves]
  apply held_gives
  apply held_gives
  rw [add_zero]
  exact h

theorem owns_takeBuffers (h : Owns s) : Owns s.takeBuffers.2 := by
  have hreleased : held s.releaseBuffers.moves = some 0 := by
    rw [← s.handles_releaseBuffers]
    exact owns_releaseBuffers h
  obtain ⟨send, s₁, hfirst⟩ : ∃ send s₁, s.releaseBuffers.acquire = (send, s₁) := ⟨_, _, rfl⟩
  obtain ⟨acquires₁, heq₁, -⟩ := s.releaseBuffers.acquire_eq
  obtain ⟨recv, s₂, hsecond⟩ : ∃ recv s₂, ({ s₁ with send := send } : HttpClient).acquire = (recv, s₂) := ⟨_, _, rfl⟩
  obtain ⟨acquires₂, heq₂, -⟩ := ({ s₁ with send := send } : HttpClient).acquire_eq
  rw [hfirst] at heq₁
  rw [hsecond] at heq₂
  change s₁ = _ at heq₁
  change s₂ = _ at heq₂
  have hsend : held s₁.moves = some ((send.item : Multiset Nat) + 0) := by
    rw [heq₁]
    exact held_acquired hreleased rfl
  have hrecv : held s₂.moves = some ((recv.item : Multiset Nat) + (send.item + 0)) := by
    rw [heq₂]
    exact held_acquired hsend rfl
  unfold takeBuffers
  rw [hfirst]
  dsimp only
  rw [hsecond]
  unfold Owns handles
  change held s₂.moves = some ((s₂.send.item : Multiset Nat) + recv.item)
  rw [hrecv, heq₂, add_zero, add_comm]

theorem owns_tryDial {ok : Bool} (hdial : s.tryDial = (ok, s')) (h : Owns s) : Owns s' := by
  have hnoted : Owns { s with notices := .dial s.state :: s.notices } := h.same rfl rfl rfl
  have htaken := owns_takeBuffers hnoted
  obtain ⟨ready, s₁, hbuffers⟩ :
      ∃ ready s₁, ({ s with notices := .dial s.state :: s.notices } : HttpClient).takeBuffers = (ready, s₁) := ⟨_, _, rfl⟩
  rw [hbuffers] at htaken
  unfold tryDial at hdial
  rw [hbuffers] at hdial
  cases ready with
  | false =>
    cases hdial
    exact htaken
  | true =>
    obtain ⟨clocks, t, harm⟩ := s₁.armConnect_eq
    dsimp only at hdial
    rw [harm] at hdial
    unfold transportConnect at hdial
    dsimp only at hdial
    split at hdial
    · cases hdial
      exact htaken.same rfl rfl rfl
    · cases hdial
      exact htaken.same rfl rfl rfl

/-- What was accounted for stays so. -/
def Balances (s s' : HttpClient) : Prop := Owns s → Owns s'

theorem balances_same (hpool : s'.pool = s.pool) (hsend : s'.send.item = s.send.item)
    (hrecv : s'.recv.item = s.recv.item) : Balances s s' := fun h => h.same hpool hsend hrecv

theorem balances_shutDown (s : HttpClient) : Balances s s.shutDown := balances_same rfl rfl rfl

theorem balances_deadlinePassed {b : Bool} (h : s.deadlinePassed = (b, s')) : Balances s s' := by
  obtain ⟨⟨clocks, rfl⟩, -⟩ := deadlinePassed_eq h
  exact balances_same rfl rfl rfl

theorem balances_flushLoop {n : Nat} {how : Sending} (h : flushLoop n s = (how, s')) :
    Balances s s' := by
  obtain ⟨writes, output, sends, wire, sendOff, interest, armed, rfl, -⟩ := flushLoop_eq h
  exact balances_same rfl rfl rfl

theorem balances_parse (s : HttpClient) : Balances s s.parse.2 := by
  unfold parse
  split
  · exact balances_same rfl rfl rfl
  · exact balances_same rfl rfl rfl
  · exact balances_same rfl rfl rfl

theorem balances_recvTurn {turn : RecvTurn} (h : s.recvTurn = (turn, s')) : Balances s s' := by
  obtain rfl : s.recvTurn.2 = s' := congrArg Prod.snd h
  unfold recvTurn
  split
  · exact balances_same rfl rfl rfl
  · obtain ⟨reads, ⟨bytes, -, hread⟩ | ⟨r, hr, hread⟩⟩ := s.transportRead_cases s.recv.tailroom
    · rw [hread]
      dsimp only
      split
      · rw [recvParse_snd]
        exact fun hs => balances_parse _ (hs.same rfl rfl rfl)
      · rw [recvParse_snd]
        exact fun hs => balances_parse _ (hs.same rfl rfl rfl)
    · rw [hread]
      rcases hr with rfl | rfl
      · exact balances_same rfl rfl rfl
      · exact balances_same rfl rfl rfl

theorem balances_rest (s : HttpClient) (n : Nat) : Balances s (s.rest n) := by
  rcases s.rest_cases n with ⟨recv, faults, heq, hbase, -⟩ | ⟨faults, heq⟩
  · rw [heq]
    exact balances_same rfl rfl (congrArg Option.toList hbase)
  · rw [heq]
    exact balances_same rfl rfl rfl

theorem balances_submit (s : HttpClient) (r : Request) (text : List UInt8) : Balances s ((s.asks r).submit text) := by
  obtain ⟨clocks, t, heq⟩ := (s.asks r).submit_eq text
  rw [heq]
  exact balances_same rfl rfl rfl

theorem balances_register (s : HttpClient) : Balances s s.register := by
  obtain ⟨-, heq⟩ | ⟨ok, adds, interest, heq, -⟩ := s.register_cases
  · rw [heq]
    exact id
  · rw [heq]
    exact balances_same rfl rfl rfl

theorem balances_close (s : HttpClient) : Balances s s.close := fun h =>
  (owns_releaseBuffers (h.same rfl rfl rfl : Owns s.transportClose)).same rfl rfl rfl

/-- Every step of the client accounts for the buffers it moves. -/
theorem balances_steps : Steps Balances Balances where
  refl _ := id
  trans h h' := h' ∘ h
  expired {_ s₁ _} h hcall := hcall ∘ s₁.balances_shutDown ∘ balances_deadlinePassed h
  unexpired h := balances_deadlinePassed h
  refused {_ s₁ _} h hcall := hcall ∘ s₁.balances_shutDown ∘ owns_tryDial h
  dialed h hs := balances_register _ ((owns_tryDial h hs).same rfl rfl rfl)
  submit {s r text} _ _ := s.balances_submit r text
  blocked _ h := balances_flushLoop h
  sent _ h := balances_flushLoop h
  unsent {_ s₁ _ _} _ h hcall := hcall ∘ s₁.balances_shutDown ∘ balances_flushLoop h
  stop _ h := balances_recvTurn h
  more _ h := balances_recvTurn h
  broken {_ s₁ _} _ h hcall := hcall ∘ s₁.balances_shutDown ∘ balances_recvTurn h
  answered _ h hcall _ hs := hcall ((balances_recvTurn h hs).same rfl rfl rfl)
  rested _ h hcall _ hs := balances_rest _ _ ((hcall ((balances_recvTurn h hs).same rfl rfl rfl)).same rfl rfl rfl)
  polled h hs := by
    obtain ⟨opens, rfl⟩ := transportPollOpen_eq h
    exact hs.same rfl rfl rfl
  unopened {_ s₁ _ _} _ h _ hcall hs := by
    obtain ⟨opens, heq⟩ := transportPollOpen_eq h
    rw [heq] at hcall
    exact hcall (hs.same rfl rfl rfl)
  opened {s s'} _ h hs := by
    obtain ⟨opens, interest, armed, heq, -⟩ := opened_eq h
    rw [heq]
    exact hs.same rfl rfl rfl
  close := balances_close

theorem owns_use {cfg : ClientConfig} (h : Uses (freshClient cfg) s) : Owns s :=
  keeps_uses balances_steps (fun _ _ => balances_same rfl rfl rfl) (fun _ _ => balances_same rfl rfl rfl) h rfl

end HttpClient

end Lepton.Http

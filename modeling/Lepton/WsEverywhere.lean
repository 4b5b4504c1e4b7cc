import Lepton.WsFlow

/-! Whatever the user's code does. A preorder that every step between two calls of the user's code keeps, in whatever
state the step is taken, is kept by every public call with callbacks that keep it, and so by every use of the session:
settings and public calls, with callbacks that use the session in turn. -/

namespace Lepton.Ws

namespace WsSession

/-- What the user's code and the outside world do with a session. A callback uses the session like any other code. The
buffers and the event loop are set for good. -/
inductive Uses : WsSession → WsSession → Prop where
  | done (s : WsSession) : Uses s s
  /-- The outside world gets ready to answer. -/
  | wait (s : WsSession) (env : Env) : Uses s { s with env := env }
  | set (s : WsSession) (cfg : Config) (autoReconnect : Bool) (hcap : cfg.cap = s.cfg.cap)
      (hloop : cfg.busyPoll = s.cfg.busyPoll) : Uses s { s with cfg := cfg, autoReconnect := autoReconnect }
  | call (s : WsSession) {cb : Callbacks} (hstate : ∀ s, Uses s (cb.onState s)) (hmessage : ∀ s, Uses s (cb.onMessage s))
      (a : Api) : Uses s (api cb s a)
  | next {s s' s'' : WsSession} (h : Uses s s') (h' : Uses s' s'') : Uses s s''

/-- Callbacks from a tape are a use, at any depth. -/
theorem uses_reentrant (depth : Nat) : Keeping Uses (reentrant depth) := by
  induction depth with
  | zero => exact ⟨.done, .done⟩
  | succ depth ih =>
    have hcalls (calls : List Api) (s : WsSession) : Uses s (calls.foldl (api (reentrant depth)) s) := by
      induction calls generalizing s with
      | nil => exact .done s
      | cons a rest ihrest => exact .next (.call s ih.onState ih.onMessage a) (ihrest _)
    have hcallback (s : WsSession) : Uses s (reenter (reentrant depth) s) := by
      unfold reenter
      split
      · exact .done s
      · exact .next (.wait s _) (hcalls _ _)
    exact ⟨hcallback, hcallback⟩

theorem uses_run (depth : Nat) (s : WsSession) (calls : List (Api × Env)) :
    Uses s (runWith (reentrant depth) s calls) := by
  induction calls generalizing s with
  | nil => exact .done s
  | cons c rest ih =>
    have hcall : Uses s (callWith (reentrant depth) s c) :=
      .next (.wait s c.2) (.call _ (uses_reentrant depth).onState (uses_reentrant depth).onMessage c.1)
    exact .next hcall (ih _)

/-- A preorder kept by every step in every state. -/
structure Everywhere (R : WsSession → WsSession → Prop) : Prop extends Takes R, Dials R where
  enter : ∀ s st, R s (s.enter st)
  note : ∀ s e, R s (s.note e)
  flags : ∀ s auto inClose, R s { s with autoReconnect := auto, inClose := inClose }
  env : ∀ s env, R s { s with env := env }
  settings : ∀ s cfg auto, R s { s with cfg := cfg, autoReconnect := auto }
  consumeRecv : ∀ s n, R s (s.consumeRecv n)
  compactRecv : ∀ s, R s s.compactRecv
  reconnectDue : ∀ s, R s s.reconnectDue.2
  pollOpen : ∀ s, R s s.transportPollOpen.2
  queueRequest : ∀ s, R s s.queueRequest.2
  readResponse : ∀ s, R s s.readResponse.2
  armPing : ∀ s, R s s.armPing
  readFrames : ∀ s, R s s.readFrames.2

namespace Everywhere

variable {R : WsSession → WsSession → Prop} {cb : Callbacks}

theorem setState (hE : Everywhere R) (hcb : Keeping R cb) (s : WsSession) (st : WsState) : R s (setState cb s st) :=
  keeps_setState hE.above hcb (hE.enter s st)

theorem close (hE : Everywhere R) (hcb : Keeping R cb) (s : WsSession) (code : UInt16) : R s (close cb s code) := by
  apply keeps_close hE.toBlocks hcb s code (hE.flags s false s.inClose)
  intro _
  have hsend : R s (sendClose cb s code) :=
    keeps_sendClose hE.toBlocks.toFlushes hcb (hE.flags s false true) (hE.queueFrame ..)
      fun _ inClose _ _ _ => hE.trans (hE.note _ _) (hE.flags _ _ inClose)
  exact hE.trans hsend (hE.enter _ .closing)

theorem act (hE : Everywhere R) (hcb : Keeping R cb) (s : WsSession) (a : Act) : R s (act cb s a) := by
  cases a with
  | connect => exact keeps_startConnect hE.toBlocks hE.toDials hcb s
  | send payload binary => exact keeps_send hE.toBlocks.toFlushes hcb s payload binary
  | close code => exact hE.close hcb s code

theorem parseLoop (hE : Everywhere R) (hcb : Keeping R cb) (fuel : Nat) (s : WsSession) : R s (parseLoop cb fuel s) := by
  induction fuel generalizing s with
  | zero => exact hE.exhausted s _
  | succ fuel ih =>
    rw [WsSession.parseLoop]
    refine hE.trans (hE.countHeader s) ?_
    generalize s.countHeader = s₁
    dsimp only
    split
    · exact hE.compactRecv s₁
    · exact keeps_teardown hE.toBlocks hcb s₁ not_live_failed
    · next hdr payload total _ =>
      have hdispatch := hE.trans (hE.countFrame s₁ hdr payload trivial) (keeps_dispatchFrame hE.toDispatches hcb _ hdr
        payload trivial (hE.queueFrame _ .pong payload true))
      have hturn := hE.trans hdispatch (hE.consumeRecv _ total)
      split
      · exact hE.trans hturn (ih _)
      · exact hturn

theorem parseFrames (hE : Everywhere R) (hcb : Keeping R cb) (s : WsSession) : R s (parseFrames cb s) :=
  hE.parseLoop hcb _ s

theorem sendUpgradeRequest (hE : Everywhere R) (hcb : Keeping R cb) (s : WsSession) : R s (sendUpgradeRequest cb s) := by
  have hset := hE.setState hcb s .upgrading
  have hqueue := hE.trans hset (hE.queueRequest _)
  unfold WsSession.sendUpgradeRequest
  split
  · next h =>
    rw [h] at hqueue
    exact hE.trans hqueue (keeps_flushPending hE.toBlocks.toFlushes hcb _)
  · next h =>
    rw [h] at hqueue
    exact hE.trans hqueue (keeps_teardown hE.toBlocks hcb _ not_live_failed)

theorem driveUpgradeRead (hE : Everywhere R) (hcb : Keeping R cb) (s : WsSession) : R s (driveUpgradeRead cb s) := by
  have hread := hE.readResponse s
  unfold WsSession.driveUpgradeRead
  split
  · next h =>
    rw [h] at hread
    exact hread
  · next h =>
    rw [h] at hread
    exact hE.trans hread (keeps_teardown hE.toBlocks hcb _ not_live_failed)
  · next s₁ h =>
    rw [h] at hread
    have hopen := hE.trans hread (hE.trans (hE.setState hcb s₁ .opened) (hE.armPing _))
    unfold parseRest
    split
    · exact hE.trans hopen (hE.trans (hE.note _ _) (hE.parseFrames hcb _))
    · exact hopen

theorem driveFrameRead (hE : Everywhere R) (hcb : Keeping R cb) (s : WsSession) : R s (driveFrameRead cb s) := by
  have hread := hE.readFrames s
  unfold WsSession.driveFrameRead
  split
  · next h =>
    rw [h] at hread
    exact hread
  · next h =>
    rw [h] at hread
    exact hE.trans hread (keeps_teardown hE.toBlocks hcb _ not_live_disconnected)
  · next h =>
    rw [h] at hread
    exact hE.trans hread (keeps_teardown hE.toBlocks hcb _ not_live_failed)
  · next h =>
    rw [h] at hread
    exact hE.trans hread (hE.parseFrames hcb _)

theorem maybeReconnect (hE : Everywhere R) (hcb : Keeping R cb) (s : WsSession) : R s (maybeReconnect cb s) := by
  have hdue := hE.reconnectDue s
  unfold WsSession.maybeReconnect
  split
  · next h =>
    rw [h] at hdue
    exact hE.trans hdue (keeps_startConnect hE.toBlocks hE.toDials hcb _)
  · next h =>
    rw [h] at hdue
    exact hdue

/-- The part of `on_ready` for a connection that is not up yet. -/
theorem polled (hE : Everywhere R) (hcb : Keeping R cb) (s : WsSession) :
    R s (match s.transportPollOpen with
      | (.connecting, s) => s
      | (.opened, s) => WsSession.sendUpgradeRequest cb s
      | (.failed, s) => teardown cb s .failed
      | (.closed, s) => teardown cb s .failed) := by
  have hpoll := hE.pollOpen s
  split
  · next h =>
    rw [h] at hpoll
    exact hpoll
  · next h =>
    rw [h] at hpoll
    exact hE.trans hpoll (hE.sendUpgradeRequest hcb _)
  · next h =>
    rw [h] at hpoll
    exact hE.trans hpoll (keeps_teardown hE.toBlocks hcb _ not_live_failed)
  · next h =>
    rw [h] at hpoll
    exact hE.trans hpoll (keeps_teardown hE.toBlocks hcb _ not_live_failed)

theorem onReady (hE : Everywhere R) (hcb : Keeping R cb) (s : WsSession) : R s (onReady cb s) := by
  unfold WsSession.onReady
  refine hE.trans (keeps_checkTimeouts hE.toBlocks hcb s) ?_
  generalize checkTimeouts cb s = s₁
  dsimp only
  split
  · exact hE.maybeReconnect hcb s₁
  · split
    · exact hE.polled hcb s₁
    · refine hE.trans (keeps_flushPending hE.toBlocks.toFlushes hcb s₁) ?_
      unfold drive
      split
      · exact hE.driveUpgradeRead hcb _
      · split
        · exact hE.trans (hE.driveFrameRead hcb _) (keeps_checkKeepalive hE.toTakes hcb _)
        · exact hE.refl _

theorem api (hE : Everywhere R) (hcb : Keeping R cb) (s : WsSession) (a : Api) : R s (api cb s a) := by
  cases a with
  | act a => exact hE.act hcb s a
  | onReady => exact hE.onReady hcb s
  | checkTimeouts => exact keeps_checkTimeouts hE.toBlocks hcb s

/-- **The rule for uses.** -/
theorem uses (hE : Everywhere R) {s s' : WsSession} (h : Uses s s') : R s s' := by
  induction h with
  | done s => exact hE.refl s
  | wait s env => exact hE.env s env
  | set s cfg auto _ _ => exact hE.settings s cfg auto
  | call s _ _ a ihstate ihmessage => exact hE.api ⟨ihstate, ihmessage⟩ s a
  | next _ _ ih ih' => exact hE.trans ih ih'

end Everywhere

end WsSession

end Lepton.Ws

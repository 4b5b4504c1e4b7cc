import Lepton.HttpOwnership
import Lepton.WsOwnership

/-! The sessions and clients that share a pool. An upgrade request that finds no slot in the ring is dropped with its
buffer; in every use without one, each buffer of the pool is in one place, and none is released twice. -/

namespace Lepton

open Custody

/-- An object that takes its buffers from the pool: a session or a client, after some use, and destroyed or not. -/
inductive Holder where
  | session (cfg : Ws.Config) (seed : UInt64) (autoReconnect : Bool) (s : Ws.WsSession)
      (used : Ws.WsSession.Uses (Ws.fresh cfg seed autoReconnect) s) (destroyed : Bool)
  | client (cfg : Http.ClientConfig) (s : Http.HttpClient) (used : Http.HttpClient.Uses (Http.freshClient cfg) s)
      (destroyed : Bool)

namespace Holder

def destroyed : Holder → Bool
  | .session _ _ _ _ _ destroyed => destroyed
  | .client _ _ _ destroyed => destroyed

/-- What the object has done with the pool, the latest first. The destructor releases what is left. -/
def moves : Holder → List (Move Nat)
  | .session _ _ _ s _ destroyed => if destroyed then s.releaseBuffers.moves else s.moves
  | .client _ s _ destroyed => if destroyed then s.releaseBuffers.moves else s.moves

/-- The buffers that the handles of the object name. -/
def handles : Holder → Multiset Nat
  | .session _ _ _ s _ destroyed => if destroyed then s.releaseBuffers.handles else s.handles
  | .client _ s _ destroyed => if destroyed then s.releaseBuffers.handles else s.handles

/-- A session finds a slot left in the ring whenever it builds an upgrade request. -/
def Roomy : Holder → Prop
  | .session _ _ _ s _ _ => s.Roomy
  | .client .. => True

theorem held_moves (h : Holder) (hroomy : h.Roomy) : held h.moves = some h.handles := by
  cases h with
  | session cfg seed autoReconnect s used destroyed =>
    have howns : s.Owns 0 := Ws.WsSession.owns_use used hroomy
    unfold moves handles
    cases destroyed with
    | false =>
      have hheld : held s.moves = some (s.handles + 0) := howns
      rw [add_zero] at hheld
      exact hheld
    | true =>
      have hheld : held s.releaseBuffers.moves = some (s.releaseBuffers.handles + 0) :=
        Ws.WsSession.owns_releaseBuffers howns
      rw [add_zero] at hheld
      exact hheld
  | client cfg s used destroyed =>
    have howns : s.Owns := Http.HttpClient.owns_use used
    cases destroyed with
    | false => exact howns
    | true => exact Http.HttpClient.owns_releaseBuffers howns

theorem handles_destroyed {h : Holder} (hdestroyed : h.destroyed = true) : h.handles = 0 := by
  cases h with
  | session cfg seed autoReconnect s used destroyed =>
    cases hdestroyed
    exact s.handles_releaseBuffers
  | client cfg s used destroyed =>
    cases hdestroyed
    exact s.handles_releaseBuffers

end Holder

section Sharing

variable {T ι : Type} [Fintype T] [DecidableEq T] [Fintype ι] [DecidableEq ι]

/-- Where the buffers of a pool are. -/
structure Accounted (count : Nat) (pool : Pool.State T) (holders : ι → Holder) : Prop where
  /-- Every buffer is free, named by a handle or on its way, exactly once. -/
  places : (pool.freeList count : Multiset Nat) + Ledger.total Holder.handles holders
    + Ledger.total Pool.Pc.transit pool.pc = Multiset.range count
  available : (∀ t, pool.pc t = .idle) → pool.available = (pool.freeList count).length
  destroyed : ∀ i, (holders i).destroyed = true → (holders i).handles = 0
  emptied : (∀ t, pool.pc t = .idle) → (∀ i, (holders i).destroyed = true) → pool.available = count

/-- **Buffers are neither lost nor released twice.** For any sessions and clients, used in any way, whose calls of one
pool are interleaved in any way, with a slot left in the ring whenever a session builds an upgrade request: the pool is
not corrupted, and every buffer is accounted for. -/
theorem buffers_accounted {count : Nat} (hpos : 1 ≤ count) (hcount : count < 2 ^ 31) {holders : ι → Holder}
    (hroomy : ∀ i, (holders i).Roomy) {pool : Option (Pool.State T)} {history : List (ι × Move Nat)}
    (hserves : Pool.Serves count pool history) (hmoves : ∀ i, movesOf i history = (holders i).moves) :
    ∃ s, pool = some s ∧ Accounted count s holders := by
  have hheld (i : ι) : held (movesOf i history) = some (holders i).handles := by
    rw [hmoves]
    exact (holders i).held_moves (hroomy i)
  obtain ⟨s, hs, hplaces, havailable⟩ := hserves.places hpos hcount hheld
  change _ + Ledger.total Holder.handles holders + _ = _ at hplaces
  refine ⟨s, hs, hplaces, havailable, fun i => Holder.handles_destroyed, fun hidle hdestroyed => ?_⟩
  have hhandles : Ledger.total Holder.handles holders = 0 :=
    Ledger.total_eq_zero fun i => Holder.handles_destroyed (hdestroyed i)
  have htransit : Ledger.total Pool.Pc.transit s.pc = 0 := by
    refine Ledger.total_eq_zero fun t => ?_
    rw [hidle t]
    rfl
  rw [hhandles, htransit, add_zero, add_zero] at hplaces
  rw [havailable hidle, ← Multiset.coe_card, hplaces, Multiset.card_range]

end Sharing

/-- Whole operations of one thread, the latest first. -/
def eventsOf {ι : Type} (history : List (ι × Move Nat)) : List (ι × Pool.Event Unit) :=
  history.flatMap fun p => (Pool.undisturbed () p.2).map (Prod.mk p.1)

namespace Ws

def leakCfg : Config := { cap := 256, cap_ge := plainCap_ge, cap_lt := plainCap_lt }

/-- In the callback for Upgrading the session is driven to Open, and the ring is filled. -/
def leakRun : List (Api × Env) :=
  [(.act .connect, { connects := [some 3], acquires := [some 0] }),
   (.onReady,
    { opens := [.opened], reads := [.data (Http.ascii "HTTP/1.1 101 Switching Protocols\r\n\r\n")],
      acquires := (List.range 33).map fun i => some (i + 1),
      reentries := [.onReady :: List.replicate 32 (.act (.send [] false))] })]

end Ws

/-- A session that connects and is destroyed. -/
def briefSession : Holder :=
  .session Ws.leakCfg 0 false _ (Ws.WsSession.uses_run 0 _ (Ws.leakRun.take 1)) true

/-- A client that connects. -/
def connectedClient : Holder :=
  .client { cap := 64, cap_ge := by decide, cap_lt := by decide } _
    (Http.HttpClient.uses_run 0 _ [(.act .connect, { connects := [some 4], acquires := [some 1, some 2] })]) false

def sharedHistory : List (Bool × Move Nat) := [(true, .give 0), (false, .take 2), (false, .take 1), (true, .take 0)]

theorem shared_accounted :
    ∃ s : Pool.State Unit, Pool.Serves 4 (some s) sharedHistory ∧
      Accounted 4 s (fun b : Bool => if b then briefSession else connectedClient) ∧ s.available = 2 := by
  have htrace : (Pool.trace 4 (eventsOf sharedHistory)).any
      (fun p => p.2 = sharedHistory ∧ p.1.available = 2) = true := by decide
  obtain ⟨s, hserves, havailable⟩ := Pool.serves_of_trace (fun s => s.available = 2) htrace
  have hmoves : ∀ b, movesOf b sharedHistory = Holder.moves (if b then briefSession else connectedClient) := by
    decide
  have hroomy (b : Bool) : (if b then briefSession else connectedClient).Roomy := by
    cases b with
    | false => trivial
    | true =>
      have hlog : (Ws.WsSession.runWith (Ws.WsSession.reentrant 0) (Ws.fresh Ws.leakCfg 0 false) (Ws.leakRun.take 1)).log
          = [.added true, .changed .connecting, .dialed false] := by decide
      intro st hmem
      rw [hlog] at hmem
      simp at hmem
  obtain ⟨s', hs', haccounted⟩ := buffers_accounted (by decide) (by decide) hroomy hserves hmoves
  cases hs'
  exact ⟨s, hserves, haccounted, havailable⟩

/-- A session that drops an upgrade request, and is destroyed. -/
def leakingSession : Holder := .session Ws.leakCfg 0 false _ (Ws.WsSession.uses_run 1 _ Ws.leakRun) true

def leakHistory : List (Unit × Move Nat) := leakingSession.moves.map (Prod.mk ())

/-- The pool stays one buffer short for good. -/
theorem leaked_not_accounted :
    ∃ s : Pool.State Unit, Pool.Serves 34 (some s) leakHistory ∧ (∀ i, movesOf i leakHistory = leakingSession.moves) ∧
      (∀ t, s.pc t = .idle) ∧ leakingSession.destroyed = true ∧ s.available = 33 ∧
      ¬ Accounted 34 s (fun _ : Unit => leakingSession) := by
  have htrace : (Pool.trace 34 (eventsOf leakHistory)).any
      (fun p => p.2 = leakHistory ∧ p.1.pc () = .idle ∧ p.1.available = 33) = true := by decide +kernel
  have hpool := Pool.serves_of_trace (fun s => s.pc () = .idle ∧ s.available = 33) htrace
  obtain ⟨s, hserves, hidle, havailable⟩ := hpool
  have hmoves : ∀ i, movesOf i leakHistory = leakingSession.moves := by decide +kernel
  refine ⟨s, hserves, hmoves, fun _ => hidle, rfl, havailable, fun h => ?_⟩
  have hfull := h.emptied (fun _ => hidle) fun _ => rfl
  rw [havailable] at hfull
  exact absurd hfull (by decide)

end Lepton

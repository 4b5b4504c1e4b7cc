import Lepton.TlsHandles

/-! Streams that are constructed, used, moved and destroyed, in any order. The `SSL` objects they hold are numbered
over all streams, so that a move shows as a change of owner. -/

namespace Lepton.Tls

open Function Owners

namespace TlsStream

/-- What a move leaves of the stream it takes from: the context, and phase `Idle`. -/
def movedFrom (o : TlsStream) : TlsStream := { ctx := o.ctx }

theorem matched_idle (ctx : Bool) : Matched { ctx := ctx } :=
  Down.matched ⟨rfl, rfl, rfl⟩ (fun h => h.elim nofun nofun)

theorem serves_env {s : TlsStream} {calm : Prop} (h : s.Matched) (env : Env) : Serves calm s { s with env := env } :=
  ⟨h.congr rfl rfl rfl rfl, .same rfl rfl rfl, fun _ => rfl⟩

theorem serves_call {s : TlsStream} (h : s.Matched) {c : Call} (hc : c = .connect → ¬ s.phase.Live) (env : Env) :
    Serves (false ∉ env.allocs) s (call s c env) := by
  have henv : Serves (false ∉ env.allocs) s { s with env := env } := serves_env h env
  refine henv.trans ?_
  cases c with
  | connect => exact serves_connect (henv.matched.down (hc rfl))
  | pollOpen => exact serves_pollOpen henv.matched
  | read => exact serves_read henv.matched
  | write src => exact serves_write henv.matched src
  | close => exact serves_close henv.matched

end TlsStream

/-- The streams there are, and the handles OpenSSL has given them. -/
structure World where
  streams : Nat → Option TlsStream := fun _ => none
  heap : Heap := {}

inductive Op where
  /-- The default constructor and `set_context`. -/
  | construct (i : Nat) (ctx : Bool)
  | setContext (i : Nat) (ctx : Bool)
  | call (i : Nat) (c : Call) (env : Env)
  /-- `TlsStream i{std::move(j)}`. -/
  | moveConstruct (i j : Nat)
  /-- `i = std::move(j)`; its `close` is answered from `env`. -/
  | moveAssign (i j : Nat) (env : Env)
  | destroy (i : Nat) (env : Env)

namespace World

variable {w w' w'' : World} {i j : Nat} {calm : Prop}

/-- Stream `i`, if there is one, does `f`. -/
def act (w : World) (i : Nat) (f : TlsStream → TlsStream) : World :=
  match w.streams i with
  | none => w
  | some s =>
    let s' := f { s with heap := w.heap }
    ⟨update w.streams i (some s'), s'.heap⟩

/-- The members of stream `j` become those of stream `i`. -/
def take (w : World) (i j : Nat) : World :=
  match w.streams j with
  | none => w
  | some o => { w with streams := update (update w.streams i (some o)) j (some o.movedFrom) }

def step (w : World) : Op → World
  | .construct i ctx =>
    match w.streams i with
    | none => { w with streams := update w.streams i (some { ctx := ctx }) }
    | some _ => w
  | .setContext i ctx => w.act i ({ · with ctx := ctx })
  | .call i c env => w.act i (Tls.call · c env)
  | .moveConstruct i j =>
    match w.streams i with
    | none => w.take i j
    | some _ => w
  | .moveAssign i j env =>
    match w.streams i, w.streams j with
    | some _, some _ => if i = j then w else (w.act i (Tls.call · .close env)).take i j
    | _, _ => w
  | .destroy i env =>
    let w := w.act i (Tls.call · .close env)
    { w with streams := update w.streams i none }

def run (w : World) (ops : List Op) : World := ops.foldl step w

/-- What the stream in a place holds. -/
def holding (o : Option TlsStream) : Option Nat := o.bind TlsStream.held

/-- The `SSL` objects and the streams that hold them. -/
def objects (w : World) : Objects Nat := ⟨w.heap.made, w.heap.freed, holding ∘ w.streams⟩

def Matched (w : World) : Prop := ∀ i s, w.streams i = some s → s.Matched

/-- What is asked of an operation. -/
structure Serves (calm : Prop) (w w' : World) : Prop where
  matched : w'.Matched
  steps : Steps w.objects w'.objects
  safe : calm → w'.heap.nullUses = w.heap.nullUses

theorem Serves.trans (h : Serves calm w w') (h' : Serves calm w' w'') : Serves calm w w'' :=
  ⟨h'.matched, h.steps.trans h'.steps, fun hcalm => (h'.safe hcalm).trans (h.safe hcalm)⟩

theorem Serves.refl (h : w.Matched) : Serves calm w w := ⟨h, .refl, fun _ => rfl⟩

theorem Matched.update (h : w.Matched) {o : Option TlsStream} (ho : ∀ s, o = some s → s.Matched) (i : Nat)
    (heap : Heap) : Matched ⟨update w.streams i o, heap⟩ := by
  intro k s hs
  by_cases hk : k = i
  · subst hk
    exact ho s ((update_self k o w.streams).symm.trans hs)
  · exact h k s ((update_of_ne hk o w.streams).symm.trans hs)

theorem serves_update (h : w.Matched) {o : Option TlsStream} (ho : ∀ s, o = some s → s.Matched)
    (hempty : holding o = none) (hbefore : holding (w.streams i) = none) :
    Serves calm w { w with streams := update w.streams i o } := by
  refine ⟨h.update ho i w.heap, ?_, fun _ => rfl⟩
  have hsame : (holding ∘ update w.streams i o) = holding ∘ w.streams := by
    rw [comp_update, hempty]
    exact update_eq_self_iff.mpr hbefore.symm
  rw [objects, objects, hsame]

theorem serves_act (h : w.Matched) {f : TlsStream → TlsStream}
    (hf : ∀ s, w.streams i = some s → TlsStream.Serves calm { s with heap := w.heap } (f { s with heap := w.heap })) :
    Serves calm w (w.act i f) := by
  unfold act
  cases hs : w.streams i with
  | none => exact .refl h
  | some s =>
    have hserves := hf s hs
    generalize hs' : f { s with heap := w.heap } = s' at hserves
    dsimp only
    rw [hs']
    refine ⟨h.update (fun t ht => ?_) i s'.heap, ?_, hserves.safe⟩
    · cases ht
      exact hserves.matched
    · -- the steps of the stream, with what the others hold beside them
      have hsteps := hserves.trades (holding ∘ w.streams) i
      have hbefore : TlsStream.objects (holding ∘ w.streams) i { s with heap := w.heap } = w.objects := by
        rw [TlsStream.objects, objects]
        congr 1
        refine update_eq_self_iff.mpr ?_
        rw [comp_apply, hs]
        rfl
      have hafter : TlsStream.objects (holding ∘ w.streams) i s' =
          objects ⟨update w.streams i (some s'), s'.heap⟩ := by
        rw [TlsStream.objects, objects, comp_update]
        rfl
      rw [hbefore, hafter] at hsteps
      exact hsteps

theorem serves_take (h : w.Matched) (hne : i ≠ j) (hempty : holding (w.streams i) = none) :
    Serves calm w (w.take i j) := by
  unfold take
  cases hj : w.streams j with
  | none => exact .refl h
  | some o =>
    have hmoved := (h.update (fun s hs => h j s (hj.trans hs)) i w.heap).update (o := some o.movedFrom)
      (fun s hs => by cases hs; exact TlsStream.matched_idle o.ctx) j w.heap
    refine ⟨hmoved, .single ?_, fun _ => rfl⟩
    have hstep : Step w.objects _ := .hand (o := w.objects) hne.symm hempty
    convert hstep using 1
    have hhand : w.objects.holds j = holding (some o) := congrArg holding hj
    rw [hhand, objects, objects, comp_update, comp_update]
    rfl

variable (calm) in
/-- `close`, in a move assignment or the destructor: the stream holds nothing any more. -/
theorem serves_act_close (h : w.Matched) (i : Nat) (env : Env) :
    Serves calm w (w.act i (Tls.call · .close env)) ∧
      holding ((w.act i (Tls.call · .close env)).streams i) = none := by
  have hclose (s : TlsStream) (hs : s.Matched) : TlsStream.Serves calm s (Tls.call s .close env) := by
    have henv : TlsStream.Serves calm s { s with env := env } := TlsStream.serves_env hs env
    exact henv.trans (TlsStream.serves_close henv.matched)
  refine ⟨serves_act h fun s hs => hclose _ ((h i s hs).congr rfl rfl rfl rfl), ?_⟩
  unfold act
  cases hs : w.streams i with
  | none =>
    dsimp only
    rw [hs]
    rfl
  | some s =>
    have hmatched := (hclose { s with heap := w.heap } ((h i s hs).congr rfl rfl rfl rfl)).matched
    dsimp only
    rw [update_self]
    exact (hmatched.down fun hlive => hlive.elim nofun nofun).held_eq

/-- The stream of a connect does not work with OpenSSL. -/
def Tame (w : World) : Op → Prop
  | .call i .connect _ =>
    match w.streams i with
    | none => True
    | some s => ¬ s.phase.Live
  | _ => True

/-- The allocations of the call succeed. -/
def Allocated : Op → Prop
  | .call _ _ env => false ∉ env.allocs
  | _ => True

theorem serves_step (h : w.Matched) {op : Op} (htame : w.Tame op) : Serves (Allocated op) w (w.step op) := by
  cases op with
  | construct i ctx =>
    rw [step]
    split
    · next hnone =>
      refine serves_update h (fun s hs => ?_) rfl (congrArg holding hnone)
      cases hs
      exact TlsStream.matched_idle ctx
    · exact .refl h
  | setContext i ctx =>
    rw [step]
    refine serves_act h fun s hs => ?_
    exact ⟨(h i s hs).congr rfl rfl rfl rfl, .same rfl rfl rfl, fun _ => rfl⟩
  | call i c env =>
    rw [step, Allocated]
    refine serves_act h fun s hs => ?_
    have hmatched : TlsStream.Matched { s with heap := w.heap } := (h i s hs).congr rfl rfl rfl rfl
    refine TlsStream.serves_call hmatched (fun hc => ?_) env
    subst hc
    rw [Tame, hs] at htame
    exact htame
  | moveConstruct i j =>
    rw [step]
    split
    · next hnone =>
      by_cases hne : i = j
      · subst hne
        rw [take, hnone]
        exact .refl h
      · exact serves_take h hne (congrArg holding hnone)
    · exact .refl h
  | moveAssign i j env =>
    rw [step]
    split
    · split
      · exact .refl h
      · next hne =>
        obtain ⟨hclosed, hempty⟩ := serves_act_close (Allocated (.moveAssign i j env)) h i env
        exact hclosed.trans (serves_take hclosed.matched hne hempty)
    · exact .refl h
  | destroy i env =>
    obtain ⟨hclosed, hempty⟩ := serves_act_close (Allocated (.destroy i env)) h i env
    exact hclosed.trans (serves_update hclosed.matched nofun rfl hempty)

/-- Every connect of the run is tame. -/
def TameRun : World → List Op → Prop
  | _, [] => True
  | w, op :: ops => w.Tame op ∧ TameRun (w.step op) ops

theorem serves_run {ops : List Op} (h : w.Matched) (htame : w.TameRun ops) :
    Serves (∀ op ∈ ops, Allocated op) w (w.run ops) := by
  induction ops generalizing w with
  | nil => exact .refl h
  | cons op ops ih =>
    have hstep := serves_step h htame.1
    have hrest := ih hstep.matched htame.2
    refine ⟨hrest.matched, hstep.steps.trans hrest.steps, fun hcalm => ?_⟩
    exact (hrest.safe fun op hop => hcalm op (List.mem_cons_of_mem _ hop)).trans
      (hstep.safe (hcalm op List.mem_cons_self))

/-- The handles of all streams are in order. -/
structure Orderly (w : World) : Prop where
  /-- They are all there in phases `Handshaking` and `Established`, and all null otherwise. -/
  matched : w.Matched
  /-- No operation was invoked on a null handle. -/
  safe : w.heap.nullUses = 0
  /-- Every `SSL` object made is held by one stream, or was freed once. -/
  sound : Sound w.objects
  /-- When the streams are gone, every one was freed once. -/
  freedOnce : (∀ i, w.streams i = none) → ∀ a < w.heap.made, w.heap.freed.count a = 1

/-- In every sequence of operations in which the allocations succeed and no connect hits a stream that is shaking
hands or established, the handles of all streams are in order. -/
theorem run_orderly (ops : List Op) (htame : TameRun {} ops) (halloc : ∀ op ∈ ops, Allocated op) :
    Orderly (run {} ops) := by
  have hserves : Serves (∀ op ∈ ops, Allocated op) {} (run {} ops) := serves_run nofun htame
  have hsound : Sound (run {} ops).objects := Steps.sound hserves.steps sound_start
  exact ⟨hserves.matched, hserves.safe halloc, hsound, fun hgone a ha =>
    hsound.all_freed (fun i => congrArg holding (hgone i)) ha⟩

instance (w : World) : DecidablePred w.Tame
  | .call i .connect _ =>
    match h : w.streams i with
    | none => isTrue (by rw [Tame, h]; trivial)
    | some s => decidable_of_iff (¬ s.phase.Live) (by rw [Tame, h])
  | .call _ .pollOpen _ | .call _ .read _ | .call _ (.write _) _ | .call _ .close _ => isTrue trivial
  | .construct .. | .setContext .. | .moveConstruct .. | .moveAssign .. | .destroy .. => isTrue trivial

instance : DecidablePred Allocated
  | .call _ _ env => inferInstanceAs (Decidable (false ∉ env.allocs))
  | .construct .. | .setContext .. | .moveConstruct .. | .moveAssign .. | .destroy .. => isTrue trivial

instance : (w : World) → (ops : List Op) → Decidable (TameRun w ops)
  | _, [] => isTrue trivial
  | w, op :: ops =>
    have := instDecidableTameRun (w.step op) ops
    inferInstanceAs (Decidable (w.Tame op ∧ TameRun (w.step op) ops))

/-- TCP is up and the handshake takes one call of OpenSSL. -/
def handshakes : Env := { opens := [.opened], ssl := [{ result := .ok }] }

/-- A connection is moved to a new stream, the old stream connects again, and the first connection is moved back over
the second. -/
def movingOps : List Op :=
  [.construct 0 true, .call 0 .connect {}, .call 0 .pollOpen handshakes, .moveConstruct 1 0, .call 0 .connect {},
    .call 0 .pollOpen handshakes, .moveAssign 0 1 {}, .call 0 .read {}, .destroy 1 {}, .destroy 0 {}]

theorem movingOps_orderly :
    TameRun {} movingOps ∧ (run {} movingOps).heap = { made := 2, freed := [0, 1] } ∧ Orderly (run {} movingOps) :=
  ⟨by decide, by decide, run_orderly movingOps (by decide) (by decide)⟩

/-- An established stream connects again. -/
def reconnectOps : List Op :=
  [.construct 0 true, .call 0 .connect {}, .call 0 .pollOpen handshakes, .call 0 .connect {}]

theorem reconnect_not_orderly :
    -- the stream is connecting and still has its handles
    ¬ (run {} reconnectOps).Matched ∧
    -- the next handshake overwrites them, and the first object is never freed
    (run {} (reconnectOps ++ [.call 0 .pollOpen handshakes, .destroy 0 {}])).heap = { made := 2, freed := [1] } ∧
    (∀ i, (run {} (reconnectOps ++ [.call 0 .pollOpen handshakes, .destroy 0 {}])).streams i = none) ∧
    -- a handshake whose `SSL_new` fails goes on with the null pointer
    (run {} [.construct 0 true, .call 0 .connect {},
      .call 0 .pollOpen { opens := [.opened], allocs := [false] }]).heap = { nullUses := 1 } := by
  refine ⟨fun hmatched => ?_, by decide, fun i => ?_, by decide⟩
  · have hstream : ∃ s, (run {} reconnectOps).streams 0 = some s ∧ s.phase = .connectingTcp ∧ s.ssl = true :=
      ⟨_, rfl, by decide, by decide⟩
    obtain ⟨s, hs, hphase, hssl⟩ := hstream
    have hdown := (hmatched 0 s hs).down (by rw [hphase]; decide)
    exact absurd (hdown.ssl.symm.trans hssl) nofun
  · match i with
    | 0 => rfl
    | i + 1 => rfl

end World

end Lepton.Tls

import Lepton.Linear
import Mathlib.Algebra.Group.Action.Defs
import Mathlib.Algebra.Order.BigOperators.Group.Finset
import Mathlib.Logic.Function.Basic

/-! The start of the environment. Any number of threads call `init`; with F-Stack the network stack of the process may be
started once only, and a thread looks at `s_initialized` before it takes the mutex and again when it has it. The
interleavings are those of single accesses of memory, with any answers of `ff_init` and of the file system. -/

namespace Lepton.Startup

open Linear Function

/-- Whether `LEPTON_USE_FSTACK` is defined. -/
inductive Build where
  | posix
  | fstack
  deriving DecidableEq, Repr

/-- The arguments of `init`: those of the program, each a string or null, and `app_name`. -/
structure Args where
  argv : List (Option String)
  appName : String := "lepton_app"
  deriving DecidableEq, Repr

def hasConf (argv : List (Option String)) : Bool := (argv.drop 1).contains (some "--conf")

def candidatePaths : List String :=
  ["examples/f-stack.config.example.ini", "../examples/f-stack.config.example.ini",
    "../../examples/f-stack.config.example.ini"]

/-- The first candidate that exists. -/
def foundPath (files : String → Bool) : String :=
  (candidatePaths.find? files).getD "examples/f-stack.config.example.ini"

/-- What `ff_init` is called with. -/
def ffArgs (a : Args) (files : String → Bool) : List (Option String) :=
  if hasConf a.argv then a.argv else [some a.appName, some "--conf", some (foundPath files)]

/-- Where a thread stands in `init`. -/
inductive Pc where
  | idle
  /-- About to load `s_initialized`. -/
  | entered (a : Args)
  /-- About to lock the mutex. -/
  | locking (a : Args)
  /-- About to load `s_initialized` again. -/
  | locked (a : Args)
  /-- Inside `ff_init`. -/
  | starting (a : Args) (argv : List (Option String))
  /-- About to store `s_initialized`. -/
  | publishing (a : Args)
  /-- About to call `set_env_active(true)`. -/
  | activating (a : Args)
  /-- About to call `std::atexit`. -/
  | registering (a : Args)
  /-- About to unlock the mutex, if there is one, and to return. -/
  | leaving (a : Args) (ret : Int)

structure State (T : Type) where
  initialized : Bool
  mutex : Option T
  envActive : Bool
  /-- The handlers that `std::atexit` has registered. -/
  handlers : Nat
  pc : T → Pc
  /-- History: what `ff_init` has answered, the latest first. -/
  answers : List Int
  /-- History: how often `init` has called `set_env_active(true)`. -/
  activations : Nat

def start {T : Type} : State T := ⟨false, none, false, 0, fun _ => .idle, [], 0⟩

inductive Act where
  /-- `init` is called. -/
  | call (a : Args)
  | load
  | lock
  /-- The second load, and the arguments of `ff_init` where it finds `false`. -/
  | reload (files : String → Bool)
  /-- `ff_init` returns. -/
  | finish (ret : Int)
  | publish
  | activate
  | register
  | leave
  /-- `set_env_active(false)`, by an event loop that has ended or by the handlers of `std::atexit`. -/
  | deactivate

variable {T : Type} [DecidableEq T]

def State.setPc (s : State T) (t : T) (p : Pc) : State T := { s with pc := update s.pc t p }

def step (b : Build) (s : State T) (t : T) : Act → Option (State T)
  | .call a =>
    match s.pc t with
    | .idle => some (s.setPc t (.entered a))
    | _ => none
  | .load =>
    match s.pc t with
    | .entered a =>
      if s.initialized then some (s.setPc t .idle)
      else
        match b with
        | .posix => some (s.setPc t (.publishing a))
        | .fstack => some (s.setPc t (.locking a))
    | _ => none
  | .lock =>
    match s.pc t with
    | .locking a => if s.mutex = none then some { s.setPc t (.locked a) with mutex := some t } else none
    | _ => none
  | .reload files =>
    match s.pc t with
    | .locked a => some (s.setPc t (if s.initialized then .leaving a 0 else .starting a (ffArgs a files)))
    | _ => none
  | .finish ret =>
    match s.pc t with
    | .starting a _ =>
      some { s.setPc t (if ret < 0 then .leaving a ret else .publishing a) with answers := ret :: s.answers }
    | _ => none
  | .publish =>
    match s.pc t with
    | .publishing a => some { s.setPc t (.activating a) with initialized := true }
    | _ => none
  | .activate =>
    match s.pc t with
    | .activating a => some { s.setPc t (.registering a) with envActive := true, activations := s.activations + 1 }
    | _ => none
  | .register =>
    match s.pc t with
    | .registering a => some { s.setPc t (.leaving a 0) with handlers := s.handlers + 1 }
    | _ => none
  | .leave =>
    match s.pc t with
    | .leaving _ _ =>
      match b with
      | .posix => some (s.setPc t .idle)
      | .fstack => some { s.setPc t .idle with mutex := none }
    | _ => none
  | .deactivate => some { s with envActive := false }

/-- What a step shows in a build with F-Stack, the latest first. A call takes effect when `ff_init` answers it, or when it
finds `s_initialized` stored. -/
def labels (s : State T) (t : T) : Act → List (Label T Args Int)
  | .call a => [.call t a]
  | .load =>
    match s.pc t with
    | .entered a => if s.initialized then [.ret t a 0, .point t a 0] else []
    | _ => []
  | .reload _ =>
    match s.pc t with
    | .locked a => if s.initialized then [.point t a 0] else []
    | _ => []
  | .finish ret =>
    match s.pc t with
    | .starting a _ => [.point t a (min ret 0)]
    | _ => []
  | .leave =>
    match s.pc t with
    | .leaving a ret => [.ret t a ret]
    | _ => []
  | .lock | .publish | .activate | .register | .deactivate => []

/-- What a step with F-Stack does and shows, with where its thread stands. -/
inductive Turn (s : State T) (t : T) : Act → List (Label T Args Int) → State T → Prop where
  | call {a : Args} (hpc : s.pc t = .idle) : Turn s t (.call a) [.call t a] (s.setPc t (.entered a))
  | found {a : Args} (hpc : s.pc t = .entered a) (hinit : s.initialized = true) :
      Turn s t .load [.ret t a 0, .point t a 0] (s.setPc t .idle)
  | missed {a : Args} (hpc : s.pc t = .entered a) : Turn s t .load [] (s.setPc t (.locking a))
  | lock {a : Args} (hpc : s.pc t = .locking a) (hfree : s.mutex = none) :
      Turn s t .lock [] { s.setPc t (.locked a) with mutex := some t }
  | refound {a : Args} {files : String → Bool} (hpc : s.pc t = .locked a) (hinit : s.initialized = true) :
      Turn s t (.reload files) [.point t a 0] (s.setPc t (.leaving a 0))
  | begin {a : Args} {files : String → Bool} (hpc : s.pc t = .locked a) (hinit : s.initialized = false) :
      Turn s t (.reload files) [] (s.setPc t (.starting a (ffArgs a files)))
  | failed {a : Args} {argv : List (Option String)} {ret : Int} (hpc : s.pc t = .starting a argv) (hret : ret < 0) :
      Turn s t (.finish ret) [.point t a ret] { s.setPc t (.leaving a ret) with answers := ret :: s.answers }
  | started {a : Args} {argv : List (Option String)} {ret : Int} (hpc : s.pc t = .starting a argv) (hret : 0 ≤ ret) :
      Turn s t (.finish ret) [.point t a 0] { s.setPc t (.publishing a) with answers := ret :: s.answers }
  | publish {a : Args} (hpc : s.pc t = .publishing a) :
      Turn s t .publish [] { s.setPc t (.activating a) with initialized := true }
  | activate {a : Args} (hpc : s.pc t = .activating a) :
      Turn s t .activate [] { s.setPc t (.registering a) with envActive := true, activations := s.activations + 1 }
  | register {a : Args} (hpc : s.pc t = .registering a) :
      Turn s t .register [] { s.setPc t (.leaving a 0) with handlers := s.handlers + 1 }
  | leave {a : Args} {ret : Int} (hpc : s.pc t = .leaving a ret) :
      Turn s t .leave [.ret t a ret] { s.setPc t .idle with mutex := none }
  | deactivate : Turn s t .deactivate [] { s with envActive := false }

theorem turn_of_step {s s' : State T} {t : T} {act : Act} (h : step .fstack s t act = some s') :
    Turn s t act (labels s t act) s' := by
  cases act with
  | call a =>
    rw [step] at h
    split at h <;> cases h
    next hpc => exact .call hpc
  | load =>
    rw [step] at h
    split at h
    · next hpc =>
      rw [labels, hpc]
      split at h <;> cases h
      · next hinit =>
        dsimp only
        rw [if_pos hinit]
        exact .found hpc hinit
      · next hinit =>
        dsimp only
        rw [if_neg hinit]
        exact .missed hpc
    · cases h
  | lock =>
    rw [step] at h
    split at h
    · next hpc =>
      split at h <;> cases h
      next hfree => exact .lock hpc hfree
    · cases h
  | reload files =>
    rw [step] at h
    split at h <;> cases h
    next hpc =>
      rw [labels, hpc]
      dsimp only
      cases hinit : s.initialized with
      | true => exact .refound hpc hinit
      | false => exact .begin hpc hinit
  | finish ret =>
    rw [step] at h
    split at h <;> cases h
    next hpc =>
      rw [labels, hpc]
      dsimp only
      by_cases hret : ret < 0
      · rw [if_pos hret, min_eq_left (Int.le_of_lt hret)]
        exact .failed hpc hret
      · rw [if_neg hret, min_eq_right (Int.not_lt.mp hret)]
        exact .started hpc (Int.not_lt.mp hret)
  | publish =>
    rw [step] at h
    split at h <;> cases h
    next hpc => exact .publish hpc
  | activate =>
    rw [step] at h
    split at h <;> cases h
    next hpc => exact .activate hpc
  | register =>
    rw [step] at h
    split at h <;> cases h
    next hpc => exact .register hpc
  | leave =>
    rw [step] at h
    split at h <;> cases h
    next hpc =>
      rw [labels, hpc]
      exact .leave hpc
  | deactivate =>
    cases h
    exact .deactivate

/-! ### The mutex -/

/-- The thread has the mutex. -/
def Pc.Inside : Pc → Prop
  | .locked _ | .starting _ _ | .publishing _ | .activating _ | .registering _ | .leaving _ _ => True
  | .idle | .entered _ | .locking _ => False

/-- Every attempt has failed. -/
def Failed (answers : List Int) : Prop := ∀ ret ∈ answers, ret < 0

/-- The last attempt has succeeded, as the first one. -/
def Started (answers : List Int) : Prop := ∃ ret before, answers = ret :: before ∧ 0 ≤ ret ∧ Failed before

/-- How far the start has come. -/
def Progress (s : State T) (initialized : Bool) (activations handlers : Nat) : Prop :=
  s.initialized = initialized ∧ s.activations = activations ∧ s.handlers = handlers

/-- Nothing is started, or all of it. -/
def AtRest (s : State T) : Prop :=
  Progress s false 0 0 ∧ Failed s.answers ∨ Progress s true 1 1 ∧ Started s.answers

/-- What the thread that has the mutex knows. -/
def Knows (s : State T) : Pc → Prop
  | .starting _ argv => Progress s false 0 0 ∧ Failed s.answers ∧ hasConf argv = true
  | .publishing _ => Progress s false 0 0 ∧ Started s.answers
  | .activating _ => Progress s true 0 0 ∧ Started s.answers
  | .registering _ => Progress s true 1 0 ∧ Started s.answers
  | .idle | .entered _ | .locking _ | .locked _ | .leaving _ _ => AtRest s

structure Inv (s : State T) : Prop where
  owner : ∀ t, (s.pc t).Inside ↔ s.mutex = some t
  free : s.mutex = none → AtRest s
  held : ∀ t, s.mutex = some t → Knows s (s.pc t)

omit [DecidableEq T] in
theorem inv_start : Inv (start : State T) :=
  ⟨fun _ => ⟨False.elim, nofun⟩, fun _ => Or.inl ⟨⟨rfl, rfl, rfl⟩, nofun⟩, nofun⟩

omit [DecidableEq T] in
/-- Where `s_initialized` is stored, an attempt has succeeded. -/
theorem Inv.started {s : State T} (h : Inv s) (hinit : s.initialized = true) : Started s.answers := by
  have hrest (hs : AtRest s) : Started s.answers := by
    rcases hs with ⟨hp, -⟩ | ⟨-, hdone⟩
    · exact absurd (hp.1.symm.trans hinit) Bool.false_ne_true
    · exact hdone
  cases hmutex : s.mutex with
  | none => exact hrest (h.free hmutex)
  | some t =>
    have hknows := h.held t hmutex
    cases hpc : s.pc t with
    | starting a argv =>
      rw [hpc] at hknows
      exact absurd (hknows.1.1.symm.trans hinit) Bool.false_ne_true
    | publishing a =>
      rw [hpc] at hknows
      exact hknows.2
    | activating a =>
      rw [hpc] at hknows
      exact hknows.2
    | registering a =>
      rw [hpc] at hknows
      exact hknows.2
    | idle | entered a | locking a | locked a | leaving a ret =>
      rw [hpc] at hknows
      exact hrest hknows

omit [DecidableEq T] in
theorem Inv.knows {s : State T} (h : Inv s) {t : T} {p : Pc} (hpc : s.pc t = p) (hp : p.Inside) :
    s.mutex = some t ∧ Knows s p := by
  subst hpc
  have hmutex := (h.owner t).mp hp
  exact ⟨hmutex, h.held t hmutex⟩

/-- A thread goes on without the mutex. -/
theorem Inv.outside {s : State T} (h : Inv s) {t : T} {p : Pc} (hold : ¬ (s.pc t).Inside) (hnew : ¬ p.Inside) :
    Inv (s.setPc t p) := by
  have hmutex : s.mutex ≠ some t := fun hm => hold ((h.owner t).mpr hm)
  refine ⟨fun u => ?_, h.free, fun u hu => ?_⟩
  · by_cases hut : u = t
    · subst hut
      change (update s.pc u p u).Inside ↔ _
      rw [update_self]
      exact ⟨fun hp => absurd hp hnew, fun hm => absurd hm hmutex⟩
    · change (update s.pc t p u).Inside ↔ _
      rw [update_of_ne hut]
      exact h.owner u
  · have hut : u ≠ t := by
      rintro rfl
      exact hmutex hu
    change Knows s (update s.pc t p u)
    rw [update_of_ne hut]
    exact h.held u hu

/-- A thread goes on with the mutex, takes it or gives it back. -/
theorem Inv.inside {s s' : State T} (h : Inv s) {t : T} {p : Pc} (hpc : s'.pc = update s.pc t p)
    (hothers : ∀ u, u ≠ t → s.mutex ≠ some u)
    (hnext : p.Inside ∧ s'.mutex = some t ∧ Knows s' p ∨ ¬ p.Inside ∧ s'.mutex = none ∧ AtRest s') : Inv s' := by
  have hout (u : T) (hut : u ≠ t) : ¬ (s'.pc u).Inside := by
    rw [hpc, update_of_ne hut]
    exact fun hu => hothers u hut ((h.owner u).mp hu)
  have hself : s'.pc t = p := by rw [hpc, update_self]
  rcases hnext with ⟨hp, hmutex, hknows⟩ | ⟨hp, hmutex, hrest⟩
  · refine ⟨fun u => ?_, fun hm => ?_, fun u hu => ?_⟩
    · rw [hmutex]
      by_cases hut : u = t
      · subst hut
        rw [hself]
        exact ⟨fun _ => rfl, fun _ => hp⟩
      · exact ⟨fun hu => absurd hu (hout u hut), fun hu => absurd (Option.some.inj hu).symm hut⟩
    · rw [hmutex] at hm
      cases hm
    · rw [hmutex] at hu
      cases hu
      rw [hself]
      exact hknows
  · refine ⟨fun u => ?_, fun _ => hrest, fun u hu => ?_⟩
    · rw [hmutex]
      by_cases hut : u = t
      · subst hut
        rw [hself]
        exact ⟨fun hu => absurd hu hp, nofun⟩
      · exact ⟨fun hu => absurd hu (hout u hut), nofun⟩
    · rw [hmutex] at hu
      cases hu

theorem hasConf_ffArgs (a : Args) (files : String → Bool) : hasConf (ffArgs a files) = true := by
  unfold ffArgs
  split
  · next h => exact h
  · rfl

theorem Turn.inv {s s' : State T} {t : T} {act : Act} {shown : List (Label T Args Int)} (hturn : Turn s t act shown s')
    (h : Inv s) : Inv s' := by
  have hheld {p : Pc} (hpc : s.pc t = p) (hp : p.Inside) : s.mutex = some t ∧ Knows s p := h.knows hpc hp
  have hothers (hmutex : s.mutex = some t) (u : T) (hut : u ≠ t) : s.mutex ≠ some u := by
    rw [hmutex]
    exact fun heq => hut (Option.some.inj heq).symm
  cases hturn with
  | call hpc => exact h.outside (by rw [hpc]; exact id) id
  | found hpc hinit => exact h.outside (by rw [hpc]; exact id) id
  | missed hpc => exact h.outside (by rw [hpc]; exact id) id
  | lock hpc hfree =>
    have hrest : AtRest s := h.free hfree
    exact h.inside rfl (fun u _ => by rw [hfree]; exact nofun) (Or.inl ⟨trivial, rfl, hrest⟩)
  | refound hpc hinit =>
    obtain ⟨hmutex, hrest⟩ := hheld hpc trivial
    exact h.inside rfl (hothers hmutex) (Or.inl ⟨trivial, hmutex, hrest⟩)
  | @begin a files hpc hinit =>
    obtain ⟨hmutex, hrest⟩ := hheld hpc trivial
    rcases hrest with ⟨hp, hfailed⟩ | ⟨hp, -⟩
    · exact h.inside rfl (hothers hmutex)
        (Or.inl ⟨trivial, hmutex, hp, hfailed, hasConf_ffArgs a files⟩)
    · exact absurd (hinit.symm.trans hp.1) Bool.false_ne_true
  | @failed a argv ret hpc hret =>
    obtain ⟨hmutex, hp, hfailed, -⟩ := hheld hpc trivial
    have hrest : Failed (ret :: s.answers) := List.forall_mem_cons.mpr ⟨hret, hfailed⟩
    exact h.inside rfl (hothers hmutex)
      (Or.inl ⟨trivial, hmutex, Or.inl ⟨hp, hrest⟩⟩)
  | started hpc hret =>
    obtain ⟨hmutex, hp, hfailed, -⟩ := hheld hpc trivial
    exact h.inside rfl (hothers hmutex)
      (Or.inl ⟨trivial, hmutex, hp, _, _, rfl, hret, hfailed⟩)
  | publish hpc =>
    obtain ⟨hmutex, hp, hdone⟩ := hheld hpc trivial
    exact h.inside rfl (hothers hmutex) (Or.inl ⟨trivial, hmutex, ⟨rfl, hp.2⟩, hdone⟩)
  | activate hpc =>
    obtain ⟨hmutex, hp, hdone⟩ := hheld hpc trivial
    exact h.inside rfl (hothers hmutex)
      (Or.inl ⟨trivial, hmutex, ⟨hp.1, congrArg (· + 1) hp.2.1, hp.2.2⟩, hdone⟩)
  | register hpc =>
    obtain ⟨hmutex, hp, hdone⟩ := hheld hpc trivial
    exact h.inside rfl (hothers hmutex)
      (Or.inl ⟨trivial, hmutex, Or.inr ⟨⟨hp.1, hp.2.1, congrArg (· + 1) hp.2.2⟩, hdone⟩⟩)
  | leave hpc =>
    obtain ⟨hmutex, hrest⟩ := hheld hpc trivial
    exact h.inside rfl (hothers hmutex) (Or.inr ⟨id, rfl, hrest⟩)
  | deactivate => exact ⟨h.owner, h.free, h.held⟩

/-! ### The environment is started once -/

/-- The sequential object: it keeps the answers of `ff_init`, and asks until one is a success. -/
inductive Once : List Int → Args → Int → List Int → Prop where
  | already {answers : List Int} (a : Args) (h : Started answers) : Once answers a 0 answers
  | attempt {answers : List Int} (a : Args) (h : Failed answers) (ret : Int) : Once answers a (min ret 0) (ret :: answers)

/-- The interleavings with F-Stack, with what their steps show. -/
inductive Shows : State T → List (Label T Args Int) → Prop where
  | start : Shows start []
  | step {s s' : State T} {history : List (Label T Args Int)} (h : Shows s history) (t : T) (act : Act)
      (hstep : step .fstack s t act = some s') : Shows s' (labels s t act ++ history)

theorem Shows.inv {s : State T} {history : List (Label T Args Int)} (h : Shows s history) : Inv s := by
  induction h with
  | start => exact inv_start
  | step _ t act hstep ih => exact (turn_of_step hstep).inv ih

/-- The phase of a call, from where its thread stands. -/
def Pc.phase : Pc → Phase Args Int
  | .idle => .idle
  | .entered a | .locking a | .locked a | .starting a _ => .called a
  | .publishing a | .activating a | .registering a => .decided a 0
  | .leaving a ret => .decided a ret

theorem Turn.legal {s s' : State T} {t : T} {act : Act} {shown history : List (Label T Args Int)}
    (hturn : Turn s t act shown s') (h : Inv s) (hlegal : Legal Once [] history s.answers) :
    Legal Once [] (shown ++ history) s'.answers := by
  cases hturn with
  | call hpc => exact .call t _ hlegal
  | found hpc hinit => exact .ret t _ 0 (.point t hlegal (.already _ (h.started hinit)))
  | refound hpc hinit => exact .point t hlegal (.already _ (h.started hinit))
  | @failed a argv ret hpc hret =>
    obtain ⟨-, -, hfailed, -⟩ := h.knows hpc trivial
    have hspec := Once.attempt a hfailed ret
    rw [min_eq_left (Int.le_of_lt hret)] at hspec
    exact .point t hlegal hspec
  | @started a argv ret hpc hret =>
    obtain ⟨-, -, hfailed, -⟩ := h.knows hpc trivial
    have hspec := Once.attempt a hfailed ret
    rw [min_eq_right hret] at hspec
    exact .point t hlegal hspec
  | leave hpc => exact .ret t _ _ hlegal
  | missed _ | lock _ _ | begin _ _ | publish _ | activate _ | register _ | deactivate => exact hlegal

omit [DecidableEq T] in
theorem thread_of_mem_labels {s : State T} {t : T} {act : Act} {l : Label T Args Int} (h : l ∈ labels s t act) :
    l.thread = t := by
  have hone {l' : Label T Args Int} (hthread : l'.thread = t) (hl : l ∈ [l']) : l.thread = t := by
    rw [List.mem_singleton.mp hl]
    exact hthread
  cases act with
  | call a => exact hone rfl h
  | load =>
    dsimp only [labels] at h
    split at h
    · split at h
      · rcases List.mem_pair.mp h with rfl | rfl <;> rfl
      · cases h
    · cases h
  | reload files =>
    dsimp only [labels] at h
    split at h
    · split at h
      · exact hone rfl h
      · cases h
    · cases h
  | finish ret =>
    dsimp only [labels] at h
    split at h
    · exact hone rfl h
    · cases h
  | leave =>
    dsimp only [labels] at h
    split at h
    · exact hone rfl h
    · cases h
  | lock | publish | activate | register | deactivate => cases h

/-- The thread that takes a step. -/
theorem Turn.stands {s s' : State T} {t : T} {act : Act} {shown history : List (Label T Args Int)}
    (hturn : Turn s t act shown s') (h : Stands t history (s.pc t).phase) :
    Stands t (shown ++ history) (s'.pc t).phase := by
  have hnext {p : Pc} {s' : State T} {l : List (Label T Args Int)} (hpc : s'.pc = update s.pc t p)
      (hp : Stands t l p.phase) : Stands t l (s'.pc t).phase := by
    rw [hpc, update_self]
    exact hp
  cases hturn with
  | call hpc =>
    rw [hpc] at h
    exact hnext rfl (.call _ h)
  | found hpc hinit =>
    rw [hpc] at h
    exact hnext rfl (.ret (.point 0 h))
  | refound hpc hinit =>
    rw [hpc] at h
    exact hnext rfl (.point 0 h)
  | failed hpc hret =>
    rw [hpc] at h
    exact hnext rfl (.point _ h)
  | started hpc hret =>
    rw [hpc] at h
    exact hnext rfl (.point 0 h)
  | leave hpc =>
    rw [hpc] at h
    exact hnext rfl (.ret h)
  | missed hpc | lock hpc _ | begin hpc _ | publish hpc | activate hpc | register hpc =>
    rw [hpc] at h
    exact hnext rfl h
  | deactivate => exact h

theorem Turn.pc_of_ne {s s' : State T} {t u : T} {act : Act} {shown : List (Label T Args Int)}
    (hturn : Turn s t act shown s') (hut : u ≠ t) : s'.pc u = s.pc u := by
  cases hturn with
  | deactivate => rfl
  | call _ | found _ _ | missed _ | lock _ _ | refound _ _ | begin _ _ | failed _ _ | started _ _ | publish _ | activate _
  | register _ | leave _ => exact update_of_ne hut ..

theorem Shows.stands {s : State T} {history : List (Label T Args Int)} (h : Shows s history) (u : T) :
    Stands u history (s.pc u).phase := by
  induction h with
  | start => exact .start
  | step _ t act hstep ih =>
    have hturn := turn_of_step hstep
    by_cases hut : u = t
    · subst hut
      exact hturn.stands ih
    · rw [hturn.pc_of_ne hut]
      exact ih.others fun l hl heq => hut (heq.symm.trans (thread_of_mem_labels hl))

/-- **The environment is started once.** In every interleaving of calls of `init` with F-Stack, the calls are in some order
those of an object that asks `ff_init` until it succeeds and never again: a call returns 0 only after a success, and
otherwise the error of its own attempt. `ff_init` runs in one thread at a time and with a configuration named, and at most
once is the environment set active and a handler registered. -/
theorem init_linearizable {s : State T} {history : List (Label T Args Int)} (h : Shows s history) :
    Linearizes Once [] history s.answers ∧
      (∀ t u a a' argv argv', s.pc t = .starting a argv → s.pc u = .starting a' argv' → t = u ∧ hasConf argv = true) ∧
      s.activations ≤ 1 ∧ s.handlers ≤ 1 := by
  have hI := h.inv
  refine ⟨⟨?_, fun t => ⟨_, h.stands t⟩⟩, ?_, ?_⟩
  · clear hI
    induction h with
    | start => exact .start
    | step hbefore t act hstep ih => exact (turn_of_step hstep).legal hbefore.inv ih
  · intro t u a a' argv argv' ht hu
    obtain ⟨htm, -, -, hconf⟩ := hI.knows ht trivial
    obtain ⟨hum, -⟩ := hI.knows hu trivial
    exact ⟨Option.some.inj (htm.symm.trans hum), hconf⟩
  · have hbound {b : Bool} {n m : Nat} (hp : Progress s b n m) (hn : n ≤ 1) (hm : m ≤ 1) :
        s.activations ≤ 1 ∧ s.handlers ≤ 1 := by
      rw [hp.2.1, hp.2.2]
      exact ⟨hn, hm⟩
    have hrest (hs : AtRest s) : s.activations ≤ 1 ∧ s.handlers ≤ 1 := by
      rcases hs with ⟨hp, -⟩ | ⟨hp, -⟩
      · exact hbound hp (by decide) (by decide)
      · exact hbound hp (by decide) (by decide)
    cases hmutex : s.mutex with
    | none => exact hrest (hI.free hmutex)
    | some t =>
      have hknows := hI.held t hmutex
      cases hpc : s.pc t with
      | starting a argv | publishing a | activating a | registering a =>
        rw [hpc] at hknows
        exact hbound hknows.1 (by decide) (by decide)
      | idle | entered a | locking a | locked a | leaving a ret =>
        rw [hpc] at hknows
        exact hrest hknows

/-- One thread fails to start F-Stack; the other, which has waited for the mutex, succeeds. -/
theorem second_attempt_linearizable : ∃ (s : State (Fin 2)) (history : List (Label (Fin 2) Args Int)),
    s.answers = [0, -1] ∧ Linearizes Once [] history s.answers := by
  let a : Args := { argv := [some "app"] }
  have hcalled := (((Shows.start (T := Fin 2)).step 0 (.call a) rfl).step 1 (.call a) rfl).step 0 .load rfl
  have hlocked := ((hcalled.step 1 .load rfl).step 0 .lock rfl).step 0 (.reload fun _ => false) rfl
  have hfailed := (hlocked.step 0 (.finish (-1)) rfl).step 0 .leave rfl
  have hstarted := ((hfailed.step 1 .lock rfl).step 1 (.reload fun _ => true) rfl).step 1 (.finish 0) rfl
  exact ⟨_, _, rfl, (init_linearizable hstarted).1⟩

/-- What `init_linearizable` leaves open: between the two stores of the thread that starts the environment another thread
returns 0, and the environment has never been active. -/
theorem returned_before_active : ∃ (s : State (Fin 2)) (history : List (Label (Fin 2) Args Int)),
    Shows s history ∧ .ret 1 { argv := [] } 0 ∈ history ∧ s.activations = 0 := by
  let a : Args := { argv := [some "app"] }
  have hlocked := (((Shows.start (T := Fin 2)).step 0 (.call a) rfl).step 0 .load rfl).step 0 .lock rfl
  have hpublished := ((hlocked.step 0 (.reload fun _ => false) rfl).step 0 (.finish 0) rfl).step 0 .publish rfl
  have hreturned := (hpublished.step 1 (.call { argv := [] }) rfl).step 1 .load rfl
  exact ⟨_, _, hreturned, List.mem_cons_self, rfl⟩

/-- Without F-Stack there is no mutex: two threads that miss the flag both start the environment. -/
example :
    let schedule : List (Fin 2 × Act) :=
      [(0, .call { argv := [] }), (1, .call { argv := [] }), (0, .load), (1, .load), (0, .publish), (0, .activate),
        (0, .register), (0, .leave), (1, .publish), (1, .activate), (1, .register)]
    (schedule.foldlM (fun s e => step .posix s e.1 e.2) start).map (fun s => (s.activations, s.handlers)) = some (2, 2) :=
  rfl

/-! ### Every call returns -/

/-- The thread's own steps after the call, which are all but those of an event loop. -/
def Act.Own : Act → Prop
  | .call _ | .deactivate => False
  | _ => True

/-- The steps that a thread has to go, at most. -/
def Pc.ahead : Pc → Nat
  | .idle => 0
  | .leaving _ _ => 1
  | .registering _ => 2
  | .activating _ => 3
  | .publishing _ => 4
  | .starting _ _ => 5
  | .locked _ => 6
  | .locking _ => 7
  | .entered _ => 8

theorem Pc.ahead_le (p : Pc) : p.ahead ≤ 8 := by
  cases p <;> simp only [Pc.ahead] <;> decide

/-- Some steps of the calls that are in progress. -/
inductive Settles : State T → Nat → State T → Prop where
  | stop (s : State T) : Settles s 0 s
  | step {s s₁ s' : State T} {n : Nat} (t : T) (act : Act) (hown : act.Own) (hstep : step .fstack s t act = some s₁)
      (h : Settles s₁ n s') : Settles s (n + 1) s'

theorem Settles.inv {s s' : State T} {n : Nat} (h : Settles s n s') (hs : Inv s) : Inv s' := by
  induction h with
  | stop s => exact hs
  | step _ _ _ hstep _ ih => exact ih ((turn_of_step hstep).inv hs)

theorem Turn.ahead_lt {s s' : State T} {t : T} {act : Act} {shown : List (Label T Args Int)}
    (hturn : Turn s t act shown s') (hown : act.Own) : (s'.pc t).ahead < (s.pc t).ahead := by
  have hnext {p q : Pc} {s' : State T} (hpc : s.pc t = p) (hnew : s'.pc = update s.pc t q) (hlt : q.ahead < p.ahead) :
      (s'.pc t).ahead < (s.pc t).ahead := by
    rw [hnew, update_self, hpc]
    exact hlt
  cases hturn with
  | call _ => exact absurd hown id
  | deactivate => exact absurd hown id
  | found hpc _ | missed hpc | lock hpc _ | refound hpc _ | begin hpc _ | failed hpc _ | started hpc _ | publish hpc
  | activate hpc | register hpc | leave hpc => exact hnext hpc rfl (by simp only [Pc.ahead]; decide)

/-- A thread inside `init` waits for the mutex at most, and then for a thread that can go on. -/
theorem Inv.not_stuck {s : State T} (h : Inv s) {t : T} (ht : s.pc t ≠ .idle) :
    ∃ u act s', Act.Own act ∧ step .fstack s u act = some s' := by
  cases hmutex : s.mutex with
  | none =>
    cases hpc : s.pc t with
    | idle => exact absurd hpc ht
    | entered a =>
      cases hinit : s.initialized with
      | true => exact ⟨t, .load, s.setPc t .idle, trivial, by simp [step, hpc, hinit]⟩
      | false => exact ⟨t, .load, s.setPc t (.locking a), trivial, by simp [step, hpc, hinit]⟩
    | locking a => exact ⟨t, .lock, { s.setPc t (.locked a) with mutex := some t }, trivial, by simp [step, hpc, hmutex]⟩
    | locked _ | starting _ _ | publishing _ | activating _ | registering _ | leaving _ _ =>
      exact absurd ((h.owner t).mp (by rw [hpc]; trivial)) (by rw [hmutex]; exact nofun)
  | some u =>
    have hinside := (h.owner u).mpr hmutex
    cases hpc : s.pc u with
    | idle | entered _ | locking _ =>
      rw [hpc] at hinside
      exact hinside.elim
    | locked a => exact ⟨u, .reload fun _ => false, _, trivial, by rw [step, hpc]⟩
    | starting a argv => exact ⟨u, .finish 0, _, trivial, by rw [step, hpc]⟩
    | publishing a => exact ⟨u, .publish, _, trivial, by rw [step, hpc]⟩
    | activating a => exact ⟨u, .activate, _, trivial, by rw [step, hpc]⟩
    | registering a => exact ⟨u, .register, _, trivial, by rw [step, hpc]⟩
    | leaving a ret => exact ⟨u, .leave, _, trivial, by rw [step, hpc]⟩

variable [Fintype T]

theorem Turn.sum_ahead_lt {s s' : State T} {t : T} {act : Act} {shown : List (Label T Args Int)}
    (hturn : Turn s t act shown s') (hown : act.Own) : ∑ u, (s'.pc u).ahead < ∑ u, (s.pc u).ahead := by
  have hlt := hturn.ahead_lt hown
  refine Finset.sum_lt_sum (fun u _ => ?_) ⟨t, Finset.mem_univ t, hlt⟩
  by_cases hut : u = t
  · subst hut
    exact Nat.le_of_lt hlt
  · rw [hturn.pc_of_ne hut]

theorem Settles.add_sum_le {s s' : State T} {n : Nat} (h : Settles s n s') :
    n + ∑ u, (s'.pc u).ahead ≤ ∑ u, (s.pc u).ahead := by
  induction h with
  | stop s => exact Nat.le_of_eq (Nat.zero_add _)
  | step _ _ hown hstep _ ih =>
    have hlt := (turn_of_step hstep).sum_ahead_lt hown
    omega

/-- **No call hangs.** From every state of an interleaving, and whichever way the calls in progress are interleaved from
there, they take at most eight steps for each thread, and when none can go on they have all returned. -/
theorem calls_return {s s' : State T} {history : List (Label T Args Int)} {n : Nat} (h : Shows s history)
    (hrun : Settles s n s') :
    n ≤ 8 * Fintype.card T ∧
      ((∀ t act, Act.Own act → step .fstack s' t act = none) → ∀ t, s'.pc t = .idle) := by
  constructor
  · have hbound : ∑ u, (s.pc u).ahead ≤ Fintype.card T * 8 := by
      rw [← smul_eq_mul, ← Finset.card_univ]
      exact Finset.sum_le_card_nsmul _ _ _ fun u _ => (s.pc u).ahead_le
    have hsteps := hrun.add_sum_le
    omega
  · intro hstuck t
    by_contra ht
    obtain ⟨u, act, s'', hown, hstep⟩ := (hrun.inv h.inv).not_stuck ht
    exact absurd (hstep.symm.trans (hstuck u act hown)) nofun

/-- Two threads: one waits for the mutex, which the other holds while it fails to start F-Stack, and starts it then. -/
theorem waiting_thread_returns : ∃ s mid s' : State (Fin 2), Settles s 3 mid ∧ step .fstack mid 1 .lock = none ∧
    Settles mid 10 s' ∧ s'.answers = [0, -1] ∧ 10 ≤ 8 * Fintype.card (Fin 2) ∧ ∀ t, s'.pc t = .idle := by
  let a : Args := { argv := [some "app"] }
  let s : State (Fin 2) := (start.setPc 0 (.entered a)).setPc 1 (.entered a)
  let mid : State (Fin 2) := { ((s.setPc 0 (.locking a)).setPc 1 (.locking a)).setPc 0 (.locked a) with mutex := some 0 }
  have hcalled : Shows s _ := (Shows.start.step 0 (.call a) rfl).step 1 (.call a) rfl
  have hlocked : Shows mid _ := ((hcalled.step 0 .load rfl).step 1 .load rfl).step 0 .lock rfl
  have hwait : Settles s 3 mid :=
    .step 0 .load trivial rfl <| .step 1 .load trivial rfl <| .step 0 .lock trivial rfl <| .stop _
  have hrun : Settles mid 10 _ :=
    .step 0 (.reload fun _ => false) trivial rfl <| .step 0 (.finish (-1)) trivial rfl <| .step 0 .leave trivial rfl <|
      .step 1 .lock trivial rfl <| .step 1 (.reload fun _ => true) trivial rfl <| .step 1 (.finish 0) trivial rfl <|
      .step 1 .publish trivial rfl <| .step 1 .activate trivial rfl <| .step 1 .register trivial rfl <|
      .step 1 .leave trivial rfl <| .stop _
  obtain ⟨hbound, hdone⟩ := calls_return hlocked hrun
  refine ⟨_, _, _, hwait, rfl, hrun, rfl, hbound, hdone fun t act hown => ?_⟩
  obtain rfl | rfl : t = 0 ∨ t = 1 := by
    revert t
    decide
  all_goals
    cases act with
    | call _ | deactivate => exact hown.elim
    | load | lock | reload _ | finish _ | publish | activate | register | leave => rfl

end Lepton.Startup

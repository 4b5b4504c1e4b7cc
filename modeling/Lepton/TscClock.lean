import Lepton.Linear
import Mathlib.Data.Nat.Bitwise
import Mathlib.Logic.Function.Basic

/-! The clock behind all deadlines. `TSCNS` keeps three words that turn the processor's counter into nanoseconds; a thread
that calibrates replaces them one by one, between two stores of a sequence number, while others read. A reader takes the
number, the words in any order, and the number again, and starts over if it is not the even number it began with.

The interleavings are those of single accesses of memory. Two things are assumed: no two threads calibrate at the same
time, which nothing in the class prevents, and no attempt of a reader is overtaken by `2 ^ 32 - 1` stores of the
sequence number. -/

namespace Lepton.Tsc

open Linear Function

/-- The words that a reader uses. -/
inductive Field where
  | nsPerTsc
  | baseTsc
  | baseNs
  deriving DecidableEq, Repr

/-- Three 64-bit words. -/
abbrev Params := Field → UInt64

/-- Where a thread stands in `tsc2ns` or `saveParam`. -/
inductive Pc where
  | idle
  /-- `tsc2ns` is about to read the sequence number. -/
  | trying (tsc : UInt64)
  /-- `tsc2ns` has the number, made even, and some of the words. -/
  | reading (tsc : UInt64) (before : Nat) (got : Field → Option UInt64)
  /-- `saveParam` has read the sequence number. -/
  | entering (seq : Nat) (v : Params)
  /-- `saveParam` has stored the odd number and has `rest` to write. -/
  | saving (seq : Nat) (v : Params) (rest : List Field)

structure State (T : Type) where
  paramSeq : Nat
  words : Params
  pc : T → Pc
  /-- History: how often the sequence number has been stored. -/
  stores : Nat
  /-- History: the number of stores when a thread last read the sequence number. -/
  loadedAt : T → Nat

/-- The clock behind `init`, which saves its first parameters before any other thread knows of it. -/
def init {T : Type} (v : Params) : State T := ⟨2, v, fun _ => .idle, 0, fun _ => 0⟩

inductive Act where
  /-- `tsc2ns` is called. -/
  | convert (tsc : UInt64)
  | load
  | fetch (f : Field)
  /-- The second load of the sequence number, and the comparison. -/
  | check
  /-- `saveParam` is called and reads the sequence number. -/
  | save (v : Params)
  /-- The first store of the sequence number. -/
  | enter
  | write
  /-- The second store. -/
  | leave

variable {T : Type} [DecidableEq T]

def State.setPc (s : State T) (t : T) (p : Pc) : State T := { s with pc := update s.pc t p }

/-- `++seq`, in 32 bits. -/
def next (seq : Nat) : Nat := (seq + 1) % 2 ^ 32

/-- `seq & ~1`. -/
def evened (seq : Nat) : Nat := seq &&& (2 ^ 32 - 2)

/-- The words, once they are all there. -/
def whole (got : Field → Option UInt64) : Option Params :=
  if (got .nsPerTsc).isSome ∧ (got .baseTsc).isSome ∧ (got .baseNs).isSome then some fun f => (got f).getD 0 else none

def step (s : State T) (t : T) : Act → Option (State T)
  | .convert tsc =>
    match s.pc t with
    | .idle => some (s.setPc t (.trying tsc))
    | _ => none
  | .load =>
    match s.pc t with
    | .trying tsc =>
      some { s.setPc t (.reading tsc (evened s.paramSeq) fun _ => none) with loadedAt := update s.loadedAt t s.stores }
    | _ => none
  | .fetch f =>
    match s.pc t with
    | .reading tsc before got =>
      if got f = none then some (s.setPc t (.reading tsc before (update got f (some (s.words f))))) else none
    | _ => none
  | .check =>
    match s.pc t with
    | .reading tsc before got =>
      if (whole got).isSome then some (s.setPc t (if before = s.paramSeq then .idle else .trying tsc)) else none
    | _ => none
  | .save v =>
    match s.pc t with
    | .idle => some (s.setPc t (.entering s.paramSeq v))
    | _ => none
  | .enter =>
    match s.pc t with
    | .entering seq v =>
      some { s.setPc t (.saving (next seq) v [.baseTsc, .baseNs, .nsPerTsc]) with
        paramSeq := next seq, stores := s.stores + 1 }
    | _ => none
  | .write =>
    match s.pc t with
    | .saving seq v (f :: rest) => some { s.setPc t (.saving seq v rest) with words := update s.words f (v f) }
    | _ => none
  | .leave =>
    match s.pc t with
    | .saving seq _ [] => some { s.setPc t .idle with paramSeq := next seq, stores := s.stores + 1 }
    | _ => none

/-- What a step does, with where its thread stands. -/
inductive Turn (s : State T) (t : T) : Act → State T → Prop where
  | convert {tsc : UInt64} (hpc : s.pc t = .idle) : Turn s t (.convert tsc) (s.setPc t (.trying tsc))
  | load {tsc : UInt64} (hpc : s.pc t = .trying tsc) :
      Turn s t .load { s.setPc t (.reading tsc (evened s.paramSeq) fun _ => none) with
        loadedAt := update s.loadedAt t s.stores }
  | fetch {tsc : UInt64} {before : Nat} {got : Field → Option UInt64} {f : Field}
      (hpc : s.pc t = .reading tsc before got) :
      Turn s t (.fetch f) (s.setPc t (.reading tsc before (update got f (some (s.words f)))))
  | accept {tsc : UInt64} {got : Field → Option UInt64} {v : Params} (hpc : s.pc t = .reading tsc s.paramSeq got)
      (hgot : whole got = some v) : Turn s t .check (s.setPc t .idle)
  | retry {tsc : UInt64} {before : Nat} {got : Field → Option UInt64} (hpc : s.pc t = .reading tsc before got)
      (hne : before ≠ s.paramSeq) : Turn s t .check (s.setPc t (.trying tsc))
  | save {v : Params} (hpc : s.pc t = .idle) : Turn s t (.save v) (s.setPc t (.entering s.paramSeq v))
  | enter {seq : Nat} {v : Params} (hpc : s.pc t = .entering seq v) :
      Turn s t .enter { s.setPc t (.saving (next seq) v [.baseTsc, .baseNs, .nsPerTsc]) with
        paramSeq := next seq, stores := s.stores + 1 }
  | write {seq : Nat} {v : Params} {f : Field} {rest : List Field} (hpc : s.pc t = .saving seq v (f :: rest)) :
      Turn s t .write { s.setPc t (.saving seq v rest) with words := update s.words f (v f) }
  | leave {seq : Nat} {v : Params} (hpc : s.pc t = .saving seq v []) :
      Turn s t .leave { s.setPc t .idle with paramSeq := next seq, stores := s.stores + 1 }

theorem turn_of_step {s s' : State T} {t : T} {act : Act} (h : step s t act = some s') : Turn s t act s' := by
  cases act with
  | convert tsc =>
    rw [step] at h
    split at h <;> cases h
    next hpc => exact .convert hpc
  | load =>
    rw [step] at h
    split at h <;> cases h
    next hpc => exact .load hpc
  | fetch f =>
    rw [step] at h
    split at h
    · next hpc =>
      split at h <;> cases h
      exact .fetch hpc
    · cases h
  | check =>
    rw [step] at h
    split at h
    · next tsc before got hpc =>
      split at h <;> cases h
      next hall =>
        obtain ⟨v, hv⟩ := Option.isSome_iff_exists.mp hall
        by_cases hsame : before = s.paramSeq
        · rw [if_pos hsame]
          subst hsame
          exact .accept hpc hv
        · rw [if_neg hsame]
          exact .retry hpc hsame
    · cases h
  | save v =>
    rw [step] at h
    split at h <;> cases h
    next hpc => exact .save hpc
  | enter =>
    rw [step] at h
    split at h <;> cases h
    next hpc => exact .enter hpc
  | write =>
    rw [step] at h
    split at h <;> cases h
    next hpc => exact .write hpc
  | leave =>
    rw [step] at h
    split at h <;> cases h
    next hpc => exact .leave hpc

/-! ### The sequence number -/

theorem evened_eq {seq : Nat} (h : seq < 2 ^ 32) : evened seq = seq / 2 * 2 := by
  have hmask : (2 ^ 32 - 2 : Nat) = Nat.bit false (2 ^ 31 - 1) := by decide
  have hseq : seq = Nat.bit (seq.bodd) (seq / 2) := by
    rw [← Nat.div2_val]
    exact (Nat.bit_bodd_div2 seq).symm
  rw [evened, hmask]
  conv => lhs; lhs; rw [hseq]
  rw [Nat.land_bit, Bool.and_false, Nat.and_two_pow_sub_one_eq_mod, Nat.mod_eq_of_lt (by omega)]
  exact Nat.mul_comm 2 _

/-- A number that is found again, even, has not been stored in between. -/
theorem unchanged_of_evened {l n : Nat} (hle : l ≤ n) (hnear : n - l < 2 ^ 32 - 1)
    (h : evened ((2 + l) % 2 ^ 32) = (2 + n) % 2 ^ 32) : n = l ∧ n % 2 = 0 := by
  rw [evened_eq (Nat.mod_lt _ (by decide))] at h
  omega

/-- An even number is found again unless it is stored. -/
theorem evened_self {n : Nat} (heven : n % 2 = 0) : evened ((2 + n) % 2 ^ 32) = (2 + n) % 2 ^ 32 := by
  rw [evened_eq (Nat.mod_lt _ (by decide))]
  omega

theorem next_seq (n : Nat) : next ((2 + n) % 2 ^ 32) = (2 + (n + 1)) % 2 ^ 32 := by
  rw [next]
  omega

/-! ### What the threads know -/

/-- The thread is in `saveParam`. -/
def Pc.Saving : Pc → Prop
  | .entering _ _ | .saving _ _ _ => True
  | _ => False

instance : DecidablePred Pc.Saving
  | .entering _ _ | .saving _ _ _ => isTrue trivial
  | .idle | .trying _ | .reading _ _ _ => isFalse id

/-- What a thread knows of the clock, where `reg` is what was saved last. -/
def Knows (s : State T) (t : T) (reg : Params) : Pc → Prop
  | .reading _ before got =>
    before = evened ((2 + s.loadedAt t) % 2 ^ 32) ∧ s.loadedAt t ≤ s.stores ∧
      (s.loadedAt t = s.stores → s.stores % 2 = 0 → ∀ f x, got f = some x → x = s.words f)
  | .entering seq _ => seq = s.paramSeq ∧ s.stores % 2 = 0 ∧ s.words = reg
  | .saving seq v rest => seq = s.paramSeq ∧ s.stores % 2 = 1 ∧ ∀ f, f ∉ rest → s.words f = v f
  | .idle | .trying _ => True

/-- While no one saves, the words are those saved last. -/
structure Inv (reg : Params) (s : State T) : Prop where
  seq : s.paramSeq = (2 + s.stores) % 2 ^ 32
  alone : ∀ t u, (s.pc t).Saving → (s.pc u).Saving → t = u
  still : (∀ t, ¬ (s.pc t).Saving) → s.stores % 2 = 0 ∧ s.words = reg
  knows : ∀ t, Knows s t reg (s.pc t)

omit [DecidableEq T] in
theorem inv_init (v : Params) : Inv v (init v : State T) :=
  ⟨rfl, fun _ _ h => h.elim, fun _ => ⟨rfl, rfl⟩, fun _ => trivial⟩

omit [DecidableEq T] in
/-- What a thread outside `saveParam` knows outlasts the stores of others: a word changes only while the number is odd. -/
theorem Knows.of_reader {s s' : State T} {u : T} {reg reg' : Params} {p : Pc} (h : Knows s u reg p) (hp : ¬ p.Saving)
    (hloaded : s'.loadedAt u = s.loadedAt u) (hstores : s.stores ≤ s'.stores)
    (hwords : s'.stores = s.stores → s.stores % 2 = 0 → s'.words = s.words) : Knows s' u reg' p := by
  cases p with
  | idle => trivial
  | trying tsc => trivial
  | entering seq v => exact absurd trivial hp
  | saving seq v rest => exact absurd trivial hp
  | reading tsc before got =>
    obtain ⟨hbefore, hle, hgot⟩ := h
    refine ⟨by rw [hloaded]; exact hbefore, by omega, fun hsame heven => ?_⟩
    rw [hloaded] at hsame
    have hequal : s'.stores = s.stores := by omega
    rw [hwords hequal (hequal ▸ heven)]
    exact hgot (hsame.trans hequal) (hequal ▸ heven)

/-- What one thread outside `saveParam` does. -/
theorem Inv.reader {s : State T} {reg : Params} (h : Inv reg s) {t : T} {p : Pc} {loadedAt : T → Nat}
    (hloaded : ∀ u, u ≠ t → loadedAt u = s.loadedAt u) (hold : ¬ (s.pc t).Saving) (hnew : ¬ p.Saving)
    (hknows : Knows { s.setPc t p with loadedAt := loadedAt } t reg p) :
    Inv reg { s.setPc t p with loadedAt := loadedAt } := by
  have hpc (u : T) (hu : (update s.pc t p u).Saving) : (s.pc u).Saving ∧ u ≠ t := by
    have hne : u ≠ t := by
      rintro rfl
      rw [update_self] at hu
      exact hnew hu
    rw [update_of_ne hne] at hu
    exact ⟨hu, hne⟩
  refine ⟨h.seq, fun u u' hu hu' => h.alone u u' (hpc u hu).1 (hpc u' hu').1, fun hnone => h.still fun u hu => ?_,
    fun u => ?_⟩
  · have hne : u ≠ t := by
      rintro rfl
      exact hold hu
    exact hnone u (by change (update s.pc t p u).Saving; rw [update_of_ne hne]; exact hu)
  · change Knows _ u reg (update s.pc t p u)
    by_cases hut : u = t
    · subst hut
      rw [update_self]
      exact hknows
    · rw [update_of_ne hut]
      have hu := h.knows u
      cases hpcu : s.pc u with
      | idle => trivial
      | trying tsc => trivial
      | entering seq v =>
        rw [hpcu] at hu
        exact hu
      | saving seq v rest =>
        rw [hpcu] at hu
        exact hu
      | reading tsc before got =>
        rw [hpcu] at hu
        exact hu.of_reader id (hloaded u hut) (Nat.le_refl _) fun _ _ => rfl

/-- What the thread in `saveParam` does. -/
theorem Inv.saver {s s' : State T} {reg reg' : Params} (h : Inv reg s) {t : T} {p : Pc}
    (hpc : s'.pc = update s.pc t p) (hloaded : s'.loadedAt = s.loadedAt) (hothers : ∀ u, u ≠ t → ¬ (s.pc u).Saving)
    (hseq : s'.paramSeq = (2 + s'.stores) % 2 ^ 32) (hstores : s.stores ≤ s'.stores)
    (hwords : s'.stores = s.stores → s.stores % 2 = 0 → s'.words = s.words)
    (hstill : ¬ p.Saving → s'.stores % 2 = 0 ∧ s'.words = reg') (hknows : Knows s' t reg' p) : Inv reg' s' := by
  have honly (u : T) (hu : (s'.pc u).Saving) : u = t := by
    by_contra hut
    rw [hpc, update_of_ne hut] at hu
    exact hothers u hut hu
  refine ⟨hseq, fun u u' hu hu' => (honly u hu).trans (honly u' hu').symm, fun hnone => hstill ?_, fun u => ?_⟩
  · have ht := hnone t
    rwa [hpc, update_self] at ht
  · rw [hpc]
    by_cases hut : u = t
    · subst hut
      rw [update_self]
      exact hknows
    · rw [update_of_ne hut]
      exact (h.knows u).of_reader (hothers u hut) (congrFun hloaded u) hstores hwords

theorem whole_eq {got : Field → Option UInt64} {v : Params} (h : whole got = some v) (f : Field) : got f = some (v f) := by
  unfold whole at h
  split at h
  · next hall =>
    cases h
    have hsome : (got f).isSome = true := by
      cases f with
      | nsPerTsc => exact hall.1
      | baseTsc => exact hall.2.1
      | baseNs => exact hall.2.2
    obtain ⟨x, hx⟩ := Option.isSome_iff_exists.mp hsome
    simp only [hx, Option.getD_some]
  · cases h

/-! ### A register of parameters -/

inductive Op where
  | tsc2ns (tsc : UInt64)
  | saveParam (v : Params)

section Register

-- the arithmetic of `tsc2ns`, in floating point
variable (toNs : Params → UInt64 → UInt64)

/-- The sequential clock: a conversion uses the parameters saved last. -/
inductive Register : Params → Op → Option UInt64 → Params → Prop where
  | tsc2ns (v : Params) (tsc : UInt64) : Register v (.tsc2ns tsc) (some (toNs v tsc)) v
  | saveParam (v w : Params) : Register v (.saveParam w) none w

/-- What a step shows, the latest first. -/
def labels (s : State T) (t : T) : Act → List (Label T Op (Option UInt64))
  | .convert tsc => [.call t (.tsc2ns tsc)]
  | .check =>
    match s.pc t with
    | .reading tsc before got =>
      if before = s.paramSeq then
        match whole got with
        | some v => [.ret t (.tsc2ns tsc) (some (toNs v tsc)), .point t (.tsc2ns tsc) (some (toNs v tsc))]
        | none => []
      else []
    | _ => []
  | .save v => [.call t (.saveParam v)]
  | .leave =>
    match s.pc t with
    | .saving _ v _ => [.ret t (.saveParam v) none, .point t (.saveParam v) none]
    | _ => []
  | .load | .fetch _ | .enter | .write => []

/-- No two threads calibrate at the same time, and a reader is not overtaken by a whole round of the sequence number. -/
def Timely (s : State T) (t : T) : Act → Prop
  | .save _ => ∀ u, ¬ (s.pc u).Saving
  | .check => s.stores - s.loadedAt t < 2 ^ 32 - 1
  | _ => True

/-- The timely interleavings, with what their steps show. -/
inductive Shows (v : Params) : State T → List (Label T Op (Option UInt64)) → Prop where
  | init : Shows v (init v) []
  | step {s s' : State T} {history : List (Label T Op (Option UInt64))} (h : Shows v s history) (t : T) (act : Act)
      (htimely : Timely s t act) (hstep : step s t act = some s') : Shows v s' (labels toNs s t act ++ history)

/-- The phase of an operation, from where its thread stands. -/
def Pc.phase : Pc → Phase Op (Option UInt64)
  | .idle => .idle
  | .trying tsc | .reading tsc _ _ => .called (.tsc2ns tsc)
  | .entering _ v | .saving _ v _ => .called (.saveParam v)

omit [DecidableEq T] in
theorem thread_of_mem_labels {s : State T} {t : T} {act : Act} {l : Label T Op (Option UInt64)}
    (h : l ∈ labels toNs s t act) : l.thread = t := by
  have hpair {l₁ l₂ : Label T Op (Option UInt64)} (h₁ : l₁.thread = t) (h₂ : l₂.thread = t) (hl : l ∈ [l₁, l₂]) :
      l.thread = t := by
    rcases List.mem_pair.mp hl with rfl | rfl
    · exact h₁
    · exact h₂
  have hone {l' : Label T Op (Option UInt64)} (hthread : l'.thread = t) (hl : l ∈ [l']) : l.thread = t := by
    rw [List.mem_singleton.mp hl]
    exact hthread
  cases act with
  | convert tsc => exact hone rfl h
  | save v => exact hone rfl h
  | check =>
    dsimp only [labels] at h
    split at h
    · split at h
      · split at h
        · exact hpair rfl rfl h
        · cases h
      · cases h
    · cases h
  | leave =>
    dsimp only [labels] at h
    split at h
    · exact hpair rfl rfl h
    · cases h
  | load => cases h
  | fetch f => cases h
  | enter => cases h
  | write => cases h

omit [DecidableEq T] in
/-- What an accepted reading shows. -/
theorem labels_accept {s : State T} {t : T} {tsc : UInt64} {got : Field → Option UInt64} {v : Params}
    (hpc : s.pc t = .reading tsc s.paramSeq got) (hgot : whole got = some v) :
    labels toNs s t .check =
      [.ret t (.tsc2ns tsc) (some (toNs v tsc)), .point t (.tsc2ns tsc) (some (toNs v tsc))] := by
  rw [labels, hpc]
  dsimp only
  rw [if_pos rfl, hgot]

omit [DecidableEq T] in
theorem labels_retry {s : State T} {t : T} {tsc : UInt64} {before : Nat} {got : Field → Option UInt64}
    (hpc : s.pc t = .reading tsc before got) (hne : before ≠ s.paramSeq) : labels toNs s t .check = [] := by
  rw [labels, hpc]
  exact if_neg hne

/-- A thread's own labels take it to its next phase. -/
theorem Turn.stands {s s' : State T} {t : T} {act : Act} {history : List (Label T Op (Option UInt64))}
    (hturn : Turn s t act s') (h : Stands t history (s.pc t).phase) :
    Stands t (labels toNs s t act ++ history) (s'.pc t).phase := by
  have hnext {x : State T} {p : Pc} {new : List (Label T Op (Option UInt64))} (hx : x.pc = update s.pc t p)
      (hp : Stands t (new ++ history) p.phase) : Stands t (new ++ history) (x.pc t).phase := by
    rw [hx, update_self]
    exact hp
  cases hturn with
  | convert hpc =>
    rw [hpc] at h
    exact hnext rfl (h.call _)
  | load hpc =>
    rw [hpc] at h
    exact hnext rfl h
  | fetch hpc =>
    rw [hpc] at h
    exact hnext rfl h
  | accept hpc hgot =>
    rw [hpc] at h
    refine hnext rfl ?_
    rw [labels_accept toNs hpc hgot]
    exact (h.point _).ret
  | retry hpc hne =>
    rw [hpc] at h
    refine hnext rfl ?_
    rw [labels_retry toNs hpc hne]
    exact h
  | save hpc =>
    rw [hpc] at h
    exact hnext rfl (h.call _)
  | enter hpc =>
    rw [hpc] at h
    exact hnext rfl h
  | write hpc =>
    rw [hpc] at h
    exact hnext rfl h
  | leave hpc =>
    rw [hpc] at h
    refine hnext rfl ?_
    rw [labels, hpc]
    exact (h.point _).ret

theorem Turn.pc_of_ne {s s' : State T} {t u : T} {act : Act} (hturn : Turn s t act s') (hu : u ≠ t) :
    s'.pc u = s.pc u := by
  cases hturn <;> exact update_of_ne hu ..

theorem Shows.stands {v : Params} {s : State T} {history : List (Label T Op (Option UInt64))}
    (h : Shows toNs v s history) (t : T) : Stands t history (s.pc t).phase := by
  induction h with
  | init => exact .start
  | step h u act htimely hstep ih =>
    have hturn := turn_of_step hstep
    by_cases htu : t = u
    · subst htu
      exact hturn.stands toNs ih
    · rw [hturn.pc_of_ne htu]
      exact ih.others fun l hl hthread => htu (hthread.symm.trans (thread_of_mem_labels toNs hl))

/-- A step keeps the invariant, and what it shows is what it does to the register. -/
theorem Turn.legal {s s' : State T} {t : T} {act : Act} {reg start : Params}
    {history : List (Label T Op (Option UInt64))} (hturn : Turn s t act s') (htimely : Timely s t act) (hI : Inv reg s)
    (h : Legal (Register toNs) start history reg) :
    ∃ reg', Inv reg' s' ∧ Legal (Register toNs) start (labels toNs s t act ++ history) reg' := by
  have hknows := hI.knows t
  have hothers (hsaving : (s.pc t).Saving) (u : T) (hu : u ≠ t) : ¬ (s.pc u).Saving := fun hu' =>
    hu (hI.alone u t hu' hsaving)
  cases hturn with
  | convert hpc =>
    refine ⟨reg, hI.reader (fun _ _ => rfl) (by rw [hpc]; exact id) id trivial, h.call t _⟩
  | load hpc =>
    refine ⟨reg, hI.reader (fun u hu => update_of_ne hu _ _) (by rw [hpc]; exact id) id ?_, h⟩
    refine ⟨?_, ?_, fun _ _ f x hx => by cases hx⟩
    · dsimp only
      rw [update_self, hI.seq]
    · dsimp only
      rw [update_self]
      exact Nat.le_refl _
  | @fetch tsc before got g hpc =>
    rw [hpc] at hknows
    obtain ⟨hbefore, hle, hgot⟩ := hknows
    refine ⟨reg, hI.reader (fun _ _ => rfl) (by rw [hpc]; exact id) id ⟨hbefore, hle, fun hsame heven f x hx => ?_⟩, h⟩
    by_cases hf : f = g
    · subst hf
      rw [update_self] at hx
      exact (Option.some.inj hx).symm
    · rw [update_of_ne hf] at hx
      exact hgot hsame heven f x hx
  | accept hpc hgot =>
    refine ⟨reg, hI.reader (fun _ _ => rfl) (by rw [hpc]; exact id) id trivial, ?_⟩
    rw [labels_accept toNs hpc hgot]
    rw [hpc] at hknows
    obtain ⟨hbefore, hle, hwords⟩ := hknows
    obtain ⟨hsame, heven⟩ := unchanged_of_evened hle htimely (hbefore.symm.trans hI.seq)
    -- the number is even, so no one is between the stores, and the words are those saved last
    have hstill : s.words = reg := by
      by_cases hnone : ∀ u, ¬ (s.pc u).Saving
      · exact (hI.still hnone).2
      · obtain ⟨u, hu⟩ := not_forall_not.mp hnone
        have hku := hI.knows u
        cases hpcu : s.pc u with
        | entering seq w =>
          rw [hpcu] at hku
          exact hku.2.2
        | saving seq w rest =>
          rw [hpcu] at hku
          have hodd := hku.2.1
          omega
        | idle =>
          rw [hpcu] at hu
          exact hu.elim
        | trying tsc =>
          rw [hpcu] at hu
          exact hu.elim
        | reading tsc before got =>
          rw [hpcu] at hu
          exact hu.elim
    have hv : _ = reg := (funext fun f => hwords hsame.symm heven f _ (whole_eq hgot f)).trans hstill
    subst hv
    exact (h.point t (.tsc2ns _ _)).ret t _ _
  | retry hpc hne =>
    refine ⟨reg, hI.reader (fun _ _ => rfl) (by rw [hpc]; exact id) id trivial, ?_⟩
    rw [labels_retry toNs hpc hne]
    exact h
  | save hpc =>
    obtain ⟨heven, hwords⟩ := hI.still htimely
    refine ⟨reg, ?_, h.call t _⟩
    exact hI.saver rfl rfl (fun u _ => htimely u) hI.seq (Nat.le_refl _) (fun _ _ => rfl) (fun hno => absurd trivial hno)
      ⟨rfl, heven, hwords⟩
  | enter hpc =>
    rw [hpc] at hknows
    obtain ⟨hseq, heven, hwords⟩ := hknows
    refine ⟨reg, ?_, h⟩
    refine hI.saver rfl rfl (hothers (by rw [hpc]; trivial)) ?_ (Nat.le_succ _) (fun hno => ?_)
      (fun hno => absurd trivial hno) ⟨rfl, ?_, fun f hf => ?_⟩
    · dsimp only
      rw [hseq, hI.seq, next_seq]
    · exact absurd hno (Nat.succ_ne_self _)
    · change (s.stores + 1) % 2 = 1
      omega
    · cases f with
      | nsPerTsc => exact absurd (by decide) hf
      | baseTsc => exact absurd (by decide) hf
      | baseNs => exact absurd (by decide) hf
  | @write seq w g rest hpc =>
    rw [hpc] at hknows
    obtain ⟨hseq, hodd, hwords⟩ := hknows
    refine ⟨reg, ?_, h⟩
    refine hI.saver rfl rfl (hothers (by rw [hpc]; trivial)) hI.seq (Nat.le_refl _) (fun _ heven => ?_)
      (fun hno => absurd trivial hno) ⟨hseq, hodd, fun f hf => ?_⟩
    · exact absurd heven (by omega)
    · dsimp only
      by_cases hfg : f = g
      · subst hfg
        rw [update_self]
      · rw [update_of_ne hfg]
        exact hwords f fun hmem => (List.mem_cons.mp hmem).elim hfg hf
  | @leave seq w hpc =>
    rw [hpc] at hknows
    obtain ⟨hseq, hodd, hwords⟩ := hknows
    refine ⟨w, ?_, ?_⟩
    · refine hI.saver rfl rfl (hothers (by rw [hpc]; trivial)) ?_ (Nat.le_succ _) (fun hno => ?_) (fun _ => ⟨?_, ?_⟩) trivial
      · dsimp only
        rw [hseq, hI.seq, next_seq]
      · exact absurd hno (Nat.succ_ne_self _)
      · change (s.stores + 1) % 2 = 0
        omega
      · exact funext fun f => hwords f List.not_mem_nil
    · rw [labels, hpc]
      exact (h.point t (.saveParam _ _)).ret t _ _

theorem Shows.legal {v : Params} {s : State T} {history : List (Label T Op (Option UInt64))}
    (h : Shows toNs v s history) : ∃ reg, Inv reg s ∧ Legal (Register toNs) v history reg := by
  induction h with
  | init => exact ⟨v, inv_init v, .start⟩
  | step h t act htimely hstep ih =>
    obtain ⟨reg, hI, hlegal⟩ := ih
    exact (turn_of_step hstep).legal toNs htimely hI hlegal

/-- **Readings of the clock are never torn.** In every timely interleaving, conversions and saves take effect one after
another, each between its call and its return: a conversion uses the three words of one save, of the one that took effect
last before it. While no one saves, these are the words in memory. -/
theorem clock_linearizable {v : Params} {s : State T} {history : List (Label T Op (Option UInt64))}
    (h : Shows toNs v s history) :
    ∃ reg, Linearizes (Register toNs) v history reg ∧ ((∀ t, ¬ (s.pc t).Saving) → s.words = reg) := by
  obtain ⟨reg, hI, hlegal⟩ := h.legal
  exact ⟨reg, ⟨hlegal, fun t => ⟨_, h.stands toNs t⟩⟩, fun hnone => (hI.still hnone).2⟩

/-- A whole number of nanoseconds to a tick. -/
def wholeNs (v : Params) (tsc : UInt64) : UInt64 := v .baseNs + (tsc - v .baseTsc) * v .nsPerTsc

/-- Thread 1 saves while thread 0 has one word of three. -/
theorem overtaken_shows :
    ∃ s : State (Fin 2), ∃ history, Shows wholeNs (fun _ => 1) s history ∧ s.stores = 2 ∧ history.length = 4 ∧
      s.loadedAt 0 = 0 ∧ ∃ s', step s 0 .check = some s' ∧ s'.pc 0 = .trying 5 := by
  have h0 : Shows wholeNs (fun _ => 1) (init fun _ => 1 : State (Fin 2)) [] := .init
  have h1 := h0.step 0 (.convert 5) trivial rfl
  have h2 := h1.step 0 .load trivial rfl
  have h3 := h2.step 0 (.fetch .baseNs) trivial rfl
  have h4 := h3.step 1 (.save fun _ => 2) (by change ∀ u : Fin 2, ¬ Pc.Saving _; decide) rfl
  have h5 := h4.step 1 .enter trivial rfl
  have h6 := h5.step 1 .write trivial rfl
  have h7 := h6.step 1 .write trivial rfl
  have h8 := h7.step 1 .write trivial rfl
  have h9 := h8.step 1 .leave trivial rfl
  have h10 := h9.step 0 (.fetch .baseTsc) trivial rfl
  have h11 := h10.step 0 (.fetch .nsPerTsc) trivial rfl
  exact ⟨_, _, h11, rfl, rfl, rfl, _, rfl, rfl⟩

theorem overtaken_clock_linearizable :
    ∃ s : State (Fin 2), ∃ history : List (Label (Fin 2) Op (Option UInt64)), s.stores = 2 ∧ history.length = 4 ∧
      ∃ reg, Linearizes (Register wholeNs) (fun _ => 1) history reg := by
  obtain ⟨s, history, h, hstores, hlength, -⟩ := overtaken_shows
  obtain ⟨reg, hlin, -⟩ := clock_linearizable wholeNs h
  exact ⟨s, history, hstores, hlength, reg, hlin⟩

/-- **A conversion starts over only because of a save**: one that has stored the sequence number since the attempt began,
or one that is between its stores. -/
theorem retry_overtaken {v : Params} {s s' : State T} {history : List (Label T Op (Option UInt64))} {t : T} {tsc : UInt64}
    (h : Shows toNs v s history) (hstep : step s t .check = some s') (hretry : s'.pc t = .trying tsc) :
    s.loadedAt t < s.stores ∨ ∃ u seq w rest, s.pc u = .saving seq w rest := by
  obtain ⟨reg, hI, -⟩ := h.legal
  cases turn_of_step hstep with
  | accept hpc hgot =>
    change update s.pc t .idle t = _ at hretry
    rw [update_self] at hretry
    cases hretry
  | retry hpc hne =>
    have hknows := hI.knows t
    rw [hpc] at hknows
    obtain ⟨hbefore, hle, -⟩ := hknows
    refine (Nat.lt_or_eq_of_le hle).imp id fun hsame => ?_
    have hodd : ¬ s.stores % 2 = 0 := fun heven => hne (by rw [hbefore, hsame, evened_self heven, hI.seq])
    obtain ⟨u, hu⟩ := not_forall_not.mp fun hnone => hodd (hI.still hnone).1
    have hku := hI.knows u
    cases hpcu : s.pc u with
    | saving seq w rest => exact ⟨u, seq, w, rest, hpcu⟩
    | entering seq w =>
      rw [hpcu] at hku
      exact absurd hku.2.1 hodd
    | idle =>
      rw [hpcu] at hu
      exact hu.elim
    | trying _ =>
      rw [hpcu] at hu
      exact hu.elim
    | reading _ _ _ =>
      rw [hpcu] at hu
      exact hu.elim

theorem overtaken_retry :
    ∃ s s' : State (Fin 2), step s 0 .check = some s' ∧ s'.pc 0 = .trying 5 ∧
      (s.loadedAt 0 < s.stores ∨ ∃ u seq w rest, s.pc u = .saving seq w rest) := by
  obtain ⟨s, history, h, -, -, -, s', hstep, hretry⟩ := overtaken_shows
  exact ⟨s, s', hstep, hretry, retry_overtaken wholeNs h hstep hretry⟩

end Register

end Lepton.Tsc

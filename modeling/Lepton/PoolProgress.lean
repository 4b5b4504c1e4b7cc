import Mathlib.Tactic.Ring
import Lepton.PoolStack

/-! The pool is lock-free. An exchange fails only if another one has succeeded since the head was read, and after an
exchange that succeeds the operation has one step left; so the threads cannot keep each other from finishing. The steps
that all of them together can take before some operation returns are bounded, whichever way they are interleaved. -/

namespace Lepton.Pool

open Ledger

variable {T : Type} {count : Nat} {free : List Nat}

/-- The steps that a thread can take before its operation returns, if no other thread's exchange succeeds. A thread whose
reading of the head is stale has to read it again. -/
def Pc.ahead (stale : Prop) [Decidable stale] : Pc → Nat
  | .idle => 4
  | .releasing _ => 3
  | .acquiring _ | .linking _ _ => if stale then 4 else 2
  | .popping _ _ | .pushing _ _ => if stale then 3 else 1
  | .popped _ | .pushed _ => 0

/-- The exchange that an operation has not made yet. -/
def Pc.unsettled : Pc → Nat
  | .popped _ | .pushed _ => 0
  | .idle | .acquiring _ | .popping _ _ | .releasing _ | .linking _ _ | .pushing _ _ => 1

/-- An exchange that is not made yet can make every other thread's reading stale. -/
def cost [Fintype T] (s : State T) (t : T) : Nat :=
  (s.pc t).ahead (s.loadedAt t < s.swaps) + 2 * Fintype.card T * (s.pc t).unsettled

def Event.Completes : Event T → Prop
  | .thread _ .finish | .thread _ .giveUp => True
  | _ => False

/-- The exchange fails although the head is what the thread has read. -/
def Event.Spurious : Event T → Prop
  | .thread _ (.swap true) => True
  | _ => False

/-- A step of a thread in `acquire` or `release`. -/
def Event.isTurn : Event T → Bool
  | .thread _ _ => true
  | .write _ _ => false

/-- A run of timely steps, from one state to another. -/
inductive Runs [DecidableEq T] (count : Nat) : State T → List (Event T) → State T → Prop where
  | stop (s : State T) : Runs count s [] s
  | step {s s' s'' : State T} {es : List (Event T)} (e : Event T) (htimely : Timely s e)
      (hstep : step count s e = some s') (h : Runs count s' es s'') : Runs count s (e :: es) s''

theorem Pc.ahead_le (stale : Prop) [Decidable stale] (p : Pc) : p.ahead stale ≤ 4 := by
  cases p with
  | acquiring _ | linking _ _ | popping _ _ | pushing _ _ =>
    dsimp only [ahead]
    split <;> omega
  | idle | releasing _ | popped _ | pushed _ => dsimp only [ahead]; omega

/-- A stale reading costs two steps more. -/
theorem Pc.ahead_le_add (stale stale' : Prop) [Decidable stale] [Decidable stale'] (p : Pc) :
    p.ahead stale ≤ p.ahead stale' + 2 := by
  cases p with
  | acquiring _ | linking _ _ | popping _ _ | pushing _ _ =>
    dsimp only [ahead]
    split <;> split <;> omega
  | idle | releasing _ | popped _ | pushed _ => exact Nat.le_add_right _ _

variable [Fintype T]

theorem cost_le (s : State T) (t : T) : cost s t ≤ 4 + 2 * Fintype.card T := by
  have hahead := (s.pc t).ahead_le (s.loadedAt t < s.swaps)
  have hunsettled : (s.pc t).unsettled ≤ 1 := by
    cases s.pc t with
    | popped _ | pushed _ => exact Nat.zero_le 1
    | idle | releasing _ | acquiring _ | linking _ _ | popping _ _ | pushing _ _ => exact Nat.le_refl 1
  have hmul := Nat.mul_le_mul_left (2 * Fintype.card T) hunsettled
  unfold cost
  omega

variable [DecidableEq T]

omit [DecidableEq T] in
theorem cost_of_same {s s' : State T} {u : T} (hpc : s'.pc u = s.pc u) (hload : s'.loadedAt u = s.loadedAt u)
    (hswaps : s'.swaps = s.swaps) : cost s' u = cost s u := by
  simp only [cost, hpc, hload, hswaps]

/-- An exchange makes readings stale. -/
theorem cost_exchange {s : State T} {t u : T} (hu : u ≠ t) (val : Nat) (p : Pc) :
    cost (s.exchange t val p) u ≤ cost s u + 2 := by
  have hpc : (s.exchange t val p).pc u = s.pc u := Function.update_of_ne hu ..
  have hahead := (s.pc u).ahead_le_add ((s.exchange t val p).loadedAt u < (s.exchange t val p).swaps)
    (s.loadedAt u < s.swaps)
  simp only [cost, hpc]
  omega

theorem cost_read {s : State T} {t u : T} (hu : u ≠ t) (p : Pc) : cost (s.read count t p) u = cost s u :=
  cost_of_same (Function.update_of_ne hu ..) (Function.update_of_ne hu ..) rfl

/-- A thread that has just read the head is not stale. -/
theorem cost_read_self {s : State T} {t : T} {p : Pc} :
    cost (s.read count t p) t = p.ahead False + 2 * Fintype.card T * p.unsettled := by
  have hpc : (s.read count t p).pc t = p := Function.update_self ..
  have hfresh : ((s.read count t p).loadedAt t < (s.read count t p).swaps) ↔ False := by
    have hload : (s.read count t p).loadedAt t = s.swaps := Function.update_self ..
    rw [hload]
    exact iff_of_false (Nat.lt_irrefl _) id
  simp only [cost, hpc, hfresh]

omit [Fintype T] [DecidableEq T] in
/-- A failure that is not spurious is that of a stale reading. -/
theorem ReadsHead.stale {s : State T} {t : T} {old : Nat} (h : ReadsHead s t old) (hfails : s.headFreeVal ≠ old) :
    s.loadedAt t < s.swaps :=
  Nat.lt_of_le_of_ne h.loaded fun heq => hfails (h.fresh heq).symm

theorem sum_cost_lt {s s' : State T} {t : T} (hothers : ∀ u, u ≠ t → cost s' u = cost s u)
    (hdrop : cost s' t < cost s t) : ∑ u, cost s' u < ∑ u, cost s u :=
  @sum_lt_of_drop T _ _ _ _ t 0 (fun u hu => (hothers u hu).le) (by rw [Nat.zero_mul]; exact hdrop)

/-- A step of a thread that moves on with the reading it has. -/
theorem sum_cost_setPc_lt {s s' : State T} {t : T} {p q : Pc} (hpc : s.pc t = q) (hpc' : s'.pc = Function.update s.pc t p)
    (hload : s'.loadedAt = s.loadedAt) (hswaps : s'.swaps = s.swaps) (hunsettled : p.unsettled = q.unsettled)
    (hahead : p.ahead (s.loadedAt t < s.swaps) < q.ahead (s.loadedAt t < s.swaps)) :
    ∑ u, cost s' u < ∑ u, cost s u := by
  apply sum_cost_lt (t := t)
  · intro u hu
    apply cost_of_same _ (congrFun hload u) hswaps
    rw [hpc', Function.update_of_ne hu]
  · have hself : s'.pc t = p := by rw [hpc', Function.update_self]
    simp only [cost, hself, hpc, hload, hswaps, hunsettled]
    omega

/-- An exchange: its thread was not stale, and has its last step before it. -/
theorem sum_cost_exchange_lt {s : State T} {t : T} {p : Pc} (val : Nat) (hsettled : p.unsettled = 0)
    (hdone : ∀ (stale : Prop) [Decidable stale], p.ahead stale = 0)
    (hcost : cost s t = 1 + 2 * Fintype.card T) :
    ∑ u, cost (s.exchange t val p) u < ∑ u, cost s u := by
  apply sum_lt_of_drop (t := t) fun u hu => cost_exchange hu val p
  have hself : (s.exchange t val p).pc t = p := Function.update_self ..
  rw [hcost, cost, hself, hsettled, hdone]
  omega

/-- A step before the return of an operation takes something off what the threads have ahead of them. -/
theorem Turn.sum_cost_lt {s s' : State T} {t : T} {act : Act} (hturn : Turn count s t act s') (hI : Inv count free s)
    (htimely : Timely s (.thread t act)) (hopen : ¬ (Event.thread t act).Completes)
    (hspurious : ¬ (Event.thread t act).Spurious) : ∑ u, cost s' u < ∑ u, cost s u := by
  have hk := hI.knows t
  have hnot {old : Nat} {spurious : Bool} (hspur : ¬ (Event.thread t (.swap spurious)).Spurious)
      (hfails : ¬ (s.headFreeVal = old ∧ spurious = false)) : s.headFreeVal ≠ old := by
    cases spurious with
    | false => exact fun heq => hfails ⟨heq, rfl⟩
    | true => exact absurd trivial hspur
  cases hturn with
  | begin hpc =>
    apply Pool.sum_cost_lt fun u hu => cost_read hu _
    rw [cost_read_self, cost, hpc]
    exact Nat.add_lt_add_right (by decide : 2 < 4) _
  | readHead hpc =>
    apply Pool.sum_cost_lt fun u hu => cost_read hu _
    rw [cost_read_self, cost, hpc]
    exact Nat.add_lt_add_right (by decide : 2 < 3) _
  | readNext hpc hpos =>
    refine sum_cost_setPc_lt hpc rfl rfl rfl rfl ?_
    dsimp only [Pc.ahead]
    split <;> omega
  | link hpc =>
    refine sum_cost_setPc_lt hpc rfl rfl rfl rfl ?_
    dsimp only [Pc.ahead]
    split <;> omega
  | pop hpc =>
    rw [hpc] at hk
    apply sum_cost_exchange_lt _ rfl fun _ _ => rfl
    rw [cost, hpc, Pc.ahead, if_neg (hI.fresh hk.1 htimely).not_lt, Pc.unsettled, Nat.mul_one]
  | popAgain hpc hfails =>
    rw [hpc] at hk
    apply Pool.sum_cost_lt fun u hu => cost_read hu _
    rw [cost_read_self, cost, hpc, Pc.ahead, Pc.ahead, if_pos (hk.1.stale (hnot hspurious hfails)), if_neg id]
    exact Nat.add_lt_add_right (by decide : 2 < 3) _
  | push hpc =>
    rw [hpc] at hk
    apply sum_cost_exchange_lt _ rfl fun _ _ => rfl
    rw [cost, hpc, Pc.ahead, if_neg (hI.fresh hk.1 htimely).not_lt, Pc.unsettled, Nat.mul_one]
  | pushAgain hpc hfails =>
    rw [hpc] at hk
    apply Pool.sum_cost_lt fun u hu => cost_read hu _
    rw [cost_read_self, cost, hpc, Pc.ahead, Pc.ahead, if_pos (hk.1.stale (hnot hspurious hfails)), if_neg id]
    exact Nat.add_lt_add_right (by decide : 2 < 3) _
  | giveBack hpc hidx =>
    refine sum_cost_setPc_lt hpc rfl rfl rfl rfl ?_
    exact (by decide : 3 < 4)
  | giveUp _ _ => exact absurd trivial hopen
  | handOut _ => exact absurd trivial hopen
  | countIn _ => exact absurd trivial hopen

/-- Until an operation returns, every step is paid for. -/
theorem Runs.countP_le {s s' : State T} {es : List (Event T)} (h : Runs count s es s') (hcount : count < 2 ^ 31)
    (hI : Inv count free s) (hspurious : ∀ e ∈ es, ¬ e.Spurious) (hopen : ∀ e ∈ es, ¬ e.Completes) :
    es.countP Event.isTurn ≤ ∑ t, cost s t := by
  induction h generalizing free with
  | stop s => exact Nat.zero_le _
  | step e htimely hstep h ih =>
    obtain ⟨hspur, hspurs⟩ := List.forall_mem_cons.mp hspurious
    obtain ⟨hop, hops⟩ := List.forall_mem_cons.mp hopen
    obtain ⟨free', hI'⟩ := hI.step hcount htimely hstep
    have hrest := ih hI' hspurs hops
    cases e with
    | write idx val =>
      rw [List.countP_cons_of_neg Bool.false_ne_true]
      rw [Pool.step] at hstep
      split at hstep <;> cases hstep
      exact hrest
    | thread t act =>
      rw [List.countP_cons_of_pos rfl]
      exact Nat.succ_le_of_lt (Nat.lt_of_le_of_lt hrest
        ((turn_of_threadStep hstep).sum_cost_lt hI htimely hop hspur))

/-- **Lock-freedom.** From every state of a timely interleaving of `n` threads, and whichever way they are interleaved
from there, some operation returns within `4 * n + 2 * n ^ 2 + 1` of their steps, if no exchange fails spuriously. -/
theorem some_operation_returns {s s' : State T} {es : List (Event T)} (hpos : 1 ≤ count) (hcount : count < 2 ^ 31)
    (hreachable : Reachable count s) (h : Runs count s es s') (hspurious : ∀ e ∈ es, ¬ e.Spurious)
    (hlong : 4 * Fintype.card T + 2 * Fintype.card T ^ 2 < es.countP Event.isTurn) : ∃ e ∈ es, e.Completes := by
  by_contra hnone
  obtain ⟨free, hI⟩ := inv_of_reachable hpos hcount hreachable
  have hsteps := h.countP_le hcount hI hspurious fun e he hdone => hnone ⟨e, he, hdone⟩
  have hbound : ∑ t, cost s t ≤ Fintype.card T * (4 + 2 * Fintype.card T) := by
    rw [← smul_eq_mul, ← Finset.card_univ]
    exact Finset.sum_le_card_nsmul _ _ _ fun t _ => cost_le s t
  have hsquare : Fintype.card T * (4 + 2 * Fintype.card T) = 4 * Fintype.card T + 2 * Fintype.card T ^ 2 := by ring
  omega

/-- Two threads that take the two buffers and give them back, in step: the second one's exchange fails in both operations,
as the first one's has succeeded before. -/
theorem eighteen_steps_return : ∃ s s' : State (Fin 2), ∃ early late, Reachable 2 s ∧ Runs 2 s (early ++ late) s' ∧
    (∃ mid, Runs 2 s early mid ∧ early.getLast? = some (.thread 1 (.swap false)) ∧ mid.pc 1 = .acquiring mid.headFreeVal) ∧
    (early ++ late).countP Event.isTurn = 18 ∧ ∃ e ∈ early ++ late, e.Completes := by
  let early : List (Event (Fin 2)) := [.thread 0 .load, .thread 1 .load, .thread 0 .readNext, .thread 1 .readNext,
    .thread 0 (.swap false), .thread 1 (.swap false)]
  let late : List (Event (Fin 2)) := [.thread 1 .readNext, .thread 1 (.swap false), .thread 0 .finish, .thread 1 .finish,
    .thread 0 (.release 0), .thread 1 (.release 1), .thread 0 .load, .thread 1 .load, .thread 0 .link, .thread 1 .link,
    .thread 0 (.swap false), .thread 1 (.swap false)]
  have htimely (n : Nat) (hn : n < 5) : n < 2 ^ 32 := hn.trans (by decide)
  have hearly : Runs 2 (init 2 : State (Fin 2)) early _ :=
    .step _ trivial rfl <| .step _ trivial rfl <| .step _ trivial rfl <| .step _ trivial rfl <|
      .step _ (htimely _ (by decide)) rfl <| .step _ (htimely _ (by decide)) rfl <| .stop _
  have hrun : Runs 2 (init 2 : State (Fin 2)) (early ++ late) _ :=
    .step _ trivial rfl <| .step _ trivial rfl <| .step _ trivial rfl <| .step _ trivial rfl <|
      .step _ (htimely _ (by decide)) rfl <| .step _ (htimely _ (by decide)) rfl <|
      .step _ trivial rfl <| .step _ (htimely _ (by decide)) rfl <| .step _ trivial rfl <| .step _ trivial rfl <|
      .step _ trivial rfl <| .step _ trivial rfl <| .step _ trivial rfl <| .step _ trivial rfl <|
      .step _ trivial rfl <| .step _ trivial rfl <| .step _ (htimely _ (by decide)) rfl <|
      .step _ (htimely _ (by decide)) rfl <| .stop _
  have hspurious : ∀ e ∈ early ++ late, ¬ e.Spurious := by
    simp only [early, late, List.cons_append, List.nil_append, List.forall_mem_cons]
    exact ⟨id, id, id, id, id, id, id, id, id, id, id, id, id, id, id, id, id, id, List.forall_mem_nil _⟩
  exact ⟨_, _, early, late, .init, hrun, ⟨_, hearly, rfl, rfl⟩, rfl,
    some_operation_returns (by decide) (by decide) .init hrun hspurious (by rw [Fintype.card_fin]; decide)⟩

end Lepton.Pool

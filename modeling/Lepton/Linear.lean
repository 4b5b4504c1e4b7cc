import Mathlib.Data.List.Basic

/-! Linearizability of a concurrent object. A history shows the calls of operations, the steps at which they take effect
and their returns, the latest first. It linearizes if every thread calls, takes effect and returns in turn, and the
operations in the order in which they take effect are a run of the sequential object. -/

namespace Lepton.Linear

inductive Label (T O R : Type) where
  | call (t : T) (op : O)
  /-- The operation takes effect, and its result is settled. -/
  | point (t : T) (op : O) (res : R)
  | ret (t : T) (op : O) (res : R)

/-- Where a thread stands between two labels. -/
inductive Phase (O R : Type) where
  | idle
  | called (op : O)
  | decided (op : O) (res : R)

variable {T O R S : Type}

def Label.thread : Label T O R → T
  | .call t _ | .point t _ _ | .ret t _ _ => t

/-- A thread's labels come in turn, and leave it in the given phase. -/
inductive Stands (t : T) : List (Label T O R) → Phase O R → Prop where
  | start : Stands t [] .idle
  | call {history : List (Label T O R)} (op : O) (h : Stands t history .idle) :
      Stands t (.call t op :: history) (.called op)
  | point {history : List (Label T O R)} {op : O} (res : R) (h : Stands t history (.called op)) :
      Stands t (.point t op res :: history) (.decided op res)
  | ret {history : List (Label T O R)} {op : O} {res : R} (h : Stands t history (.decided op res)) :
      Stands t (.ret t op res :: history) .idle
  | other {history : List (Label T O R)} {phase : Phase O R} {l : Label T O R} (hother : l.thread ≠ t)
      (h : Stands t history phase) : Stands t (l :: history) phase

/-- The operations that take effect are a run of the sequential object. -/
inductive Legal (spec : S → O → R → S → Prop) (start : S) : List (Label T O R) → S → Prop where
  | start : Legal spec start [] start
  | point {history : List (Label T O R)} {s s' : S} {op : O} {res : R} (t : T) (h : Legal spec start history s)
      (hspec : spec s op res s') : Legal spec start (.point t op res :: history) s'
  | call {history : List (Label T O R)} {s : S} (t : T) (op : O) (h : Legal spec start history s) :
      Legal spec start (.call t op :: history) s
  | ret {history : List (Label T O R)} {s : S} (t : T) (op : O) (res : R) (h : Legal spec start history s) :
      Legal spec start (.ret t op res :: history) s

/-- The history is one of the sequential object, which it leaves in the given state. -/
structure Linearizes (spec : S → O → R → S → Prop) (start : S) (history : List (Label T O R)) (s : S) : Prop where
  legal : Legal spec start history s
  inTurn : ∀ t, ∃ phase, Stands t history phase

/-- The labels of one thread leave the others where they are. -/
theorem Stands.others {t : T} {history new : List (Label T O R)} {phase : Phase O R} (h : Stands t history phase)
    (hnew : ∀ l ∈ new, l.thread ≠ t) : Stands t (new ++ history) phase := by
  induction new with
  | nil => exact h
  | cons l new ih =>
    obtain ⟨hl, hrest⟩ := List.forall_mem_cons.mp hnew
    exact (ih hrest).other hl

end Lepton.Linear

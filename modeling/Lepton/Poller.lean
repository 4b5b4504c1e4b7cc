import Mathlib.Logic.Function.Basic

/-! The interest set of a readiness poller, as far as one client is concerned: the write interest of
each descriptor that is registered with the client as its token. -/

namespace Lepton

abbrev Interest := Nat → Option Bool

namespace Interest

/-- Closing a descriptor removes it. -/
def close (i : Interest) : Option Nat → Interest
  | none => i
  | some fd => Function.update i fd none

def add (i : Interest) (fd : Nat) (wants : Bool) : Interest := Function.update i fd (some wants)

/-- `EPOLL_CTL_MOD`, without effect on a descriptor that is not registered. -/
def modify (i : Interest) (fd : Option Nat) (wants : Bool) : Interest :=
  match fd with
  | none => i
  | some fd => if (i fd).isSome then Function.update i fd (some wants) else i

theorem isSome_modify (i : Interest) (fd : Option Nat) (wants : Bool) (fd' : Nat) :
    (i.modify fd wants fd').isSome = (i fd').isSome := by
  cases fd with
  | none => rfl
  | some fd =>
    unfold modify
    dsimp only
    split
    · next h =>
      by_cases hfd : fd' = fd
      · rw [hfd, Function.update_self, h]
        rfl
      · rw [Function.update_of_ne hfd]
    · rfl

end Interest

end Lepton

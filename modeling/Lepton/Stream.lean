import Mathlib.Data.List.Basic

/-! The answers of a nonblocking byte stream, as the protocol layers see them: the phases of its
opening, and the results of one write and of one read. -/

namespace Lepton

/-- The connection-setup phase that `poll_open` reports. -/
inductive StreamPhase where
  | connecting
  | opened
  | failed
  | closed
  deriving DecidableEq, Repr

/-- The result of a write: accepted bytes, `-EAGAIN`, or another negative errno. -/
inductive WriteResult where
  | accepted (n : Nat)
  | again
  | error
  deriving DecidableEq, Repr

/-- The result of a read: bytes, of which none is the end of the stream, `-EAGAIN`, or another
negative errno. -/
inductive ReadResult where
  | data (bytes : List UInt8)
  | again
  | error
  deriving DecidableEq, Repr

/-- A call of a stream, with its answer. -/
inductive StreamCall where
  | connect (ok : Bool)
  | pollOpen (answer : StreamPhase)
  | write (src : List UInt8) (answer : WriteResult)
  | read (room : Nat) (answer : ReadResult)
  | close
  deriving DecidableEq, Repr

/-- The answer ends the connection. -/
def StreamCall.Failing : StreamCall → Prop
  | .connect ok => ok = false
  | .pollOpen ph => ph = .failed ∨ ph = .closed
  | .write _ answer => answer = .error
  | .read _ answer => answer = .error
  | .close => False

instance : DecidablePred StreamCall.Failing
  | .connect ok => inferInstanceAs (Decidable (ok = false))
  | .pollOpen ph => inferInstanceAs (Decidable (ph = .failed ∨ ph = .closed))
  | .write _ answer => inferInstanceAs (Decidable (answer = .error))
  | .read _ answer => inferInstanceAs (Decidable (answer = .error))
  | .close => isFalse id

/-- The stream has ended. -/
def StreamCall.AtEnd : StreamCall → Prop
  | .read _ answer => answer = .data []
  | .connect _ | .pollOpen _ | .write _ _ | .close => False

instance : DecidablePred StreamCall.AtEnd
  | .read _ answer => inferInstanceAs (Decidable (answer = .data []))
  | .connect _ | .pollOpen _ | .write _ _ | .close => isFalse id

/-- The bytes that calls have read, the latest call first. -/
def bytesRead : List StreamCall → List UInt8
  | [] => []
  | .read _ (.data bytes) :: before => bytesRead before ++ bytes
  | _ :: before => bytesRead before

theorem bytesRead_append (new old : List StreamCall) : bytesRead (new ++ old) = bytesRead old ++ bytesRead new := by
  induction new with
  | nil =>
    rw [List.nil_append, bytesRead, List.append_nil]
  | cons c new ih =>
    rw [List.cons_append]
    cases c with
    | read room answer =>
      cases answer with
      | data bytes => rw [bytesRead, bytesRead, ih, List.append_assoc]
      | again | error => exact ih
    | connect _ | pollOpen _ | write _ _ | close => exact ih

end Lepton

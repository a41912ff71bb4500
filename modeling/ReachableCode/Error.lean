import ReachableCode.Fault
import ReachableCode.Memory.Architecture

/-!
Errors that a caller is told of, and how an operation that can fail with one ends.
-/

namespace ReachableCode

inductive Error where
  | parsing (reason : String)
  | decoder (reason : String)
  | unsupportedArchitecture (a : Architecture)
  | io (reason : String)
  | invariantViolation (reason : String)
  | generic (reason : String)
  deriving DecidableEq, Repr

def Error.message : Error → String
  | .parsing reason => "Failed to parse binary format: " ++ reason
  | .decoder reason => "Decoder error: " ++ reason
  | .unsupportedArchitecture a => "Unsupported architecture: " ++ a.name
  | .io reason => "I/O error: " ++ reason
  | .invariantViolation reason => "Block graph invariant violated: " ++ reason
  | .generic reason => reason

/-- How an operation ends that gives no result: by a fault, or by an error of type `ε`. -/
inductive Halt (ε : Type) where
  | fault (f : Fault)
  | error (e : ε)
  deriving DecidableEq, Repr

def Halt.throw {ε α : Type} (e : ε) : Except (Halt ε) α :=
  .error (.error e)

/-- An operation that can only end by a fault. -/
def Halt.ofFault {ε α : Type} (x : Except Fault α) : Except (Halt ε) α :=
  x.mapError .fault

end ReachableCode

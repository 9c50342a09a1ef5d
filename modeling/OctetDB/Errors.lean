import Mathlib

/-!
# Errors of the product API

`Error` is the product's own error value: a category for programmatic decisions, the
operation that failed and a diagnostic. A `Failure` is any error value a caller of the
product can receive: the product's own, the error of a cancelled context, or an error
of the application's callback that is passed through unchanged.
-/

namespace OctetDB

inductive ErrorKind where
  | invalidInput
  | capacity
  | storage
  | corruption
  | incompatible
  | closed
  | poisoned
  deriving DecidableEq, Repr

structure Error where
  kind : ErrorKind
  op : String
  message : String
  deriving DecidableEq, Repr

inductive Failure where
  | product (e : Error)
  | context (message : String)
  | callback (message : String)
  deriving DecidableEq, Repr

end OctetDB

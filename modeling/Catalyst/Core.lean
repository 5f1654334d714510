/-!
# What every part of the product shares

Time is the database's clock in milliseconds. An `AppError` keeps its code and
its message; the HTTP status and the details are read by no modelled function.
-/

namespace Catalyst

abbrev Time := Nat

abbrev ClientInstanceId := String

inductive AppErrorCode
  | badRequest | unauthenticated | forbidden | notFound | conflict | timeout
  | validationFailed | rateLimited | policyDenied | guardrailBlocked | declined
  | idempotencyKeyReused | operationInProgress | operationExpired | outputNotRetained
  | internal
  deriving DecidableEq

structure AppError where
  code : AppErrorCode
  message : String
  deriving DecidableEq

end Catalyst

import EffectPrograms.Interpreter

/-!
# Errors of the application

An error ends the composite that it stands in: the rest of the composite is replaced by a response.
-/

namespace EffectPrograms.Accounts.Errors

/-- The errors. -/
def algebra : Algebra :=
  ⟨"errors", [
    ("authorization", { params := ["identity", "requestedResource"] }),
    ("internalServer", { params := ["sourceError"] })]⟩

/-- A response with a status and a body. -/
def response (status : Nat) (body : Value) : Value :=
  .object [("status", .ofNat status), ("body", body)]

/-- What the response to a refused access says. -/
def refusal (identity resource : String) : String :=
  "User " ++ identity ++ " does not have access to resource " ++ resource

/-- Returns a response instead of the rest of the composite. -/
def interpreter {σ : Type} : Interpreter σ :=
  .ofHandlers "errors" [
    ("authorization", fun r => do
      let identity ← r.require "identity"
      let resource ← r.require "requestedResource"
      let body := refusal identity.plainText resource.plainText
      Handling.replaceRemainder [.returning (response 401 (.string body))]
      return .unit),
    ("internalServer", fun r => do
      let source ← r.require "sourceError"
      Handling.replaceRemainder [.returning (response 500 source)]
      return .unit)]

end EffectPrograms.Accounts.Errors

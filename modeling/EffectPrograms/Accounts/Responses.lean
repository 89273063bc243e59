import EffectPrograms.Interpreter
import EffectPrograms.Services.Stub

/-!
# Responses

Sending a response through a web framework.
-/

namespace EffectPrograms.Accounts.Responses

/-- The one operation: to respond. -/
def algebra : Algebra :=
  ⟨"someRestFramework/respond", [("respond", { params := ["responseDescriptor"] })]⟩

/-- Hands each response to the responder. The value is the response that was sent, whatever the
responder answers. -/
def interpreter {σ : Type} (responder : Slot σ Stub) : Interpreter σ :=
  .ofHandlers "someRestFramework/respond" [("respond", fun r => do
    let response ← r.require "responseDescriptor"
    return .operation (.io (.ofAction (responder.run fun stub =>
      (response, (stub.record [response]).2)))))]

end EffectPrograms.Accounts.Responses

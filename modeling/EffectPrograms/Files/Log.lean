import EffectPrograms.Interpreter
import EffectPrograms.Services.Stub

/-!
# Log messages

Messages of three levels.
-/

namespace EffectPrograms.Files.Log

/-- One operation for each level. -/
def algebra : Algebra :=
  ⟨"log", [
    ("log", { params := ["message"] }),
    ("warn", { params := ["message"] }),
    ("error", { params := ["message"] })]⟩

variable {σ : Type}

/-- Hands a message to the logger together with its level. -/
def leveled (logger : Slot σ Stub) (level : String) : String × Handler σ :=
  (level, fun r => do
    let message ← r.require "message"
    return .operation (Stub.call logger [.string level, message]))

/-- Hands every message to the logger. -/
def interpreter (logger : Slot σ Stub) : Interpreter σ :=
  .ofHandlers "log" [leveled logger "log", leveled logger "warn", leveled logger "error"]

end EffectPrograms.Files.Log

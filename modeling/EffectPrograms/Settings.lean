import EffectPrograms.Fault

/-!
# Settings

How deep composites may nest, and whether concurrent executions take turns after every step.
-/

namespace EffectPrograms

/-- Settings of an executor. -/
structure Settings where
  /-- How many composites may be open at once. -/
  maxDepth : Option Nat := none
  /-- Whether an execution gives up its turn after every step that only makes progress. -/
  yieldBetweenSteps : Bool := true
deriving DecidableEq, Repr

namespace Settings

/-- Settings under which no execution could run are refused: the top level is open from the start.
-/
def validate (s : Settings) : Except Fault Unit :=
  if s.maxDepth = some 0 then .error (.badSettings .noDepth) else .ok ()

end Settings

end EffectPrograms

/-!
# Places in a world

A service keeps its state in a place of the world that an execution runs in, so that one interpreter
serves every world which has such a place.
-/

namespace EffectPrograms

/-- A place for an `α` in a world. -/
structure Slot (σ α : Type) where
  get : σ → α
  set : α → σ → σ

namespace Slot

variable {σ α β : Type}

/-- Runs an action on the place and leaves the rest of the world as it is. -/
def run (slot : Slot σ α) (action : α → β × α) (world : σ) : β × σ :=
  let (b, a) := action (slot.get world)
  (b, slot.set a world)

end Slot

end EffectPrograms

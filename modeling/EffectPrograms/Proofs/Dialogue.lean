import EffectPrograms.Proofs.Branches

/-!
# What handlers ask for

A handler is lent the capability to have the rest of a composite replaced: it may call it, more than
once, and look whether anyone has called it in this dispatch. A `Dialogue` is a handler's
computation with every such use as a constructor, so that besides what it does (`Dialogue.run`) it
can be made which calls it makes (`Dialogue.calls`).

Only the last call leaves a trace (`Dialogue.replacement_of_run`). All the branches of a fan-out
work on one pass, one after the other and through any nesting, so the same holds of an interpreter
and the calls of all those that are consulted (`Interpreter.replacement_of_makesCalls`).
-/

namespace EffectPrograms

variable {σ : Type}

/-- The computation of a handler, step by step. -/
inductive Dialogue (σ α : Type) where
  /-- It has a result. -/
  | finish (a : α)
  /-- It fails. -/
  | fail (x : Failure)
  /-- It looks at the world. -/
  | look (next : σ → Dialogue σ α)
  /-- It changes the world. -/
  | change (world : σ) (next : Dialogue σ α)
  /-- It looks whether a replacement has been asked for. -/
  | replaced (next : Bool → Dialogue σ α)
  /-- It asks for the rest of the composite to be replaced. -/
  | replace (steps : List (Step σ)) (next : Dialogue σ α)

namespace Dialogue

variable {α : Type}

/-- What the handler does. -/
def run : Dialogue σ α → Handling σ α
  | finish a => pure a
  | fail x => throw x
  | look next => do (next (← get).world).run
  | change world next => do
    modify fun pass => { pass with world }
    next.run
  | replaced next => do (next (← get).replacement.isSome).run
  | replace steps next => do
    Handling.replaceRemainder steps
    next.run

/-- The steps that it asks for in its calls, in order. -/
def calls : Dialogue σ α → Pass σ → List (List (Step σ))
  | finish _, _ | fail _, _ => []
  | look next, pass => (next pass.world).calls pass
  | change world next, pass => next.calls { pass with world }
  | replaced next, pass => (next pass.replacement.isSome).calls pass
  | replace steps next, pass => steps :: next.calls { pass with replacement := some steps }

/-- Of all the calls of a handler only the last one leaves a trace. -/
theorem replacement_of_run (d : Dialogue σ α) (pass : Pass σ) :
    (d.run pass).2.replacement = (d.calls pass).getLast?.or pass.replacement := by
  induction d generalizing pass with
  | finish a => rfl
  | fail x => rfl
  | look next ih => exact ih pass.world pass
  | change world next ih => exact ih { pass with world }
  | replaced next ih => exact ih pass.replacement.isSome pass
  | replace steps next ih =>
    have hlast : (steps :: next.calls { pass with replacement := some steps }).getLast? =
        (next.calls { pass with replacement := some steps }).getLast?.or (some steps) := by
      rw [← List.singleton_append, List.getLast?_append]
      rfl
    rw [calls, hlast, Option.or_assoc]
    exact ih { pass with replacement := some steps }

end Dialogue

namespace Interpreter

/-- Who is consulted about a request makes these calls on the way: those of the handler that it has
for the request, or none if it has no handler. -/
inductive MakesCalls (r : Request) : Interpreter σ × Pass σ → List (List (Step σ)) → Prop where
  | spoken {i : Interpreter σ} {pass : Pass σ} (d : Dialogue σ (Answer σ)) :
      i.handling? r = some d.run → MakesCalls r (i, pass) (d.calls pass)
  | silent {i : Interpreter σ} {pass : Pass σ} : i.handling? r = none → MakesCalls r (i, pass) []

/-- Every handler that runs for a request is a dialogue. Left out are handlers which overwrite the
capability that they are lent instead of calling it. -/
def Scripted (i : Interpreter σ) : Prop :=
  ∀ r pass, ∀ asked ∈ i.consulted r pass, ∀ h, asked.1.handling? r = some h →
    ∃ d : Dialogue σ (Answer σ), d.run = h

variable {r : Request} {pass : Pass σ}

/-- A table runs its handlers. -/
theorem scripted_table {algebra : String} {handlers : List (String × Handler σ)}
    (h : ∀ entry ∈ handlers, ∀ r, ∃ d : Dialogue σ (Answer σ), d.run = entry.2 r) :
    (table algebra handlers).Scripted := by
  intro r pass asked hasked handling hhandling
  obtain rfl : asked = (table algebra handlers, pass) := by simpa [consulted] using hasked
  obtain ⟨-, handler, hlookup, rfl⟩ : r.algebra = algebra ∧
      ∃ handler, handlers.lookup r.operation = some handler ∧ handler r = handling := by
    simpa [handling?] using hhandling
  obtain ⟨earlier, later, rfl, -⟩ := List.lookup_eq_some_iff.1 hlookup
  exact h (r.operation, handler) (by simp) r

/-- A typed function runs what it makes of an operation. -/
theorem scripted_typed {α : Type} {t : TypedAlgebra α} {handle : α → Handling σ (Answer σ)}
    (h : ∀ a, ∃ d : Dialogue σ (Answer σ), d.run = handle a) :
    (t.interpreter handle).Scripted := by
  intro r pass asked hasked handling hhandling
  obtain rfl : asked = (t.interpreter handle, pass) := by
    simpa [TypedAlgebra.interpreter, consulted] using hasked
  rw [TypedAlgebra.interpreter, handling?] at hhandling
  cases hrecover : t.recover r with
  | ok a =>
    obtain rfl : handle a = handling := by
      simpa [hrecover, Except.map, Except.toOption] using hhandling
    exact h a
  | error f => simp [hrecover, Except.map, Except.toOption] at hhandling

/-- A fan-out runs what its branches run. -/
theorem scripted_fanOut {algebra name : String} {branches : List (Interpreter σ)}
    (h : ∀ branch ∈ branches, branch.Scripted) : (fanOut algebra name branches).Scripted := by
  intro r pass
  rw [consulted]
  exact forall_mem_consultedEach fun branch hbranch pass asked => h branch hbranch r pass asked

/-- Every consulted interpreter of dialogues makes some calls. -/
theorem Scripted.makesCalls {i : Interpreter σ} (h : i.Scripted) (r : Request) (pass : Pass σ) :
    ∀ asked ∈ i.consulted r pass, ∃ calls, MakesCalls r asked calls := by
  rintro ⟨leaf, given⟩ hasked
  cases hhandling : leaf.handling? r with
  | none => exact ⟨[], .silent hhandling⟩
  | some handling =>
    obtain ⟨d, rfl⟩ := h r pass (leaf, given) hasked handling hhandling
    exact ⟨d.calls given, .spoken d hhandling⟩

/-- The calls that are made on a pass by one handler. -/
theorem MakesCalls.replacement_eq {i : Interpreter σ} {calls : List (List (Step σ))}
    (h : MakesCalls r (i, pass) calls)
    (hsilent : i.handling? r = none → (i.interpret r pass).2 = pass) :
    (i.interpret r pass).2.replacement = calls.getLast?.or pass.replacement := by
  cases h with
  | spoken d hhandling =>
    rw [interpret_of_handling hhandling, Handling.dispatching_apply]
    exact d.replacement_of_run pass
  | silent hnone =>
    rw [hsilent hnone]
    rfl

mutual

/-- Of all the calls that an interpreter leads to only the last one leaves a trace. -/
theorem replacement_of_makesCalls {made : Interpreter σ × Pass σ → List (List (Step σ))}
    (i : Interpreter σ) (pass : Pass σ)
    (h : ∀ asked ∈ i.consulted r pass, MakesCalls r asked (made asked)) :
    (i.interpret r pass).2.replacement =
      ((i.consulted r pass).flatMap made).getLast?.or pass.replacement := by
  cases i with
  | table algebra handlers =>
    rw [consulted] at h ⊢
    rw [List.flatMap_singleton]
    exact (h _ (List.mem_singleton_self _)).replacement_eq (interpret_table_of_none · pass)
  | typed algebra handle =>
    rw [consulted] at h ⊢
    rw [List.flatMap_singleton]
    exact (h _ (List.mem_singleton_self _)).replacement_eq (interpret_typed_of_none · pass)
  | fanOut algebra name branches =>
    rw [consulted] at h ⊢
    -- Putting the answers together leaves the pass as the last branch has left it.
    rw [← replacement_of_makesCalls_each branches pass h, interpret]
    rcases heach : interpretEach branches r pass with ⟨f | answers, next⟩
    · rw [Dispatching.bind_of_error heach]
    · rw [Dispatching.bind_of_ok heach]
      rfl

/-- The same for interpreters that are asked one after the other. -/
theorem replacement_of_makesCalls_each {made : Interpreter σ × Pass σ → List (List (Step σ))}
    (branches : List (Interpreter σ)) (pass : Pass σ)
    (h : ∀ asked ∈ consultedEach r branches pass, MakesCalls r asked (made asked)) :
    (interpretEach branches r pass).2.replacement =
      ((consultedEach r branches pass).flatMap made).getLast?.or pass.replacement := by
  cases branches with
  | nil => rfl
  | cons branch later =>
    rcases hanswer : branch.interpret r pass with ⟨f | answer, next⟩
    · rw [consultedEach_cons_of_error hanswer] at h ⊢
      rw [interpretEach, Dispatching.bind_of_error hanswer,
        ← replacement_of_makesCalls branch pass h, hanswer]
    · rw [consultedEach_cons_of_ok hanswer, List.forall_mem_append] at h
      -- The later branches start from what the first one has left, and so the last call of all of
      -- them counts, or else that of the first.
      have hfirst := replacement_of_makesCalls branch pass h.1
      have hlater := replacement_of_makesCalls_each later next h.2
      rw [hanswer] at hfirst
      rw [consultedEach_cons_of_ok hanswer, List.flatMap_append, List.getLast?_append,
        Option.or_assoc, ← hfirst, ← hlater, interpretEach, Dispatching.bind_of_ok hanswer]
      rcases hrest : interpretEach later r next with ⟨f | answers, last⟩
      · rw [Dispatching.bind_of_error hrest]
      · rw [Dispatching.bind_of_ok hrest]
        rfl

end

end Interpreter

end EffectPrograms

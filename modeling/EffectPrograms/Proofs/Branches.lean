import EffectPrograms.Registry

/-!
# The branches of a fan-out

A fan-out asks its branches one after the other, each on the pass that the one before it has left.
`Interpreter.AnswerInTurn` and `Interpreter.FailInTurn` say how this may go, and one of them always
holds (`answerInTurn_or_failInTurn`).

A branch may be a fan-out itself. What is asked in the end are tables and typed functions, and
`Interpreter.consulted` lists them in order with the pass that each of them is given, through any
number of fan-outs and up to the first that fails. Each runs the handler that it has for the
request, if it has one (`Interpreter.handling?`).
-/

namespace EffectPrograms

variable {σ : Type}

namespace Dispatching

variable {α β : Type} {m : Dispatching σ α} {pass next : Pass σ}

/-- What follows a computation that has a result. -/
theorem bind_of_ok {f : α → Dispatching σ β} {a : α} (h : m pass = (.ok a, next)) :
    (m >>= f) pass = f a next := by
  simp only [Bind.bind, ExceptT.bind, ExceptT.mk, StateT.bind, h]
  rfl

/-- Nothing follows a computation that fails. -/
theorem bind_of_error {f : α → Dispatching σ β} {fault : Fault}
    (h : m pass = (.error fault, next)) :
    (m >>= f) pass = (.error fault, next) := by
  simp only [Bind.bind, ExceptT.bind, ExceptT.mk, StateT.bind, h]
  rfl

end Dispatching

/-- A handler leaves the same pass when it runs as part of a dispatch, with its failure put as a
fault. -/
theorem Handling.dispatching_apply {α : Type} (h : Handling σ α) (r : Request) (pass : Pass σ) :
    h.dispatching r pass = ((h pass).1.mapError (Failure.toFault r), (h pass).2) := rfl

namespace Interpreter

/-! ## Branches in turn -/

/-- The interpreters answer a request one after the other, each on the pass that the one before it
has left. -/
inductive AnswerInTurn (r : Request) :
    List (Interpreter σ) → Pass σ → List (Answer σ) → Pass σ → Prop where
  | nil (pass : Pass σ) : AnswerInTurn r [] pass [] pass
  | cons {branch : Interpreter σ} {later : List (Interpreter σ)} {pass next last : Pass σ}
      {answer : Answer σ} {answers : List (Answer σ)} :
      branch.interpret r pass = (.ok answer, next) → AnswerInTurn r later next answers last →
        AnswerInTurn r (branch :: later) pass (answer :: answers) last

/-- One of the interpreters fails, after those before it have answered. -/
def FailInTurn (r : Request) (branches : List (Interpreter σ)) (pass : Pass σ) (f : Fault)
    (last : Pass σ) : Prop :=
  ∃ earlier failing later answers next, branches = earlier ++ failing :: later ∧
    AnswerInTurn r earlier pass answers next ∧ failing.interpret r next = (.error f, last)

variable {r : Request} {branches : List (Interpreter σ)} {pass last : Pass σ}

/-- All interpreters answer, or one of them fails. -/
theorem answerInTurn_or_failInTurn (r : Request) (branches : List (Interpreter σ))
    (pass : Pass σ) :
    (∃ answers last, AnswerInTurn r branches pass answers last) ∨
      ∃ f last, FailInTurn r branches pass f last := by
  induction branches generalizing pass with
  | nil => exact .inl ⟨[], pass, .nil pass⟩
  | cons branch later ih =>
    rcases hanswer : branch.interpret r pass with ⟨f | answer, next⟩
    · exact .inr ⟨f, next, [], branch, later, [], pass, rfl, .nil pass, hanswer⟩
    · rcases ih next with
        ⟨answers, last, hlater⟩ | ⟨f, last, earlier, failing, rest, answers, before, rfl, h, hfail⟩
      · exact .inl ⟨answer :: answers, last, .cons hanswer hlater⟩
      · exact .inr ⟨f, last, branch :: earlier, failing, rest, answer :: answers, before, rfl,
          .cons hanswer h, hfail⟩

/-- The answers that are given in turn are those that a fan-out collects. -/
theorem AnswerInTurn.interpretEach {answers : List (Answer σ)}
    (h : AnswerInTurn r branches pass answers last) :
    interpretEach branches r pass = (.ok answers, last) := by
  induction h with
  | nil pass => rfl
  | cons hanswer _ ih =>
    rw [Interpreter.interpretEach, Dispatching.bind_of_ok hanswer, Dispatching.bind_of_ok ih]
    rfl

/-- The first failure is that of a fan-out, which collects nothing then. -/
theorem FailInTurn.interpretEach {f : Fault} (h : FailInTurn r branches pass f last) :
    interpretEach branches r pass = (.error f, last) := by
  obtain ⟨earlier, failing, later, answers, next, rfl, hearlier, hfail⟩ := h
  induction hearlier with
  | nil pass =>
    rw [List.nil_append, Interpreter.interpretEach, Dispatching.bind_of_error hfail]
  | cons hanswer _ ih =>
    rw [List.cons_append, Interpreter.interpretEach, Dispatching.bind_of_ok hanswer,
      Dispatching.bind_of_error (ih hfail)]

variable {algebra name : String}

/-- A fan-out whose branches all answer puts the answers into one sequence. -/
theorem AnswerInTurn.interpret_fanOut {answers : List (Answer σ)}
    (h : AnswerInTurn r branches pass answers last) :
    (fanOut algebra name branches).interpret r pass =
      (.ok (.sequence (FanOut.combine name answers)), last) := by
  rw [interpret, Dispatching.bind_of_ok h.interpretEach]
  rfl

/-- A fan-out with a branch that fails, fails. -/
theorem FailInTurn.interpret_fanOut {f : Fault} (h : FailInTurn r branches pass f last) :
    (fanOut algebra name branches).interpret r pass = (.error f, last) := by
  rw [interpret, Dispatching.bind_of_error h.interpretEach]

/-- A fan-out only fails with a branch. -/
theorem failInTurn_of_interpret_fanOut {f : Fault}
    (h : (fanOut algebra name branches).interpret r pass = (.error f, last)) :
    FailInTurn r branches pass f last := by
  rcases answerInTurn_or_failInTurn r branches pass with
    ⟨answers, next, hanswers⟩ | ⟨g, next, hfail⟩
  · cases hanswers.interpret_fanOut.symm.trans h
  · cases hfail.interpret_fanOut.symm.trans h
    exact hfail

/-- A fan-out is built just over branches that serve its algebra. It binds the value of its last
branch under the same name in every composite. -/
theorem fanOut?_eq_ok_iff {i : Interpreter σ} :
    fanOut? algebra branches = .ok i ↔
      (∀ branch ∈ branches, branch.algebra = algebra) ∧ i = .fanOut algebra "last" branches := by
  unfold fanOut?
  split
  · next stray hstray =>
    have hmem := List.mem_of_find?_eq_some hstray
    have hforeign : stray.algebra ≠ algebra := by simpa using List.find?_some hstray
    simp only [reduceCtorEq, false_iff]
    exact fun h => hforeign (h.1 stray hmem)
  · next hnone =>
    have hall : ∀ branch ∈ branches, branch.algebra = algebra := by simpa using hnone
    rw [Except.ok.injEq, eq_comm, and_iff_right hall]

/-- A fan-out that is built has the branches that it was built over. -/
theorem fanOut_of_fanOut? {i : Interpreter σ} (h : fanOut? algebra branches = .ok i) :
    i = .fanOut algebra "last" branches := (fanOut?_eq_ok_iff.1 h).2

/-! ## Who is asked in the end -/

mutual

/-- The tables and typed functions that an interpreter asks, each with the pass that it is given. -/
def consulted (r : Request) : Interpreter σ → Pass σ → List (Interpreter σ × Pass σ)
  | .fanOut _ _ branches, pass => consultedEach r branches pass
  | .table algebra handlers, pass => [(.table algebra handlers, pass)]
  | .typed algebra handle, pass => [(.typed algebra handle, pass)]

/-- Those that the interpreters ask one after the other, up to the first that fails. -/
def consultedEach (r : Request) :
    List (Interpreter σ) → Pass σ → List (Interpreter σ × Pass σ)
  | [], _ => []
  | branch :: later, pass =>
    consulted r branch pass ++
      match branch.interpret r pass with
      | (.ok _, next) => consultedEach r later next
      | (.error _, _) => []

end

/-- After a branch that answers come those that the later branches ask. -/
theorem consultedEach_cons_of_ok {branch : Interpreter σ} {answer : Answer σ} {next : Pass σ}
    (h : branch.interpret r pass = (.ok answer, next)) (later : List (Interpreter σ)) :
    consultedEach r (branch :: later) pass =
      branch.consulted r pass ++ consultedEach r later next := by
  rw [consultedEach, h]

/-- After a branch that fails nobody is asked. -/
theorem consultedEach_cons_of_error {branch : Interpreter σ} {f : Fault} {next : Pass σ}
    (h : branch.interpret r pass = (.error f, next)) (later : List (Interpreter σ)) :
    consultedEach r (branch :: later) pass = branch.consulted r pass := by
  rw [consultedEach, h, List.append_nil]

/-- What holds of all that each branch asks, on any pass, holds of all that the fan-out asks. -/
theorem forall_mem_consultedEach {P : Interpreter σ × Pass σ → Prop}
    (h : ∀ branch ∈ branches, ∀ pass, ∀ asked ∈ branch.consulted r pass, P asked) :
    ∀ asked ∈ consultedEach r branches pass, P asked := by
  induction branches generalizing pass with
  | nil => simp [consultedEach]
  | cons branch later ih =>
    have hlater := fun pass =>
      @ih pass fun branch hbranch => h branch (List.mem_cons_of_mem _ hbranch)
    have hfirst := h branch (List.mem_cons_self ..) pass
    rcases hanswer : branch.interpret r pass with ⟨f | answer, next⟩
    · rw [consultedEach_cons_of_error hanswer]
      exact hfirst
    · rw [consultedEach_cons_of_ok hanswer]
      exact List.forall_mem_append.2 ⟨hfirst, hlater next⟩

/-- A branch that fails is the last that is asked. -/
theorem consulted_subset_of_answerInTurn {earlier later : List (Interpreter σ)}
    {answers : List (Answer σ)} {next : Pass σ} (h : AnswerInTurn r earlier pass answers next)
    (branch : Interpreter σ) :
    branch.consulted r next ⊆ consultedEach r (earlier ++ branch :: later) pass := by
  induction h with
  | nil pass =>
    rw [List.nil_append, consultedEach]
    exact List.subset_append_left _ _
  | cons hanswer _ ih =>
    rw [List.cons_append, consultedEach_cons_of_ok hanswer]
    exact List.subset_append_of_subset_right _ ih

/-! ## What is run -/

/-- The handler that a table or a typed function has for a request. -/
def handling? (r : Request) : Interpreter σ → Option (Handling σ (Answer σ))
  | .table algebra handlers =>
    if r.algebra = algebra then (handlers.lookup r.operation).map fun handler => handler r else none
  | .typed _ handle => (handle r).toOption
  | .fanOut _ _ _ => none

/-- Who has a handler for the request runs it. -/
theorem interpret_of_handling {i : Interpreter σ} {h : Handling σ (Answer σ)}
    (hhandling : i.handling? r = some h) : i.interpret r = h.dispatching r := by
  cases i with
  | table algebra handlers =>
    obtain ⟨hserves, hfound⟩ : r.algebra = algebra ∧
        (handlers.lookup r.operation).map (fun handler => handler r) = some h := by
      simpa [handling?] using hhandling
    obtain ⟨handler, hlookup, rfl⟩ := Option.map_eq_some_iff.1 hfound
    rw [interpret, if_neg (not_not_intro hserves), hlookup]
  | typed algebra handle =>
    have hhandle : handle r = .ok h := by
      rw [handling?] at hhandling
      cases hread : handle r with
      | ok run => rwa [hread, Except.toOption, Option.some.injEq, ← Except.ok.injEq] at hhandling
      | error f => simp [hread, Except.toOption] at hhandling
    rw [interpret, hhandle]
  | fanOut algebra name branches => simp [handling?] at hhandling

/-- A table without a handler for the request fails and leaves the pass as it was. -/
theorem interpret_table_of_none {handlers : List (String × Handler σ)}
    (h : (table algebra handlers).handling? r = none) (pass : Pass σ) :
    ((table algebra handlers).interpret r pass).2 = pass := by
  rw [interpret]
  by_cases hserves : r.algebra = algebra
  · have hlookup : handlers.lookup r.operation = none := by simpa [handling?, hserves] using h
    rw [if_neg (not_not_intro hserves), hlookup]
    rfl
  · rw [if_pos hserves]
    rfl

/-- So does a typed function that does not read the request. -/
theorem interpret_typed_of_none {handle : Request → Except Fault (Handling σ (Answer σ))}
    (h : (typed algebra handle).handling? r = none) (pass : Pass σ) :
    ((typed algebra handle).interpret r pass).2 = pass := by
  rw [interpret]
  cases hread : handle r with
  | ok run => simp [handling?, hread, Except.toOption] at h
  | error f => rfl

end Interpreter

end EffectPrograms

import EffectPrograms.Execution.Concurrent
import EffectPrograms.Proofs.Mentions
import EffectPrograms.Proofs.Routing
import EffectPrograms.Proofs.Session
import Mathlib.Data.List.Find
import Mathlib.Data.List.Forall2

/-!
# The order of registration

Interpreters are registered one after another, and handlers are put into a table one after another.
The first interpreter counts for an algebra, and the last handler for an operation; all else about
the two orders makes no difference to any execution (`Registry.registration_order`). An execution
knows its registry only by the algebras that have an interpreter and by what comes of a dispatch
(`Registry.Interchangeable`), so it is enough to compare these.
-/

namespace EffectPrograms

variable {σ : Type}

/-! ## Tables -/

namespace Interpreter

mutual

/-- Two interpreters are built alike, and their tables have the same handler for every operation. -/
inductive Agree : Interpreter σ → Interpreter σ → Prop where
  | table (algebra : String) {handlers handlers' : List (String × Handler σ)} :
      (∀ operation, handlers.lookup operation = handlers'.lookup operation) →
        Agree (.table algebra handlers) (.table algebra handlers')
  | typed (algebra : String) (handle : Request → Except Fault (Handling σ (Answer σ))) :
      Agree (.typed algebra handle) (.typed algebra handle)
  | fanOut (algebra resultName : String) {branches branches' : List (Interpreter σ)} :
      AgreeEach branches branches' →
        Agree (.fanOut algebra resultName branches) (.fanOut algebra resultName branches')

/-- Each branch of one fan-out agrees with the branch in its place in the other. -/
inductive AgreeEach : List (Interpreter σ) → List (Interpreter σ) → Prop where
  | nil : AgreeEach [] []
  | cons {branch branch' : Interpreter σ} {rest rest' : List (Interpreter σ)} :
      Agree branch branch' → AgreeEach rest rest' → AgreeEach (branch :: rest) (branch' :: rest')

end

mutual

/-- An interpreter agrees with itself. -/
theorem agree_self : (i : Interpreter σ) → i.Agree i
  | .table algebra _ => .table algebra fun _ => rfl
  | .typed algebra handle => .typed algebra handle
  | .fanOut algebra resultName branches => .fanOut algebra resultName (agreeEach_self branches)

/-- So does each branch. -/
theorem agreeEach_self : (branches : List (Interpreter σ)) → AgreeEach branches branches
  | [] => .nil
  | branch :: rest => .cons (agree_self branch) (agreeEach_self rest)

end

variable {i j : Interpreter σ}

/-- Interpreters that agree serve the same algebra. -/
theorem Agree.algebra_eq (h : i.Agree j) : i.algebra = j.algebra := by
  cases h <;> rfl

mutual

/-- They make the same of a request. -/
theorem Agree.interpret_eq {i j : Interpreter σ} (h : i.Agree j) (r : Request) :
    i.interpret r = j.interpret r := by
  cases h with
  | table algebra hlookup => simp only [interpret, hlookup]
  | typed algebra handle => rfl
  | fanOut algebra resultName heach => simp only [interpret, heach.interpretEach_eq r]

/-- So does each branch. -/
theorem AgreeEach.interpretEach_eq {branches branches' : List (Interpreter σ)}
    (h : AgreeEach branches branches') (r : Request) :
    interpretEach branches r = interpretEach branches' r := by
  cases h with
  | nil => rfl
  | cons hbranch hrest =>
    simp only [interpretEach, hbranch.interpret_eq r, hrest.interpretEach_eq r]

end

/-- So they serve a request alike. -/
theorem Agree.serve_eq (h : i.Agree j) (r : Request) (world : σ) :
    i.serve r world = j.serve r world := by
  rw [serve, serve, h.interpret_eq]

/-- The handler that a table has for an operation is the last that it was given for it. -/
theorem agree_ofHandlers (algebra : String) {handlers handlers' : List (String × Handler σ)}
    (h : ∀ operation, Entries.lastMention? handlers operation =
      Entries.lastMention? handlers' operation) :
    (ofHandlers algebra handlers).Agree (ofHandlers algebra handlers') := by
  refine .table algebra fun operation => ?_
  have hlast := (Entries.gathers_ofPairs handlers).get? operation
  have hlast' := (Entries.gathers_ofPairs handlers').get? operation
  exact hlast.trans ((h operation).trans hlast'.symm)

end Interpreter

/-! ## Registrations -/

namespace Registry

variable {registry registry' : Registry σ} {i : Interpreter σ} {attempts : List (Interpreter σ)}

/-- An algebra that has an interpreter is refused, and the registry stays as it is. -/
theorem attempt_of_taken (h : registry.contains i.algebra = true) :
    registry.register i = .error (.interpreterTaken i.algebra) ∧ registry.attempt i = registry := by
  have hrefused : registry.register i = .error (.interpreterTaken i.algebra) := by
    rw [register, if_pos h]
  exact ⟨hrefused, by rw [attempt, hrefused]⟩

/-- For any other algebra the interpreter is added. -/
theorem attempt_of_free (h : registry.contains i.algebra = false) :
    registry.register i = .ok (registry.attempt i) ∧
      registry.attempt i = ⟨registry.interpreters ++ [i]⟩ := by
  have hadded : registry.register i = .ok ⟨registry.interpreters ++ [i]⟩ := by
    rw [register, if_neg (by simp [h])]
  have hattempt : registry.attempt i = ⟨registry.interpreters ++ [i]⟩ := by
    rw [attempt, hadded]
  exact ⟨hattempt ▸ hadded, hattempt⟩

/-- One more attempt comes after the attempts before. -/
theorem ofAttempts_concat (earlier : List (Interpreter σ)) (i : Interpreter σ) :
    ofAttempts (earlier ++ [i]) = (ofAttempts earlier).attempt i := by
  simp [ofAttempts]

/-- An algebra has an interpreter just if one was to be registered for it. -/
theorem contains_ofAttempts (attempts : List (Interpreter σ)) (algebra : String) :
    (ofAttempts attempts).contains algebra = true ↔ ∃ i ∈ attempts, i.algebra = algebra := by
  simp [contains, find?_ofAttempts, List.find?_isSome]

/-- The first that was to be registered for its algebra is found. -/
theorem find?_of_first {earlier : List (Interpreter σ)}
    (hfirst : ∀ before ∈ earlier, before.algebra ≠ i.algebra) (later : List (Interpreter σ)) :
    (ofAttempts (earlier ++ i :: later)).find? i.algebra = some i := by
  have hnone : earlier.find? (fun j => j.algebra = i.algebra) = none := by simpa using hfirst
  rw [find?_ofAttempts, List.find?_append, hnone, Option.none_or]
  exact List.find?_cons_of_pos (by simp)

/-- No algebra has two interpreters. -/
theorem nodup_ofAttempts (attempts : List (Interpreter σ)) :
    ((ofAttempts attempts).interpreters.map Interpreter.algebra).Nodup := by
  induction attempts using List.reverseRecOn with
  | nil => exact List.nodup_nil
  | append_singleton earlier i ih =>
    rw [ofAttempts_concat]
    cases hcontains : (ofAttempts earlier).contains i.algebra with
    | true => rwa [(attempt_of_taken hcontains).2]
    | false =>
      have hnew : ∀ j ∈ (ofAttempts earlier).interpreters, ¬ j.algebra = i.algebra := by
        simpa [contains, find?] using hcontains
      rw [(attempt_of_free hcontains).2]
      simpa [List.nodup_append, ih] using hnew

/-- The algebras of a registry are those that have an interpreter. -/
theorem mem_algebras_iff (registry : Registry σ) (algebra : String) :
    algebra ∈ registry.algebras ↔ registry.contains algebra = true := by
  simp [algebras, contains, find?, List.mem_mergeSort, List.find?_isSome]

/-- They are listed in strict order. -/
theorem pairwise_algebras_ofAttempts (attempts : List (Interpreter σ)) :
    (ofAttempts attempts).algebras.Pairwise (· < ·) := by
  have hsorted : (ofAttempts attempts).algebras.Pairwise fun a b => decide (a ≤ b) = true :=
    List.pairwise_mergeSort
      (fun a b c hab hbc => by
        simpa using String.le_trans (of_decide_eq_true hab) (of_decide_eq_true hbc))
      (fun a b => by simpa using String.le_total a b) _
  have hdistinct : (ofAttempts attempts).algebras.Nodup :=
    (List.mergeSort_perm _ _).nodup_iff.2 (nodup_ofAttempts attempts)
  refine hsorted.imp₂ (fun a b hle hne => ?_) hdistinct
  exact Std.lt_of_le_of_ne (of_decide_eq_true hle) hne

/-- An interpreter that is refused, and the algebras of the two that are not. -/
example : (ofAttempts [.table "text" [], .table "mail" [], .fanOut "text" "last" []] :
    Registry σ).algebras = ["mail", "text"] := by cbv

/-! ## Registries that no execution tells apart -/

/-- The same algebras have an interpreter, and the same comes of every dispatch. -/
structure Interchangeable (registry registry' : Registry σ) : Prop where
  contains_eq : ∀ algebra, registry.contains algebra = registry'.contains algebra
  dispatch_eq : ∀ r world, registry.dispatch r world = registry'.dispatch r world

/-- Registries are interchangeable if the interpreters that they find agree. -/
theorem interchangeable_of_agree
    (h : ∀ algebra, Option.Rel Interpreter.Agree (registry.find? algebra)
      (registry'.find? algebra)) : registry.Interchangeable registry' where
  contains_eq algebra := by
    have hfound := h algebra
    unfold contains
    generalize registry.find? algebra = found at hfound ⊢
    generalize registry'.find? algebra = found' at hfound ⊢
    cases hfound <;> rfl
  dispatch_eq r world := by
    have hfound := h r.algebra
    generalize hfind : registry.find? r.algebra = found at hfound
    generalize hfind' : registry'.find? r.algebra = found' at hfound
    cases hfound with
    | none => rw [dispatch_of_find?_eq_none hfind, dispatch_of_find?_eq_none hfind']
    | some hagree =>
      rw [dispatch_of_find?_eq_some hfind, dispatch_of_find?_eq_some hfind', hagree.serve_eq]

namespace Interchangeable

/-- A request is followed to the same end. -/
theorem follow_eq (h : registry.Interchangeable registry') (fuel : Nat) :
    registry.follow fuel = registry'.follow fuel := by
  induction fuel with
  | zero => rfl
  | succ fuel ih =>
    funext r rest world
    simp only [follow, h.dispatch_eq, ih]

/-- The same is done on the way. -/
theorem acts_eq (h : registry.Interchangeable registry') (fuel : Nat) :
    registry.acts fuel = registry'.acts fuel := by
  induction fuel with
  | zero => rfl
  | succ fuel ih =>
    funext r world
    have hcontains := h.contains_eq r.algebra
    unfold contains at hcontains
    simp only [acts, h.dispatch_eq, ih]
    cases hfind : registry.find? r.algebra <;> cases hfind' : registry'.find? r.algebra
    all_goals simp [hfind, hfind'] at hcontains ⊢

/-- So a step comes to the same. -/
theorem resolve_eq (h : registry.Interchangeable registry') (fuel : Nat) :
    registry.resolve fuel = registry'.resolve fuel := by
  funext env s rest world
  simp only [resolve, resolveOperation, h.follow_eq]

/-- The same is done in it. -/
theorem stepActs_eq (h : registry.Interchangeable registry') (fuel : Nat) :
    registry.stepActs fuel = registry'.stepActs fuel := by
  have hoperation : registry.operationActs fuel = registry'.operationActs fuel := by
    funext world o
    cases o <;> simp only [operationActs, h.acts_eq]
  funext stack world
  simp only [stepActs, resolveActs, hoperation]

end Interchangeable

end Registry

namespace Executor

/-- Nothing tells the executions of two executors apart. -/
structure SameExecutions (x x' : Executor σ) : Prop where
  /-- Every call on an execution does the same and comes to the same, whatever every io delivers. -/
  sessions : ∀ program surroundings fuel n, x.machine.sessionAfter program surroundings fuel n =
    x'.machine.sessionAfter program surroundings fuel n
  /-- A program that performs its io itself ends alike and leaves the same world. -/
  runs : ∀ fuel program world, x.execute fuel program world = x'.execute fuel program world
  /-- So do programs side by side. -/
  rounds : ∀ fuel programs world, x.executeAll fuel programs world =
    x'.executeAll fuel programs world

variable {registry registry' : Registry σ}

/-- With interchangeable registries a step is the same. -/
theorem step_eq_of_interchangeable (h : registry.Interchangeable registry') (settings : Settings) :
    step ⟨registry, settings⟩ = step ⟨registry', settings⟩ := by
  funext fuel execution world
  cases execution with
  | running stack => simp only [step, h.resolve_eq]
  | _ => rfl

variable {x x' : Executor σ}

/-- Executors with the same steps run an execution alike. -/
theorem run_eq_of_step_eq (hstep : x.step = x'.step) (fuel : Nat) : x.run fuel = x'.run fuel := by
  induction fuel with
  | zero => rfl
  | succ fuel ih =>
    funext execution world
    simp only [run, hstep, ih]

/-- With the same settings a turn among other programs is the same too. -/
theorem advance_eq_of_step_eq (hstep : x.step = x'.step) (hsettings : x.settings = x'.settings)
    (fuel : Nat) : x.advance fuel = x'.advance fuel := by
  induction fuel with
  | zero => rfl
  | succ fuel ih =>
    funext execution round
    simp only [advance, hstep, hsettings, ih]

/-- Then every round is the same. -/
theorem turns_eq_of_advance_eq (hadvance : ∀ fuel, x.advance fuel = x'.advance fuel) (fuel : Nat)
    (jobs : List (Job σ)) : x.turns fuel jobs = x'.turns fuel jobs := by
  have hturn : x.turn fuel = x'.turn fuel := by
    funext job round
    cases job <;> simp only [turn, hadvance]
  induction jobs with
  | nil => rfl
  | cons job rest ih =>
    funext round
    simp only [turns, hturn, ih]

/-- And so are all rounds until the programs are finished. -/
theorem finish_eq_of_advance_eq (hadvance : ∀ fuel, x.advance fuel = x'.advance fuel)
    (fuel : Nat) : x.finish fuel = x'.finish fuel := by
  induction fuel with
  | zero => rfl
  | succ fuel ih =>
    funext jobs world
    simp only [finish, turns_eq_of_advance_eq hadvance, ih]

/-- Interchangeable registries have the same executions under the same settings. -/
theorem sameExecutions_of_interchangeable (h : registry.Interchangeable registry')
    (settings : Settings) : SameExecutions ⟨registry, settings⟩ ⟨registry', settings⟩ := by
  have hstep := step_eq_of_interchangeable h settings
  refine ⟨fun program surroundings fuel n => ?_, fun fuel program world => ?_,
    fun fuel programs world => ?_⟩
  · have hadvance : (machine ⟨registry, settings⟩).advance fuel =
        (machine ⟨registry', settings⟩).advance fuel := by
      funext s
      simp only [Machine.advance, machine, hstep, h.stepActs_eq]
    rw [Machine.sessionAfter, Machine.sessionAfter, hadvance]
  · rw [execute, execute, run_eq_of_step_eq hstep]
  · rw [executeAll, executeAll,
      finish_eq_of_advance_eq fun fuel => advance_eq_of_step_eq hstep rfl fuel]

end Executor

/-! ## Two orders -/

namespace Registry

variable {attempts attempts' order : List (Interpreter σ)}

/-- In lists whose members agree in turn, the first interpreters of an algebra agree. -/
theorem rel_find?_of_forall₂ (h : List.Forall₂ Interpreter.Agree attempts attempts')
    (algebra : String) : Option.Rel Interpreter.Agree
      (attempts.find? fun i => i.algebra = algebra)
      (attempts'.find? fun i => i.algebra = algebra) := by
  induction h with
  | nil => exact .none
  | @cons i j rest rest' hagree _ ih =>
    by_cases hserves : i.algebra = algebra
    · have hserves' : j.algebra = algebra := hagree.algebra_eq.symm.trans hserves
      simpa [hserves, hserves'] using hagree
    · have hserves' : ¬ j.algebra = algebra := fun h => hserves (hagree.algebra_eq.trans h)
      simpa [hserves, hserves'] using ih

/-- If no algebra comes twice, it has the same interpreter in any order. -/
theorem find?_eq_of_perm (hdistinct : (attempts.map Interpreter.algebra).Nodup)
    (hperm : attempts.Perm order) (algebra : String) :
    (attempts.find? fun i => i.algebra = algebra) = order.find? fun i => i.algebra = algebra := by
  refine List.find?_eq_find?_of_perm hperm ?_
  rintro i ⟨hi, hserves⟩ j ⟨hj, hserves'⟩
  refine List.inj_on_of_nodup_map hdistinct hi hj ?_
  exact (of_decide_eq_true hserves).trans (of_decide_eq_true hserves').symm

/-- If the first interpreters of every algebra agree, nothing else about two lists can be told from
the executions. -/
theorem sameExecutions_ofAttempts
    (hfirst : ∀ algebra, Option.Rel Interpreter.Agree
      (attempts.find? fun i => i.algebra = algebra)
      (attempts'.find? fun i => i.algebra = algebra)) (settings : Settings) :
    Executor.SameExecutions
      ⟨ofAttempts attempts, settings⟩ ⟨ofAttempts attempts', settings⟩ := by
  refine Executor.sameExecutions_of_interchangeable ?_ settings
  refine interchangeable_of_agree fun algebra => ?_
  rw [find?_ofAttempts, find?_ofAttempts]
  exact hfirst algebra

/-- Whoever is first counts, and everything else about the order of registration makes no
difference. Of several interpreters that are registered one after another, the first of an algebra
is accepted and serves the requests of that algebra. Each later one is refused by the name of the
algebra, and the registry stays as it was. The algebras that come up are listed in strict order.

So two lists with the same first interpreters have the same executions under all settings, whatever
is refused in between; if no algebra comes up twice, this holds for any order of one list. It is
enough for the interpreters to agree: a table may be given its handlers in any order, as long as
the last one for each operation is the same, and it is if the handlers for one operation keep
their order. -/
theorem registration_order (attempts : List (Interpreter σ)) :
    (∀ earlier i later, attempts = earlier ++ i :: later →
      ((∀ before ∈ earlier, before.algebra ≠ i.algebra) →
        (ofAttempts earlier).register i = .ok (ofAttempts (earlier ++ [i])) ∧
        (ofAttempts attempts).find? i.algebra = some i ∧
        ∀ r world, r.algebra = i.algebra →
          (ofAttempts attempts).dispatch r world = i.serve r world) ∧
      ((∃ before ∈ earlier, before.algebra = i.algebra) →
        (ofAttempts earlier).register i = .error (.interpreterTaken i.algebra) ∧
        ofAttempts (earlier ++ [i]) = ofAttempts earlier)) ∧
    (ofAttempts attempts).algebras.Pairwise (· < ·) ∧
    (∀ algebra, algebra ∈ (ofAttempts attempts).algebras ↔
      ∃ i ∈ attempts, i.algebra = algebra) ∧
    (∀ attempts', (∀ algebra, Option.Rel Interpreter.Agree
        (attempts.find? fun i => i.algebra = algebra)
        (attempts'.find? fun i => i.algebra = algebra)) →
      ∀ settings, Executor.SameExecutions
        ⟨ofAttempts attempts, settings⟩ ⟨ofAttempts attempts', settings⟩) ∧
    (∀ order attempts', (attempts.map Interpreter.algebra).Nodup → attempts.Perm order →
      List.Forall₂ Interpreter.Agree order attempts' →
      ∀ settings, Executor.SameExecutions
        ⟨ofAttempts attempts, settings⟩ ⟨ofAttempts attempts', settings⟩) ∧
    (∀ algebra (handlers handlers' : List (String × Handler σ)),
      (∀ operation, Entries.lastMention? handlers operation =
        Entries.lastMention? handlers' operation) →
      (Interpreter.ofHandlers algebra handlers).Agree (.ofHandlers algebra handlers')) ∧
    ∀ handlers handlers' : List (String × Handler σ),
      (∀ operation, (handlers.filter fun h => h.1 = operation) =
        handlers'.filter fun h => h.1 = operation) →
      ∀ operation, Entries.lastMention? handlers operation =
        Entries.lastMention? handlers' operation := by
  refine ⟨?_, pairwise_algebras_ofAttempts attempts, fun algebra => ?_,
    fun attempts' => sameExecutions_ofAttempts, ?_,
    fun algebra handlers handlers' => Interpreter.agree_ofHandlers algebra, ?_⟩
  · rintro earlier i later rfl
    rw [ofAttempts_concat]
    refine ⟨fun hfirst => ?_, fun htaken => ?_⟩
    · have hfree : (ofAttempts earlier).contains i.algebra = false := by
        rw [Bool.eq_false_iff, ne_eq, contains_ofAttempts]
        rintro ⟨before, hmem, hbefore⟩
        exact hfirst before hmem hbefore
      have hfind := find?_of_first hfirst later
      refine ⟨(attempt_of_free hfree).1, hfind, fun r world hr => ?_⟩
      exact dispatch_of_find?_eq_some (hr ▸ hfind)
    · exact attempt_of_taken ((contains_ofAttempts earlier i.algebra).2 htaken)
  · rw [mem_algebras_iff, contains_ofAttempts]
  · intro order attempts' hdistinct hperm hagree
    refine sameExecutions_ofAttempts fun algebra => ?_
    rw [find?_eq_of_perm hdistinct hperm]
    exact rel_find?_of_forall₂ hagree algebra
  · intro handlers handlers' hfilter operation
    rw [Entries.lastMention?_eq_filter, Entries.lastMention?_eq_filter, hfilter]

/-- Handlers for mail. The first one is replaced by the last. -/
def postHandlers : List (String × Handler Unit) :=
  [("send", fun _ => pure .unit), ("read", fun _ => pure (.value .null)),
    ("send", fun _ => pure (.value (.bool true)))]

/-- The handlers that are left of them, in the other order. -/
def postHandlers' : List (String × Handler Unit) :=
  [("send", fun _ => pure (.value (.bool true))), ("read", fun _ => pure (.value .null))]

/-- A table for texts and a table for mail, in both orders of the tables and of the handlers. The
second table for texts is refused. -/
theorem registration_order_post :
    (ofAttempts [.table "text" [], .ofHandlers "mail" postHandlers]).register
      (.table "text" postHandlers) = .error (.interpreterTaken "text") ∧
    ∀ settings, Executor.SameExecutions
      ⟨ofAttempts [.table "text" [], .ofHandlers "mail" postHandlers], settings⟩
      ⟨ofAttempts [.ofHandlers "mail" postHandlers', .table "text" []], settings⟩ := by
  obtain ⟨hattempts, -⟩ := registration_order
    [.table "text" [], .ofHandlers "mail" postHandlers, .table "text" postHandlers]
  obtain ⟨-, -, -, -, hreordered, hhandlers, -⟩ := registration_order
    [.table "text" [], .ofHandlers "mail" postHandlers]
  obtain ⟨-, hrefused⟩ := hattempts [.table "text" [], .ofHandlers "mail" postHandlers]
    (.table "text" postHandlers) [] rfl
  have hmail : (Interpreter.ofHandlers "mail" postHandlers).Agree
      (.ofHandlers "mail" postHandlers') := by
    refine hhandlers "mail" _ _ fun operation => ?_
    by_cases hsend : operation = "send"
    · simp [Entries.lastMention?, postHandlers, postHandlers', Entries.get?_cons, hsend]
    · simp [Entries.lastMention?, postHandlers, postHandlers', Entries.get?_cons, hsend]
  refine ⟨(hrefused ⟨_, List.mem_cons_self, rfl⟩).1, ?_⟩
  exact hreordered _ _ (by decide) (.swap _ _ [])
    (.cons hmail (.cons (Interpreter.agree_self _) .nil))

end Registry

end EffectPrograms

import EffectPrograms.Accounts.ChangeEmail
import EffectPrograms.Proofs.Steps

/-!
# The stages of a change

On its way through the executor a request to change an address passes a small number of stages.
`Stage.execution` is the execution at each of them, and `Stage.next?` and `Stage.resume?` say where
a step and the delivery of a value lead from there. They are what the program of the request and the
five interpreters of the application come to together: `step_eq` and `resume_eq` prove it of the
executor, for any world and any places of the services in it. What is left of a request is then a
path through the stages, and the services are asked at two of them only, `cleared` and `returned`.

The depth limit counts where a composite is opened, at the start and where access is granted
(`step_tooDeep`).
-/

namespace EffectPrograms.Accounts

variable {σ : Type}

/-- The interpreters of the application, which all serve different algebras. -/
def interpreters (database : Slot σ Database) (responder : Slot σ Stub) : Registry σ :=
  ⟨[Authorization.interpreter, Errors.interpreter, UserRecords.interpreter,
    Database.interpreter database, Responses.interpreter responder]⟩

/-- No interpreter of the application is refused. -/
theorem registry_eq (database : Slot σ Database) (responder : Slot σ Stub) :
    registry database responder = .ok (interpreters database responder) := rfl

/-- The executor of the application. -/
def executor (database : Slot σ Database) (responder : Slot σ Stub) (settings : Settings) :
    Executor σ :=
  { registry := interpreters database responder, settings }

/-! ## Requests that a change makes -/

/-- Asks to send a response. -/
def sendResponse (response : Value) : Request :=
  ⟨"someRestFramework/respond", "respond", [("responseDescriptor", response)]⟩

namespace ChangeEmail

variable (c : ChangeEmail)

/-- Asks whether the token is valid. -/
def checkToken : Request := ⟨"authorization", "isValidToken", [("token", c.token.toValue)]⟩

/-- Asks whether the token was issued to the user. -/
def checkUser : Request :=
  ⟨"authorization", "isAuthed", [("userId", .string c.userId), ("token", c.token.toValue)]⟩

/-- Asks to edit the record of the user. -/
def edit : Request :=
  ⟨"userRecords", "updateField", [("entityId", .string c.userId),
    ("fieldName", .string "emailAddress"), ("fieldValue", .string c.emailAddress)]⟩

/-- Asks to write the row of the user. -/
def write : Request :=
  ⟨"coconutDb/dbOperations", "upsert", [("table", .string "users"), ("id", .string c.userId),
    ("patch", .object [("emailAddress", .string c.emailAddress)])]⟩

/-- The write itself: its status, and the database after it. -/
def writeTo (db : Database) : Value × Database :=
  db.upsert "users" c.userId (.object [("emailAddress", .string c.emailAddress)])

/-- The token is valid and was issued to the user whose address changes. -/
def Permitted : Prop := c.token.isValid = true ∧ c.token.userId = c.userId

instance : Decidable c.Permitted := inferInstanceAs (Decidable (_ ∧ _))

/-- The response to a request that is not permitted. -/
def refusal : Value :=
  .object [("status", .ofNat 401), ("body", .string
    ("User " ++ c.token.userId ++ " does not have access to resource " ++ c.userId))]

/-! ## Stages -/

/-- The steps of the composite that comes to the response. -/
def steps : List (Step σ) :=
  [.bind "isValidToken" (.request c.checkToken), .bind "isAuthed" (.request c.checkUser),
    guardAccess c.token.userId c.userId, .bind "writeStatus" (.request c.edit), answerWrite]

/-- The program comes to the response and then sends it. -/
theorem respond_eq :
    c.respond = .ok [.bind "result" (.composite (c.steps : List (Step σ))),
      .bind "response" sendResult] := rfl

/-- What is bound after the checks. -/
def checked : Environment :=
  ⟨[("isValidToken", .bool c.token.isValid), ("isAuthed", .bool (c.token.userId == c.userId))]⟩

/-- What is bound after the write. -/
def afterWrite (status : Value) : Environment :=
  ⟨c.checked.bindings ++ [("writeStatus", status)]⟩

end ChangeEmail

/-- Where the execution of a request stands. -/
inductive Stage where
  /-- Nothing has run. -/
  | arrived
  /-- The composite that comes to the response is open. -/
  | opened
  | tokenChecked
  | userChecked
  /-- Access is granted, by an empty composite. -/
  | granted
  /-- The write comes next. -/
  | cleared
  /-- Waits for the status of the write. -/
  | writing
  | written (status : Value)
  /-- The rest of the composite is to return a response. -/
  | returning (env : Environment) (response : Value)
  /-- The response is known and will be sent next. -/
  | returned (response : Value)
  /-- Waits for what the responder answers. -/
  | sending (response : Value)
  | sent (response answer : Value)
  | finished

namespace Stage

variable (c : ChangeEmail)

/-- What is left of the composite that comes to the response, inside the program. -/
def inComposite (steps : List (Step σ)) (env : Environment) : Stack σ :=
  ⟨{ steps, env, binding := some "result" }, [{ steps := [.bind "response" sendResult] }]⟩

/-- What is left of the program after that. -/
def inProgram (steps : List (Step σ)) (env : Environment) : Stack σ := ⟨{ steps, env }, []⟩

/-- The execution at a stage. -/
def execution : Stage → Execution σ
  | arrived => .running
      (inProgram [.bind "result" (.composite c.steps), .bind "response" sendResult] .empty)
  | opened => .running (inComposite c.steps .empty)
  | tokenChecked => .running
      (inComposite (c.steps.drop 1) ⟨[("isValidToken", .bool c.token.isValid)]⟩)
  | userChecked => .running (inComposite (c.steps.drop 2) c.checked)
  | granted => .running ⟨{ steps := [] }, (inComposite (c.steps.drop 3) c.checked).frames⟩
  | cleared => .running (inComposite (c.steps.drop 3) c.checked)
  | writing => .awaitingIo (some "writeStatus") (inComposite [answerWrite] c.checked)
  | written status => .running (inComposite [answerWrite] (c.afterWrite status))
  | returning env response => .running (inComposite [.returning response] env)
  | returned response => .running
      (inProgram [.bind "response" sendResult] ⟨[("result", response)]⟩)
  | sending response => .awaitingIo (some "response") (inProgram [] ⟨[("result", response)]⟩)
  | sent response answer => .running
      (inProgram [] ⟨[("result", response), ("response", answer)]⟩)
  | finished => .done

variable (database : Slot σ Database) (responder : Slot σ Stub)

/-- Where the next step leads, if the stage is one to step from. -/
def next? : Stage → Option (Event σ × Stage)
  | arrived => some (.progress, opened)
  | opened => some (.progress, tokenChecked)
  | tokenChecked => some (.progress, userChecked)
  | userChecked =>
    some (.progress, if c.Permitted then granted else returning c.checked c.refusal)
  | granted => some (.progress, cleared)
  | cleared => some (.io (.ofAction (database.run c.writeTo)), writing)
  | written status => some (.progress, match status.member? "error" with
    | some .null | none => returned success
    | some reason => returning (c.afterWrite status) (Errors.response 500 reason))
  | returning _ response => some (.progress, returned response)
  | returned response => some (.io (.ofAction (responder.run fun stub =>
      (response, (stub.record [response]).2))), sending response)
  | sent response answer => some (.finished (.environment
      ⟨[("result", response), ("response", answer)]⟩), finished)
  | writing | sending _ | finished => none

/-- Where the delivery of a value leads, if the stage waits for one. -/
def resume? (v : Value) : Stage → Option Stage
  | writing => some (written v)
  | sending response => some (sent response v)
  | _ => none

variable {c database responder} {fuel : Nat} {world : σ}

/-- The guard lets a permitted request pass. -/
theorem next?_userChecked_of_permitted (h : c.Permitted) :
    userChecked.next? c database responder = some (.progress, granted) := by
  simp only [next?, if_pos h]

/-- The guard has any other request refused. -/
theorem next?_userChecked_of_refused (h : ¬ c.Permitted) :
    userChecked.next? c database responder =
      some (.progress, returning c.checked c.refusal) := by
  simp only [next?, if_neg h]

/-- A write without an error is a success. -/
theorem next?_written {status : Value} (h : status.member? "error" = none) :
    (written status).next? c database responder = some (.progress, returned success) := by
  simp only [next?, h]

/-! ## What the executor makes of them -/

/-- The guard goes on only if both checks hold, and replaces the rest of the composite else. -/
theorem resolve_guard (valid same : Bool) (rest : List (Step σ)) :
    (interpreters database responder).resolve (fuel + 2)
        ⟨[("isValidToken", .bool valid), ("isAuthed", .bool same)]⟩
        (guardAccess c.token.userId c.userId) rest world =
      some (.ok (if (valid && same) = true then ⟨none, .enter [], rest⟩
        else ⟨none, .value .null, [.returning c.refusal]⟩), world) := by
  cases valid <;> cases same <;> rfl

/-- The last step of the composite looks at the status of the write. -/
theorem resolve_answerWrite (status : Value) :
    (interpreters database responder).resolve (fuel + 2) (c.afterWrite status) answerWrite []
        world =
      some (.ok (match status.member? "error" with
        | some .null | none => ⟨none, .escape success, []⟩
        | some reason =>
          ⟨none, .value .null, [.returning (Errors.response 500 reason)]⟩), world) := by
  have hstatus : (c.afterWrite status).valueOf "writeStatus" = status := rfl
  simp only [Registry.resolve, answerWrite, Step.fromEnvironment, Step.unwrap, hstatus]
  cases status.member? "error" with
  | none => rfl
  | some reason => cases reason <;> rfl

/-- Both checks hold just if the request is permitted. -/
theorem checks_iff : (c.token.isValid && (c.token.userId == c.userId)) = true ↔ c.Permitted := by
  simp [ChangeEmail.Permitted]

variable {settings : Settings}

/-- The first step opens the composite that comes to the response. -/
theorem step_arrived :
    (executor database responder settings).step (fuel + 2) (arrived.execution c) world =
      some (.ofResult (Stack.commit settings.maxDepth
        (inProgram [.bind "result" (.composite c.steps), .bind "response" sendResult] .empty)
        ⟨some "result", .enter c.steps, [.bind "response" sendResult]⟩) world) := rfl

/-- The guard opens an empty composite, or replaces the rest of its own by the refusal. -/
theorem step_userChecked :
    (executor database responder settings).step (fuel + 2) (userChecked.execution c) world =
      some (.ofResult (Stack.commit settings.maxDepth (inComposite (c.steps.drop 2) c.checked)
        (if c.Permitted then ⟨none, .enter [], c.steps.drop 3⟩
          else ⟨none, .value .null, [.returning c.refusal]⟩)) world) := by
  have hresolve : (interpreters database responder).resolve (fuel + 2) c.checked
      (guardAccess c.token.userId c.userId) (c.steps.drop 3) world = _ := resolve_guard _ _ _
  simp only [checks_iff] at hresolve
  exact (executor database responder settings).step_of_resolve rfl hresolve

/-- The last step of the composite returns, or replaces the rest of it by the failure. -/
theorem step_written (status : Value) :
    (executor database responder settings).step (fuel + 2) ((written status).execution c) world =
      some (.ofResult (Stack.commit settings.maxDepth
        (inComposite [answerWrite] (c.afterWrite status))
        (match status.member? "error" with
        | some .null | none => ⟨none, .escape success, []⟩
        | some reason =>
          ⟨none, .value .null, [.returning (Errors.response 500 reason)]⟩)) world) :=
  (executor database responder settings).step_of_resolve rfl (resolve_answerWrite status)

/-- A step leads from one stage to the next within the depth limit. -/
theorem step_eq {stage next : Stage} {event : Event σ}
    (h : stage.next? c database responder = some (event, next))
    (hdepth : ∀ limit ∈ settings.maxDepth, (next.execution c : Execution σ).depth ≤ limit)
    (fuel : Nat) (world : σ) :
    (executor database responder settings).step (fuel + 2) (stage.execution c) world =
      some ⟨.ok event, next.execution c, world⟩ := by
  cases stage with
  | arrived =>
    obtain ⟨rfl, rfl⟩ := Prod.mk.inj (Option.some.inj h)
    rw [step_arrived, Stack.commit_enter rfl (by simp) hdepth]
    rfl
  | opened | tokenChecked | granted | cleared | returning env response | returned response
  | sent response answer =>
    obtain ⟨rfl, rfl⟩ := Prod.mk.inj (Option.some.inj h)
    rfl
  | userChecked =>
    obtain ⟨rfl, rfl⟩ := Prod.mk.inj (Option.some.inj h)
    rw [step_userChecked]
    by_cases hpermitted : c.Permitted
    · rw [if_pos hpermitted] at hdepth
      rw [if_pos hpermitted, if_pos hpermitted]
      have hlimit : ∀ limit ∈ settings.maxDepth,
          (inComposite (c.steps.drop 2) c.checked : Stack σ).depth < limit := hdepth
      have hcommit : Stack.commit settings.maxDepth (inComposite (c.steps.drop 2) c.checked)
          ⟨none, .enter [], c.steps.drop 3⟩ = .ok _ :=
        Stack.commit_enter rfl (by simp [ChangeEmail.steps]) hlimit
      rw [hcommit]
      rfl
    · rw [if_neg hpermitted, if_neg hpermitted]
      rfl
  | written status =>
    obtain ⟨rfl, rfl⟩ := Prod.mk.inj (Option.some.inj h)
    rw [step_written]
    cases status.member? "error" with
    | none => rfl
    | some reason => cases reason <;> rfl
  | writing | sending response | finished => simp [next?] at h

/-- The stages from which the next step opens a composite. -/
def Opens (c : ChangeEmail) : Stage → Prop
  | arrived => True
  | userChecked => c.Permitted
  | _ => False

/-- At the limit the step that would open a composite fails. -/
theorem step_tooDeep {stage : Stage} {limit : Nat} (hopens : stage.Opens c)
    (hlimit : settings.maxDepth = some limit)
    (hdepth : limit ≤ (stage.execution c : Execution σ).depth) (fuel : Nat) (world : σ) :
    (executor database responder settings).step (fuel + 2) (stage.execution c) world =
      some (.fail (.tooDeep limit) world) := by
  cases stage with
  | arrived =>
    have hcommit : Stack.commit (some limit)
        (inProgram [.bind "result" (.composite c.steps), .bind "response" sendResult] .empty)
        ⟨some "result", .enter c.steps, [.bind "response" sendResult]⟩ = _ :=
      Stack.commit_enter_tooDeep rfl (by simp) hdepth
    rw [step_arrived, hlimit, hcommit]
    rfl
  | userChecked =>
    have hcommit : Stack.commit (some limit) (inComposite (c.steps.drop 2) c.checked)
        ⟨none, .enter [], c.steps.drop 3⟩ = _ :=
      Stack.commit_enter_tooDeep rfl (by simp [ChangeEmail.steps]) hdepth
    rw [step_userChecked, if_pos (show c.Permitted from hopens), hlimit, hcommit]
    rfl
  | _ => exact hopens.elim

/-- What a request waits for leads to the next stage. -/
theorem resume_eq {stage next : Stage} {v : Value} (h : stage.resume? v = some next) :
    (stage.execution c : Execution σ).resume v = (.ok (), next.execution c) := by
  cases stage with
  | writing | sending response =>
    obtain rfl := Option.some.inj h
    rfl
  | _ => simp [resume?] at h

end Stage

end EffectPrograms.Accounts

import EffectPrograms.Accounts.Authorization
import EffectPrograms.Accounts.Errors
import EffectPrograms.Accounts.Responses
import EffectPrograms.Accounts.UserRecords
import EffectPrograms.Execution.Run

/-!
# Changing an email address

A user may change the own address. The program checks the token, refuses with 401 if the token is
not valid or was issued to someone else, writes the address, and answers 200, or 500 if the write
failed. `serve` runs it and sends whatever it answers.
-/

namespace EffectPrograms.Accounts

/-- What a caller presents. -/
structure Token where
  /-- Whether the signature of the token holds. -/
  isValid : Bool
  /-- The user that the token was issued to. -/
  userId : String
deriving DecidableEq, Repr

/-- The token as the checks see it. -/
def Token.toValue (token : Token) : Value :=
  .object [("isValid", .bool token.isValid), ("userId", .string token.userId)]

/-- A request to change an address. -/
structure ChangeEmail where
  /-- The user whose address changes. -/
  userId : String
  token : Token
  /-- The new address. -/
  emailAddress : String
deriving DecidableEq, Repr

/-- The response after a write. -/
def success : Value := .object [("status", .ofNat 200)]

variable {σ : Type}

/-- Goes on only if both checks hold. -/
def guardAccess (identity resource : String) : Step σ :=
  .fromEnvironment fun env =>
    if (env.valueOf "isValidToken").isTrue && (env.valueOf "isAuthed").isTrue then
      .ok (.composite [])
    else do
      let error ← Errors.algebra.call "authorization" [.string identity, .string resource]
      return .request error

/-- Answers by the status of the write. -/
def answerWrite : Step σ :=
  .fromEnvironment fun env =>
    match (env.valueOf "writeStatus").member? "error" with
    | some .null | none => .ok (.returning success)
    | some reason => do return .request (← Errors.algebra.call "internalServer" [reason])

/-- The program of a request; it returns the response. -/
def ChangeEmail.program (c : ChangeEmail) : Except Fault (Operation σ) := do
  let token := c.token.toValue
  let isValid ← Authorization.algebra.call "isValidToken" [token]
  let isAuthed ← Authorization.algebra.call "isAuthed" [.string c.userId, token]
  let write ← UserRecords.algebra.call "updateField"
    [.string c.userId, .string "emailAddress", .string c.emailAddress]
  return .composite [
    .bind "isValidToken" (.request isValid),
    .bind "isAuthed" (.request isAuthed),
    guardAccess c.token.userId c.userId,
    .bind "writeStatus" (.request write),
    answerWrite]

/-- Sends what is bound to `result`. -/
def sendResult : Step σ :=
  .fromEnvironment fun env => do
    return .request (← Responses.algebra.call "respond" [env.valueOf "result"])

/-- The program of a request, and then its response. -/
def ChangeEmail.respond (c : ChangeEmail) : Except Fault (Program σ) := do
  let program ← c.program
  return [.bind "result" (.op program), .bind "response" sendResult]

/-- The interpreters of the application. -/
def registry (database : Slot σ Database) (responder : Slot σ Stub) :
    Except Fault (Registry σ) :=
  Registry.ofList [
    Authorization.interpreter,
    Errors.interpreter,
    UserRecords.interpreter,
    Database.interpreter database,
    Responses.interpreter responder]

/-- The response among the results of a request. -/
def responseOf : Outcome → Value
  | .environment env => env.valueOf "response"
  | .returned v => v

/-- Serves a request: the response that was sent. None if the fuel does not suffice. -/
def serve (x : Executor σ) (fuel : Nat) (c : ChangeEmail) (world : σ) :
    Option (Except Fault Value × σ) :=
  match c.respond with
  | .error f => some (.error f, world)
  | .ok program =>
    (x.execute fuel program world).map fun (result, world) => (result.map responseOf, world)

/-- A world with nothing but the services of the application. -/
structure World where
  database : Database := {}
  responder : Stub := { name := "response.send" }

namespace World

/-- Where the database is. -/
def databaseSlot : Slot World Database where
  get := World.database
  set db world := { world with database := db }

/-- Where the responder is. -/
def responderSlot : Slot World Stub where
  get := World.responder
  set stub world := { world with responder := stub }

end World

end EffectPrograms.Accounts

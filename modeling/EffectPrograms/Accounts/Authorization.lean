import EffectPrograms.Interpreter

/-!
# Authorization

Checks of a token. A token is an object with `isValid` and the `userId` that it was issued to.
-/

namespace EffectPrograms.Accounts.Authorization

/-- The checks. -/
def algebra : Algebra :=
  ⟨"authorization", [
    ("isValidToken", { params := ["token"], result := some "boolean" }),
    ("isAuthed", { params := ["userId", "token"], result := some "boolean" })]⟩

/-- Whether a token says that it is valid. -/
def isValid (token : Value) : Bool :=
  match token.member? "isValid" with
  | some v => v.isTrue
  | none => false

/-- Whether a token was issued to a user. -/
def isIssuedTo (token userId : Value) : Bool :=
  match token.member? "userId" with
  | some v => v.same userId
  | none => false

/-- Answers each check with a truth value. -/
def interpreter {σ : Type} : Interpreter σ :=
  .ofHandlers "authorization" [
    ("isValidToken", fun r => do
      let token ← r.require "token"
      return .value (.bool (isValid token))),
    ("isAuthed", fun r => do
      let userId ← r.require "userId"
      let token ← r.require "token"
      return .value (.bool (isIssuedTo token userId)))]

end EffectPrograms.Accounts.Authorization

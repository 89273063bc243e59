import EffectPrograms.Interpreter
import EffectPrograms.Services.Stub

/-!
# HTTP requests

One operation for each verb, each performed by a service of its own.
-/

namespace EffectPrograms.Files.Http

/-- The verbs. -/
def algebra : Algebra :=
  ⟨"http", [
    ("get", { params := ["path"] }),
    ("put", { params := ["path", "bytes"] }),
    ("post", { params := ["path", "bytes"] }),
    ("delete", { params := ["path"] })]⟩

variable {σ : Type}

/-- The services that perform the verbs. -/
structure Services (σ : Type) where
  get : Slot σ Stub
  put : Slot σ Stub
  post : Slot σ Stub
  delete : Slot σ Stub

/-- Calls a service with the path. -/
def withoutBody (service : Slot σ Stub) : Handler σ := fun r => do
  let path ← r.require "path"
  return .operation (Stub.call service [path])

/-- Calls a service with the path and the body. -/
def withBody (service : Slot σ Stub) : Handler σ := fun r => do
  let path ← r.require "path"
  let bytes ← r.require "bytes"
  return .operation (Stub.call service [path, bytes])

/-- Performs each verb through its service. -/
def interpreter (services : Services σ) : Interpreter σ :=
  .ofHandlers "http" [
    ("get", withoutBody services.get),
    ("put", withBody services.put),
    ("post", withBody services.post),
    ("delete", withoutBody services.delete)]

end EffectPrograms.Files.Http

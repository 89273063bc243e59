import EffectPrograms.Files.SaveFile
import EffectPrograms.Proofs.Runs
import EffectPrograms.Proofs.Steps

/-!
# Saving a file

A save is one request to the typed algebra of files. Its fan-out reads the request twice, once for
each branch, and comes to a composite of a message and a post, which the tables of the log and of
the services turn into io. What the post delivers is bound twice and leaves the composite in
between. `Saving` holds the executions on this way, and the steps from one to the next are lemmas
about the executor, for any world and any places of the services in it.

As in the other application the world afterwards is written down as what is put into these places
one after another. So a service is called just where it is named, and the post is made in the world
that the message has left.
-/

namespace EffectPrograms.Files

variable {σ : Type}

/-- The interpreters for files, which all serve different algebras. -/
def interpreters (logger : Slot σ Stub) (http : Http.Services σ) : Registry σ :=
  ⟨[.fanOut "cloudFiles" "last" [toLog, toHttp], Http.interpreter http, Log.interpreter logger]⟩

/-- The branches of the fan-out serve its algebra, and no interpreter is refused. -/
theorem registry_eq (logger : Slot σ Stub) (http : Http.Services σ) :
    registry logger http = .ok (interpreters logger http) := rfl

/-- The executor for files. -/
def executor (logger : Slot σ Stub) (http : Http.Services σ) (settings : Settings) : Executor σ :=
  { registry := interpreters logger http, settings }

/-- The world after a service was called. -/
def afterCall (service : Slot σ Stub) (args : List Value) (world : σ) : σ :=
  let stub := service.get world
  service.set { stub with calls := stub.calls ++ [args] } world

/-! ## The calls of a save -/

/-- A save that is asked for. -/
structure Saving where
  path : FilePath
  contents : String

namespace Saving

variable (s : Saving)

/-- What the logger is called with. -/
def message : List Value :=
  [.string "log", .string ("Saving a file to " ++ (s.path.parentDir ++ "/" ++ s.path.name))]

/-- What the post is made with. -/
def body : List Value :=
  [.string ("cloudFiles.fooService.com/" ++ s.path.name), .string s.contents]

variable (logger : Slot σ Stub) (http : Http.Services σ)

/-- The world after the message was logged. -/
def afterLog (world : σ) : σ := afterCall logger s.message world

/-- The world after the post was made. -/
def afterPost (world : σ) : σ := afterCall http.post s.body (s.afterLog logger world)

/-- What the post delivers. -/
def posted (world : σ) : Value := (http.post.get (s.afterLog logger world)).result

/-! ## The executions on the way -/

/-- The request to save. -/
def request : Request :=
  ⟨"cloudFiles", "saveFile", [("path", s.path.toValue), ("bytes", .string s.contents)]⟩

/-- The program that binds what the save comes to. -/
def program : Program σ := [.bind "saved" (.request s.request)]

/-- The steps that the fan-out answers with: one for each branch, and the last to return the value
of the second. -/
def steps : List (Step σ) :=
  [.request ⟨"log", "log", [("message", .string ("Saving a file to " ++ s.path.text))]⟩,
    .bind "last" (.request ⟨"http", "post",
      [("path", .string (serviceUrl s.path)), ("bytes", .string s.contents)]⟩),
    FanOut.returnBound "last"]

/-- What is left of the composite of the fan-out, inside the program. -/
def inComposite (steps : List (Step σ)) (env : Environment) : Stack σ :=
  ⟨{ steps, env, binding := some "saved" }, [{ steps := [] }]⟩

/-- The program is at its end and the save is bound. -/
def atEnd (v : Value) : Stack σ := ⟨{ steps := [], env := ⟨[("saved", v)]⟩ }, []⟩

/-- Building the program asks for nothing. -/
theorem saveFile_eq : saveFile s.path s.contents = .ok (.request s.request : Operation σ) := rfl

variable {s logger http} {settings : Settings} {world : σ}

/-- The request is answered by the composite of the fan-out, whatever the limit. -/
theorem step_start (fuel : Nat) :
    (executor logger http settings).step (fuel + 1) (.start s.program) world =
      some (.ofResult (Stack.commit settings.maxDepth ⟨{ steps := s.program }, []⟩
        ⟨some "saved", .enter s.steps, []⟩) world) := rfl

/-- Within the limit it is opened. -/
theorem step_opens (hlimit : ∀ limit ∈ settings.maxDepth, 2 ≤ limit) (fuel : Nat) :
    (executor logger http settings).step (fuel + 1) (.start s.program) world =
      some ⟨.ok .progress, .running (inComposite s.steps .empty), world⟩ := by
  rw [step_start, Stack.commit_enter rfl (by simp) hlimit]
  rfl

/-- Below the limit it is not. -/
theorem step_tooDeep {limit : Nat} (hlimit : settings.maxDepth = some limit) (hlow : limit < 2)
    (fuel : Nat) :
    (executor logger http settings).step (fuel + 1) (.start s.program) world =
      some (.fail (.tooDeep limit) world) := by
  have hdepth : limit ≤ Stack.depth (⟨{ steps := s.program }, []⟩ : Stack σ) :=
    Nat.le_of_lt_succ hlow
  rw [step_start, hlimit, Stack.commit_enter_tooDeep rfl (by simp) hdepth]
  rfl

/-- The first step of the composite waits for the logger. -/
theorem step_logs (fuel : Nat) :
    (executor logger http settings).step (fuel + 1) (.running (inComposite s.steps .empty)) world =
      some ⟨.ok (.io (.ofAction (logger.run fun stub => stub.record s.message))),
        .awaitingIo none (inComposite (s.steps.drop 1) .empty), world⟩ := rfl

/-- The second one waits for the post. -/
theorem step_posts (fuel : Nat) :
    (executor logger http settings).step (fuel + 1)
        (.running (inComposite (s.steps.drop 1) .empty)) world =
      some ⟨.ok (.io (.ofAction (http.post.run fun stub => stub.record s.body))),
        .awaitingIo (some "last") (inComposite (s.steps.drop 2) .empty), world⟩ := rfl

/-- The last one leaves the composite with what the post delivered. -/
theorem step_returns (v : Value) (fuel : Nat) :
    (executor logger http settings).step (fuel + 1)
        (.running (inComposite (s.steps.drop 2) ⟨[("last", v)]⟩)) world =
      some ⟨.ok .progress, .running (atEnd v), world⟩ := rfl

/-- The program ends with the save among its bindings. -/
theorem step_finishes (v : Value) (fuel : Nat) :
    (executor logger http settings).step (fuel + 1) (.running (atEnd v)) world =
      some ⟨.ok (.finished (.environment ⟨[("saved", v)]⟩)), .done, world⟩ := rfl

/-! ## Whole saves -/

/-- Within the limit a save comes to what the post delivers. -/
theorem ends_saved (hlimit : ∀ limit ∈ settings.maxDepth, 2 ≤ limit) :
    (executor logger http settings).Ends (.start s.program) world
      ⟨.ok (.environment ⟨[("saved", s.posted logger http world)]⟩), .done,
        s.afterPost logger http world⟩ := by
  -- What the logger delivers is dropped, and what the post delivers is bound.
  have hlogs : (Io.ofAction (logger.run fun stub => stub.record s.message)).perform world =
      (.ok (logger.get world).result, s.afterLog logger world) := rfl
  have hposts : (Io.ofAction (http.post.run fun stub => stub.record s.body)).perform
      (s.afterLog logger world) =
        (.ok (s.posted logger http world), s.afterPost logger http world) := rfl
  have hbinds (v : Value) :
      (Execution.awaitingIo (some "last") (inComposite (s.steps.drop 2) .empty) :
        Execution σ).resume v =
          (.ok (), .running (inComposite (s.steps.drop 2) ⟨[("last", v)]⟩)) := rfl
  refine .progress (step_opens hlimit 0) ?_
  refine .io (step_logs 0) hlogs rfl ?_
  refine .io (step_posts 0) hposts (hbinds _) ?_
  exact .progress (step_returns _ 0) (.finished (step_finishes _ 0))

/-- Below the limit it fails before anything is called. -/
theorem ends_tooDeep {limit : Nat} (hlimit : settings.maxDepth = some limit) (hlow : limit < 2) :
    (executor logger http settings).Ends (.start s.program) world
      ⟨.error (.tooDeep limit), .failed, world⟩ :=
  .fault (step_tooDeep hlimit hlow 0)

/-- Where the run of the program ends is where the save ends. -/
theorem runSaveFile_of_ends {t : Transition σ Outcome}
    (h : (executor logger http settings).Ends (.start s.program) world t) :
    ∃ n, ∀ fuel ≥ n, runSaveFile (executor logger http settings) fuel s.path s.contents world =
      some (t.result.map savedOf, t.world) := by
  obtain ⟨n, hn⟩ := Executor.Ends.execute h
  refine ⟨n, fun fuel hfuel => ?_⟩
  simp only [runSaveFile, s.saveFile_eq]
  exact congrArg _ (hn fuel hfuel)

/-- What a save comes to, for every place and contents, all services and any limit. If two
composites may be open it comes to exactly what the post delivers. The logger is called with the
message, after that the post is made with the address and the contents, and nothing else is put
anywhere. With a lower limit the save fails for the limit, and nothing is put anywhere at all. In a
world of the logger and the services for the verbs, the value is the one that the post is set to,
the logger and the post have one call more, and all else is as it was, the services for the other
verbs included. -/
theorem save_exact (s : Saving) (settings : Settings) :
    (∀ {σ : Type} (logger : Slot σ Stub) (http : Http.Services σ) (world : σ),
      ∃ registry, Files.registry logger http = .ok registry ∧
        ((∀ limit ∈ settings.maxDepth, 2 ≤ limit) → ∃ n, ∀ fuel ≥ n,
          runSaveFile { registry, settings } fuel s.path s.contents world =
            some (.ok (s.posted logger http world), s.afterPost logger http world)) ∧
        (∀ limit, settings.maxDepth = some limit → limit < 2 → ∃ n, ∀ fuel ≥ n,
          runSaveFile { registry, settings } fuel s.path s.contents world =
            some (.error (.tooDeep limit), world))) ∧
    (∀ world : World,
      s.posted World.loggerSlot World.services world = world.post.result ∧
      s.afterPost World.loggerSlot World.services world = { world with
        logger := { world.logger with calls := world.logger.calls ++ [[.string "log",
          .string ("Saving a file to " ++ (s.path.parentDir ++ "/" ++ s.path.name))]] }
        post := { world.post with calls := world.post.calls ++
          [[.string ("cloudFiles.fooService.com/" ++ s.path.name), .string s.contents]] } }) := by
  refine ⟨fun logger http world => ⟨_, registry_eq logger http, fun hlimit => ?_,
    fun limit hlimit hlow => ?_⟩, fun world => ⟨rfl, rfl⟩⟩
  · exact runSaveFile_of_ends (ends_saved hlimit)
  · exact runSaveFile_of_ends (ends_tooDeep hlimit hlow)

/-- In a world that is a journal of all calls, the message comes before the post. -/
example :
    let service (name : String) : Slot (List (String × List Value)) Stub :=
      { get := fun _ => { name }, set := fun stub calls => calls ++ stub.calls.map (name, ·) }
    let http := ⟨service "get", service "put", service "post", service "delete"⟩
    runSaveFile { registry := interpreters (service "logger") http } 9 ⟨"drafts", "letter"⟩ "text"
        [] =
      some (.ok .null, [
        ("logger", [.string "log", .string "Saving a file to drafts/letter"]),
        ("post", [.string "cloudFiles.fooService.com/letter", .string "text"])]) := rfl

end Saving

end EffectPrograms.Files

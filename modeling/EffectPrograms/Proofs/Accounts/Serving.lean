import EffectPrograms.Proofs.Accounts.Stages
import EffectPrograms.Proofs.Rows
import EffectPrograms.Proofs.Runs

/-!
# Serving a request

A request is served by one path through the stages: over `granted`, the write and its status if the
request is permitted, and straight to the refusal if it is not. What happens to the world is written
down as what is put into the places of the services, one after another, for places of which nothing
else is known. So nothing is put into a place that is not named, and what is named is put there once
and in this order: a place may as well count.
-/

namespace EffectPrograms.Accounts

variable {σ : Type}

/-- The number of composites that have to be open at once to serve a request. -/
def ChangeEmail.depth (c : ChangeEmail) : Nat := if c.Permitted then 3 else 2

/-- The response to a request, on a database as it is. -/
def ChangeEmail.response (c : ChangeEmail) (db : Database) : Value :=
  if c.Permitted then
    match db.failure with
    | none => .object [("status", .ofNat 200)]
    | some reason => .object [("status", .ofNat 500), ("body", .string reason)]
  else c.refusal

/-- The world after the responder was called with a response. -/
def afterResponse (responder : Slot σ Stub) (response : Value) (world : σ) : σ :=
  let stub := responder.get world
  responder.set { stub with calls := stub.calls ++ [[response]] } world

/-- The write of an address does not change whether the database refuses writes. -/
theorem ChangeEmail.failure_writeTo (c : ChangeEmail) (db : Database) :
    (c.writeTo db).2.failure = db.failure := by
  rw [writeTo]
  cases h : db.failure with
  | none => rw [Database.upsert_object h]; exact h
  | some reason => rw [Database.upsert_of_failure h]; exact h

/-- The write of an address changes one field of one row. -/
theorem ChangeEmail.row?_writeTo (c : ChangeEmail) {db : Database} (h : db.failure = none)
    (table id : String) :
    (c.writeTo db).2.row? table id = if table = "users" ∧ id = c.userId
      then some (Entries.put "emailAddress" (.string c.emailAddress)
        ((db.row? "users" c.userId).getD []))
      else db.row? table id := by
  rw [writeTo, Database.row?_upsert h]
  simp only [Prod.mk.injEq]
  rfl

/-! ## The path through the stages -/

namespace Stage

variable {c : ChangeEmail} {database : Slot σ Database} {responder : Slot σ Stub}
  {settings : Settings} {stage next : Stage} {world : σ} {t : Transition σ Outcome}

/-- From a stage whose step makes progress a run ends as it does from the next. -/
theorem ends_of_progress (h : stage.next? c database responder = some (.progress, next))
    (hdepth : ∀ limit ∈ settings.maxDepth, (next.execution c : Execution σ).depth ≤ limit)
    (hends : (executor database responder settings).Ends (next.execution c) world t) :
    (executor database responder settings).Ends (stage.execution c) world t :=
  .progress (step_eq h hdepth 0 world) hends

/-- From a stage that asks for an io a run ends as it does from the stage with its value. -/
theorem ends_of_io {waiting : Stage} {action : σ → Value × σ}
    (h : stage.next? c database responder = some (.io (.ofAction action), waiting))
    (hdepth : ∀ limit ∈ settings.maxDepth, (waiting.execution c : Execution σ).depth ≤ limit)
    (hresume : waiting.resume? (action world).1 = some next)
    (hends : (executor database responder settings).Ends (next.execution c) (action world).2 t) :
    (executor database responder settings).Ends (stage.execution c) world t :=
  .io (step_eq h hdepth 0 world) rfl (resume_eq hresume) hends

/-- How a run ends that has sent a response. -/
def ending (responder : Slot σ Stub) (response : Value) (world : σ) : Transition σ Outcome :=
  ⟨.ok (.environment ⟨[("result", response), ("response", response)]⟩), .done,
    afterResponse responder response world⟩

variable (hlimit : ∀ limit ∈ settings.maxDepth, 2 ≤ limit)

include hlimit

/-- A response that is known is sent. -/
theorem ends_returned (response : Value) :
    (executor database responder settings).Ends ((returned response).execution c) world
      (ending responder response world) := by
  have hdepth : ∀ limit ∈ settings.maxDepth, 1 ≤ limit :=
    fun limit h => Nat.le_of_succ_le (hlimit limit h)
  have hended : ∀ limit ∈ settings.maxDepth, 0 ≤ limit := fun limit _ => Nat.zero_le limit
  have hlast : (executor database responder settings).step 2
      ((sent response response).execution c) (afterResponse responder response world) = some _ :=
    step_eq rfl hended 0 _
  exact ends_of_io rfl hdepth rfl (.finished hlast)

/-- A response that replaces the rest of its composite is sent. -/
theorem ends_returning (env : Environment) (response : Value) :
    (executor database responder settings).Ends ((returning env response).execution c) world
      (ending responder response world) :=
  ends_of_progress rfl (fun limit h => Nat.le_of_succ_le (hlimit limit h))
    (ends_returned hlimit response)

/-- After a write without an error success is sent. -/
theorem ends_written {status : Value} (hstatus : status.member? "error" = none) :
    (executor database responder settings).Ends ((written status).execution c) world
      (ending responder success world) :=
  ends_of_progress (next?_written hstatus) (fun limit h => Nat.le_of_succ_le (hlimit limit h))
    (ends_returned hlimit success)

/-- After a write with an error the error is sent. -/
theorem ends_written_error {status : Value} {reason : String}
    (hstatus : status.member? "error" = some (.string reason)) :
    (executor database responder settings).Ends ((written status).execution c) world
      (ending responder (Errors.response 500 (.string reason)) world) := by
  have hnext : (written status).next? c database responder = some (.progress,
      returning (c.afterWrite status) (Errors.response 500 (.string reason))) := by
    simp only [next?, hstatus]
  exact ends_of_progress hnext hlimit (ends_returning hlimit _ _)

/-- Past the guard the row is written, and the response tells how that went. -/
theorem ends_cleared (hpermitted : c.Permitted) :
    (executor database responder settings).Ends (cleared.execution c) world
      (ending responder (c.response (database.get world))
        (database.set (c.writeTo (database.get world)).2 world)) := by
  have hresponse : c.response (database.get world) = match (database.get world).failure with
      | none => .object [("status", .ofNat 200)]
      | some reason => .object [("status", .ofNat 500), ("body", .string reason)] :=
    if_pos hpermitted
  refine ends_of_io rfl hlimit rfl ?_
  rw [hresponse]
  cases hfailure : (database.get world).failure with
  | none =>
    refine ends_written hlimit ?_
    show (c.writeTo (database.get world)).1.member? "error" = none
    rw [ChangeEmail.writeTo, Database.upsert_object hfailure]
    rfl
  | some reason =>
    refine ends_written_error hlimit ?_
    show (c.writeTo (database.get world)).1.member? "error" = some (.string reason)
    rw [ChangeEmail.writeTo, Database.upsert_of_failure hfailure]
    rfl

/-- Once the composite for the response is open, the guard decides what is put where. -/
theorem ends_opened (hdepth : ∀ limit ∈ settings.maxDepth, c.depth ≤ limit) :
    (executor database responder settings).Ends (opened.execution c) world
      (ending responder (c.response (database.get world))
        (if c.Permitted then database.set (c.writeTo (database.get world)).2 world
          else world)) := by
  refine ends_of_progress rfl hlimit (ends_of_progress rfl hlimit ?_)
  by_cases hpermitted : c.Permitted
  · have hgranted : ∀ limit ∈ settings.maxDepth, 3 ≤ limit := by
      simpa only [ChangeEmail.depth, if_pos hpermitted] using hdepth
    rw [if_pos hpermitted]
    exact ends_of_progress (next?_userChecked_of_permitted hpermitted) hgranted
      (ends_of_progress rfl hlimit (ends_cleared hlimit hpermitted))
  · have hresponse : c.response (database.get world) = c.refusal := if_neg hpermitted
    rw [if_neg hpermitted, hresponse]
    exact ends_of_progress (next?_userChecked_of_refused hpermitted) hlimit
      (ends_returning hlimit _ _)

end Stage

/-! ## Whole requests -/

variable (database : Slot σ Database) (responder : Slot σ Stub) (settings : Settings)
  (c : ChangeEmail) (world : σ)

/-- Within the limit a request comes to its response. -/
theorem ends_served (hdepth : ∀ limit ∈ settings.maxDepth, c.depth ≤ limit) :
    (executor database responder settings).Ends (Stage.arrived.execution c) world
      (Stage.ending responder (c.response (database.get world))
        (if c.Permitted then database.set (c.writeTo (database.get world)).2 world
          else world)) := by
  have hlimit : ∀ limit ∈ settings.maxDepth, 2 ≤ limit := by
    intro limit h
    refine Nat.le_trans ?_ (hdepth limit h)
    unfold ChangeEmail.depth
    split
    · exact Nat.le_succ 2
    · exact Nat.le_refl 2
  exact Stage.ends_of_progress rfl hlimit (Stage.ends_opened hlimit hdepth)

/-- Below the depth of a request the composite that would be one too many is not opened. -/
theorem ends_tooDeep {limit : Nat} (hlimit : settings.maxDepth = some limit)
    (hdepth : limit < c.depth) :
    (executor database responder settings).Ends (Stage.arrived.execution c) world
      ⟨.error (.tooDeep limit), .failed, world⟩ := by
  by_cases hfirst : limit ≤ 1
  · have hopens : Stage.arrived.Opens c := trivial
    exact .fault (Stage.step_tooDeep hopens hlimit hfirst 0 world)
  -- The first composite can be opened, so that the guard wants the second one.
  have hpermitted : c.Permitted := by
    by_contra hrefused
    rw [ChangeEmail.depth, if_neg hrefused] at hdepth
    omega
  rw [ChangeEmail.depth, if_pos hpermitted] at hdepth
  have hopen : ∀ depth ∈ settings.maxDepth, 2 ≤ depth := by
    rw [hlimit]
    rintro depth ⟨⟩
    omega
  have hopens : Stage.userChecked.Opens c := hpermitted
  have hguard : limit ≤ (Stage.userChecked.execution c : Execution σ).depth :=
    Nat.le_of_lt_succ hdepth
  refine Stage.ends_of_progress rfl hopen (Stage.ends_of_progress rfl hopen
    (Stage.ends_of_progress rfl hopen ?_))
  exact .fault (Stage.step_tooDeep hopens hlimit hguard 0 world)

/-- Where the run of the program ends is where serving the request ends. -/
theorem serve_of_ends {t : Transition σ Outcome}
    (h : (executor database responder settings).Ends (Stage.arrived.execution c) world t) :
    ∃ n, ∀ fuel ≥ n, serve (executor database responder settings) fuel c world =
      some (t.result.map responseOf, t.world) := by
  obtain ⟨n, hn⟩ := Executor.Ends.execute h
  refine ⟨n, fun fuel hfuel => ?_⟩
  simp only [serve, c.respond_eq]
  rw [hn fuel hfuel]
  rfl

/-- What serving a request comes to, for every request, all services and any limit. If as many
composites may be open as the request needs, then the response is sent, and it is what is answered:
success if the request is permitted, the reason of the database if that refuses to write, and the
refusal if the request is not permitted. Before it is sent the row of a permitted request is
written, and nothing else is put anywhere. The write leaves a database that refuses as it is, and
changes the address of the user, no other field and no other row. With a lower limit the request
fails for the limit, and nothing is put anywhere. -/
theorem serve_exact :
    ∃ registry, Accounts.registry database responder = .ok registry ∧
      ((∀ limit ∈ settings.maxDepth, c.depth ≤ limit) → ∃ n, ∀ fuel ≥ n,
        serve { registry, settings } fuel c world =
          some (.ok (c.response (database.get world)),
            afterResponse responder (c.response (database.get world))
              (if c.Permitted then database.set (c.writeTo (database.get world)).2 world
                else world))) ∧
      (∀ limit, settings.maxDepth = some limit → limit < c.depth → ∃ n, ∀ fuel ≥ n,
        serve { registry, settings } fuel c world = some (.error (.tooDeep limit), world)) ∧
      (∀ reason, (database.get world).failure = some reason →
        (c.writeTo (database.get world)).2 = database.get world) ∧
      ((database.get world).failure = none →
        (c.writeTo (database.get world)).2.failure = none ∧
        ∀ table id, (c.writeTo (database.get world)).2.row? table id =
          if table = "users" ∧ id = c.userId
          then some (Entries.put "emailAddress" (.string c.emailAddress)
            (((database.get world).row? "users" c.userId).getD []))
          else (database.get world).row? table id) := by
  refine ⟨_, registry_eq database responder, fun hdepth => ?_, fun limit hlimit hdepth => ?_,
    fun reason hreason => ?_, fun hhealthy => ⟨?_, ?_⟩⟩
  · exact serve_of_ends database responder settings c world
      (ends_served database responder settings c world hdepth)
  · exact serve_of_ends database responder settings c world
      (ends_tooDeep database responder settings c world hlimit hdepth)
  · rw [ChangeEmail.writeTo, Database.upsert_of_failure hreason]
  · rw [ChangeEmail.failure_writeTo, hhealthy]
  · exact c.row?_writeTo hhealthy

end EffectPrograms.Accounts

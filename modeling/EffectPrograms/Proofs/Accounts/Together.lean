import EffectPrograms.Proofs.Accounts.Serving
import EffectPrograms.Proofs.Interleaving

/-!
# Requests side by side

Any number of requests may share one database and one responder, and their turns may come in any
order. A `Phase` is where one of them stands between two turns. On a database that refuses no write
it depends on the request alone where it stands next (`Phase.next`) and what its turn does to the
services (`Phase.effect`): `act_eq` proves it of the executor, whatever the others have made of the
world meanwhile. In only two phases a turn does anything to the services, and then it is the write
of the request or the call with its answer.

`Standing` is what holds between any two turns: every party is in a phase of its own request, the
writes performed so far, in their order, have made the database what it is, and the responses sent
so far are the calls of the responder. How often a request has written and sent is told by its
phase, so that no write or response is lost or made twice. As every turn leads to a phase of a
higher rank, no request has more than 13 turns.
-/

namespace EffectPrograms.Accounts

open World (databaseSlot responderSlot)

/-- What a request is answered if the database refuses no write. -/
def ChangeEmail.answer (c : ChangeEmail) : Value := if c.Permitted then success else c.refusal

/-- Where a request stands between two turns. -/
inductive Phase where
  | arrived
  | opened
  | tokenChecked
  | userChecked
  /-- Access is granted. -/
  | granted
  | cleared
  /-- Has asked for the write. -/
  | writing
  /-- The write was performed. -/
  | wrote
  | written
  /-- Access is refused. -/
  | refused
  /-- The answer is known. -/
  | returned
  /-- Has asked to send the answer. -/
  | sending
  /-- The answer was sent. -/
  | told
  | sent
  | finished
deriving DecidableEq

namespace Phase

variable (c : ChangeEmail)

/-- The stage of the execution. -/
def stage : Phase → Stage
  | arrived => .arrived
  | opened => .opened
  | tokenChecked => .tokenChecked
  | userChecked => .userChecked
  | granted => .granted
  | cleared => .cleared
  | writing | wrote => .writing
  | written => .written (.object [])
  | refused => .returning c.checked c.refusal
  | returned => .returned c.answer
  | sending | told => .sending c.answer
  | sent => .sent c.answer c.answer
  | finished => .finished

/-- The bindings at the end. -/
def bindings : Environment := ⟨[("result", c.answer), ("response", c.answer)]⟩

/-- The party in a phase. -/
def party (phase : Phase) : Party World :=
  let execution := (phase.stage c).execution c
  match phase with
  | writing => .asking execution (.ofAction (databaseSlot.run c.writeTo))
      [.dispatch c.edit, .dispatch c.write]
  | wrote => .answered execution (.ok (.object []))
  | sending => .asking execution
      (.ofAction (responderSlot.run fun stub => (c.answer, (stub.record [c.answer]).2)))
      [.compute ⟨[("result", c.answer)]⟩, .dispatch (sendResponse c.answer)]
  | told => .answered execution (.ok c.answer)
  | finished => .ended (.ok (.environment (bindings c)))
  | _ => .ready execution

/-- The phase after a turn. -/
def next : Phase → Phase
  | arrived => opened
  | opened => tokenChecked
  | tokenChecked => userChecked
  | userChecked => if c.Permitted then granted else refused
  | granted => cleared
  | cleared => writing
  | writing => wrote
  | wrote => written
  | written | refused => returned
  | returned => sending
  | sending => told
  | told => sent
  | sent | finished => finished

/-- What a turn does to the services. -/
def effect (phase : Phase) (world : World) : World :=
  match phase with
  | writing => databaseSlot.set (c.writeTo world.database).2 world
  | sending => afterResponse responderSlot c.answer world
  | _ => world

/-- Whether a request can come to a phase. -/
def Fits : Phase → Prop
  | granted | cleared | writing | wrote | written => c.Permitted
  | refused => ¬ c.Permitted
  | _ => True

/-- A bound to the number of turns so far. -/
def rank : Phase → Nat
  | arrived => 0
  | opened => 1
  | tokenChecked => 2
  | userChecked => 3
  | granted => 4
  | cleared => 5
  | writing => 6
  | wrote => 7
  | written | refused => 8
  | returned => 9
  | sending => 10
  | told => 11
  | sent => 12
  | finished => 13

/-- The number of writes so far. -/
def writes : Phase → Nat
  | wrote | written => 1
  | returned | sending | told | sent | finished => if c.Permitted then 1 else 0
  | _ => 0

/-- The number of responses so far. -/
def sends : Phase → Nat
  | told | sent | finished => 1
  | _ => 0

variable {c} {phase : Phase} {settings : Settings} {world : World} {fuel : Nat}

/-! ## Turns -/

theorem fits_next (h : phase.Fits c) : (phase.next c).Fits c := by
  cases phase with
  | userChecked =>
    by_cases hpermitted : c.Permitted
    · rw [next, if_pos hpermitted]
      exact hpermitted
    · rw [next, if_neg hpermitted]
      exact hpermitted
  | granted | cleared | writing | wrote => exact h
  | _ => trivial

theorem rank_lt_rank_next (h : phase ≠ finished) : phase.rank < (phase.next c).rank := by
  cases phase with
  | userChecked => by_cases hpermitted : c.Permitted <;> simp [next, hpermitted, rank]
  | finished => exact absurd rfl h
  | _ => exact Nat.lt_succ_self _

/-- The io that writes is the one of the phase before the write. -/
theorem calls_database :
    (phase.party c).calls Database.algebra.name = decide (phase = writing) := by
  cases phase <;> rfl

/-- The io that sends is the one of the phase before the answer is sent. -/
theorem calls_responder :
    (phase.party c).calls Responses.algebra.name = decide (phase = sending) := by
  cases phase <;> rfl

theorem writes_next (h : phase.Fits c) :
    (phase.next c).writes c = phase.writes c + if phase = writing then 1 else 0 := by
  cases phase with
  | userChecked => by_cases hpermitted : c.Permitted <;> simp [next, hpermitted, writes]
  | written => simp [next, writes, show c.Permitted from h]
  | refused => simp [next, writes, show ¬ c.Permitted from h]
  | _ => simp [next, writes]

theorem sends_next :
    (phase.next c).sends = phase.sends + if phase = sending then 1 else 0 := by
  cases phase with
  | userChecked => by_cases hpermitted : c.Permitted <;> simp [next, hpermitted, sends]
  | _ => simp [next, sends]

theorem database_effect : (phase.effect c world).database =
    if phase = writing then (c.writeTo world.database).2 else world.database := by
  cases phase <;> rfl

theorem responder_effect : (phase.effect c world).responder =
    if phase = sending
    then { world.responder with calls := world.responder.calls ++ [[c.answer]] }
    else world.responder := by
  cases phase <;> rfl

/-- A request is written at most once. -/
theorem writes_le_one (phase : Phase) : phase.writes c ≤ 1 := by
  by_cases hpermitted : c.Permitted <;> cases phase <;> simp [writes, hpermitted]

/-- Only a permitted request is written. -/
theorem permitted_of_writes (hfits : phase.Fits c) (h : 0 < phase.writes c) : c.Permitted := by
  by_contra hrefused
  cases phase with
  | wrote | written => exact hrefused hfits
  | _ => simp [writes, hrefused] at h

/-- A request has one response at most. -/
theorem sends_le_one (phase : Phase) : phase.sends ≤ 1 := by
  cases phase <;> decide

theorem rank_le (phase : Phase) : phase.rank ≤ 13 := by
  cases phase <;> decide

/-- A request ends in the last phase only, and with its answer. -/
theorem ended_of_result {result : Except Fault Outcome}
    (h : (phase.party c).result? = some result) :
    phase = finished ∧ result.map responseOf = .ok c.answer := by
  cases phase with
  | finished =>
    obtain rfl := Option.some.inj h
    exact ⟨rfl, rfl⟩
  | _ => simp [party, Party.result?] at h

/-! ## What the executor makes of them -/

section Turns

variable {stage next : Stage} (hlimit : settings.maxDepth = none)

include hlimit

/-- Without a limit no depth is too much. -/
theorem depth_le (stage : Stage) :
    ∀ limit ∈ settings.maxDepth, (stage.execution c : Execution World).depth ≤ limit := by
  simp [hlimit]

/-- The turn at a stage from which a step leads to another. -/
theorem act_of_next {event : Event World} {after : Party World}
    (h : stage.next? c databaseSlot responderSlot = some (event, next))
    (hafter : .ofStep ((executor databaseSlot responderSlot settings).acts (fuel + 2) world
      (stage.execution c)) ⟨.ok event, next.execution c, world⟩ = after) :
    (executor databaseSlot responderSlot settings).act (fuel + 2)
      (.ready (stage.execution c)) world = some (after, world) := by
  simp only [Executor.act, Stage.step_eq h (depth_le hlimit next), Option.map_some, hafter]

/-- A turn leads from one phase to the next, whatever the others have made of the world, as long as
the database refuses no write. -/
theorem act_eq (hfits : phase.Fits c) (hrunning : phase ≠ finished)
    (hhealthy : world.database.failure = none) (fuel : Nat) :
    (executor databaseSlot responderSlot settings).act (fuel + 2) (phase.party c) world =
      some ((phase.next c).party c, phase.effect c world) := by
  -- Only the status of the write depends on what is in the world.
  cases phase with
  | arrived | opened | tokenChecked | granted | cleared | returned | sent =>
    exact act_of_next hlimit rfl rfl
  | userChecked =>
    by_cases hpermitted : c.Permitted
    · rw [Phase.next, if_pos hpermitted]
      exact act_of_next hlimit (Stage.next?_userChecked_of_permitted hpermitted) rfl
    · rw [Phase.next, if_neg hpermitted]
      exact act_of_next hlimit (Stage.next?_userChecked_of_refused hpermitted) rfl
  | writing =>
    have hstatus : (c.writeTo world.database).1 = .object [] := by
      rw [ChangeEmail.writeTo, Database.upsert_object hhealthy]
    show some (Party.answered _ (.ok (c.writeTo world.database).1), _) = _
    rw [hstatus]
    rfl
  | written =>
    have hanswer : c.answer = success := if_pos hfits
    have hnext : (Stage.written (.object [])).next? c databaseSlot responderSlot =
        some (.progress, .returned c.answer) := hanswer ▸ Stage.next?_written rfl
    exact act_of_next hlimit hnext rfl
  | refused =>
    have hanswer : c.answer = c.refusal := if_neg hfits
    have hnext : (Stage.returning c.checked c.refusal).next? c databaseSlot responderSlot =
        some (.progress, .returned c.answer) := by rw [hanswer]; rfl
    exact act_of_next hlimit hnext rfl
  | wrote | sending | told => rfl
  | finished => exact absurd rfl hrunning

end Turns

end Phase

/-! ## What the writes come to -/

variable {ι : Type} (requests : ι → ChangeEmail)

/-- The database after the writes of some requests. -/
def afterWrites (writers : List ι) (db : Database) : Database :=
  writers.foldl (fun db i => ((requests i).writeTo db).2) db

/-- The last of some requests that write a row. -/
def lastWriter? (writers : List ι) (table id : String) : Option ι :=
  (writers.filter fun i => table = "users" ∧ (requests i).userId = id).getLast?

/-- One more write comes after the others. -/
theorem afterWrites_append (writers : List ι) (i : ι) (db : Database) :
    afterWrites requests (writers ++ [i]) db =
      ((requests i).writeTo (afterWrites requests writers db)).2 := by
  simp [afterWrites]

/-- Writes do not change whether the database refuses writes. -/
theorem failure_afterWrites (writers : List ι) (db : Database) :
    (afterWrites requests writers db).failure = db.failure := by
  induction writers using List.reverseRecOn with
  | nil => rfl
  | append_singleton writers i ih => rw [afterWrites_append, ChangeEmail.failure_writeTo, ih]

/-- A row has the address of the request that was the last to write it, and else what it had. -/
theorem row?_afterWrites {db : Database} (h : db.failure = none) (writers : List ι)
    (table id : String) :
    (afterWrites requests writers db).row? table id =
      match lastWriter? requests writers table id with
      | some i => some (Entries.put "emailAddress" (.string (requests i).emailAddress)
        ((db.row? table id).getD []))
      | none => db.row? table id := by
  induction writers using List.reverseRecOn generalizing table id with
  | nil => rfl
  | append_singleton writers i ih =>
    have hhealthy : (afterWrites requests writers db).failure = none :=
      (failure_afterWrites requests writers db).trans h
    rw [afterWrites_append, ChangeEmail.row?_writeTo _ hhealthy]
    by_cases hrow : table = "users" ∧ id = (requests i).userId
    · obtain ⟨rfl, rfl⟩ := hrow
      have hlast : lastWriter? requests (writers ++ [i]) "users" (requests i).userId = some i := by
        simp [lastWriter?]
      rw [if_pos ⟨rfl, rfl⟩, hlast, ih]
      -- What the write before has put into the row is put once more.
      cases lastWriter? requests writers "users" (requests i).userId with
      | none => rfl
      | some j => simp only [Option.getD_some, Entries.put_put]
    · have hlast : lastWriter? requests (writers ++ [i]) table id =
          lastWriter? requests writers table id := by
        have hother : ¬ (table = "users" ∧ (requests i).userId = id) :=
          fun ⟨htable, hid⟩ => hrow ⟨htable, hid.symm⟩
        simp [lastWriter?, hother]
      rw [if_neg hrow, hlast, ih]

/-! ## Between the turns -/

variable [DecidableEq ι]

/-- What holds of one request after the turns of a schedule. -/
structure Stands (c : ChangeEmail) (schedule : List ι) (g : Gathering ι World) (i : ι)
    (phase : Phase) : Prop where
  party : g.party i = phase.party c
  fits : phase.Fits c
  turns : schedule.count i ≤ phase.rank
  writes : (g.callers Database.algebra.name).count i = phase.writes c
  sends : (g.callers Responses.algebra.name).count i = phase.sends

namespace Stands

variable {c : ChangeEmail} {schedule : List ι} {g : Gathering ι World} {i j : ι} {phase : Phase}

/-- Its own turn takes a request to the next phase. -/
theorem after_self (h : Stands c schedule g i phase) (hrunning : phase ≠ .finished)
    (world : World) :
    Stands c (schedule ++ [i]) (g.after i ((phase.next c).party c, world)) i (phase.next c) where
  party := Gathering.party_after_self _ _ _
  fits := Phase.fits_next h.fits
  turns := by
    rw [List.count_append, List.count_singleton_self]
    exact Nat.lt_of_le_of_lt h.turns (Phase.rank_lt_rank_next hrunning)
  writes := by
    rw [Gathering.count_callers_after_self, h.party, Phase.calls_database, h.writes,
      Phase.writes_next h.fits]
    simp only [decide_eq_true_eq]
  sends := by
    rw [Gathering.count_callers_after_self, h.party, Phase.calls_responder, h.sends,
      Phase.sends_next]
    simp only [decide_eq_true_eq]

/-- The turns of others leave a request where it stands. -/
theorem after_of_ne (h : Stands c schedule g j phase) (hj : j ≠ i) (t : Party World × World) :
    Stands c (schedule ++ [i]) (g.after i t) j phase where
  party := (Gathering.party_after_of_ne hj).trans h.party
  fits := h.fits
  turns := by
    rw [List.count_append, List.count_singleton, if_neg (by simpa using hj.symm)]
    exact h.turns
  writes := (Gathering.count_callers_after_of_ne hj _).trans h.writes
  sends := (Gathering.count_callers_after_of_ne hj _).trans h.sends

/-- A request that has ended is in the last phase and has its answer. -/
theorem ended (h : Stands c schedule g i phase) {result : Except Fault Outcome}
    (hresult : (g.party i).result? = some result) :
    phase = .finished ∧ result.map responseOf = .ok c.answer :=
  Phase.ended_of_result (h.party ▸ hresult)

/-- A request that has a result is in the last phase. -/
theorem finished (h : Stands c schedule g i phase) (hresult : (g.party i).result?.isSome) :
    phase = .finished := by
  obtain ⟨result, hresult⟩ := Option.isSome_iff_exists.1 hresult
  exact (h.ended hresult).1

/-- A request that has no result yet is in another. -/
theorem running (h : Stands c schedule g i phase) (hresult : (g.party i).result? = none) :
    phase ≠ .finished := by
  rintro rfl
  rw [h.party] at hresult
  simp [Phase.party, Party.result?] at hresult

end Stands

/-- What holds after the turns of a schedule, if the requests are in these phases. -/
structure Standing (world : World) (schedule : List ι) (g : Gathering ι World)
    (phase : ι → Phase) : Prop where
  each : ∀ i, Stands (requests i) schedule g i (phase i)
  database : g.world.database =
    afterWrites requests (g.callers Database.algebra.name) world.database
  responder : g.world.responder = { world.responder with
    calls := world.responder.calls ++
      (g.callers Responses.algebra.name).map fun i => [(requests i).answer] }

namespace Standing

variable {requests} {world : World} {schedule : List ι} {g next : Gathering ι World}
  {phase : ι → Phase} {settings : Settings} {fuel : Nat} {i : ι}

/-- At the start all requests are in the first phase. -/
theorem start {programs : ι → Program World} (h : ∀ i, (requests i).respond = .ok (programs i)) :
    Standing requests world [] (.start programs world) fun _ => .arrived where
  each i := by
    have hprogram := Except.ok.inj ((requests i).respond_eq.symm.trans (h i))
    refine ⟨?_, trivial, Nat.le_refl 0, rfl, rfl⟩
    show Party.ready (.start (programs i)) = _
    rw [← hprogram]
    rfl
  database := rfl
  responder := by simp [Gathering.start, Gathering.callers]

/-- The database still refuses no write. -/
theorem healthy (h : Standing requests world schedule g phase)
    (hhealthy : world.database.failure = none) : g.world.database.failure = none := by
  rw [h.database, failure_afterWrites]
  exact hhealthy

/-- It is kept when a request that is not finished takes the turn of its phase. -/
theorem after (h : Standing requests world schedule g phase) (hrunning : phase i ≠ .finished) :
    Standing requests world (schedule ++ [i])
      (g.after i (((phase i).next (requests i)).party (requests i),
        (phase i).effect (requests i) g.world))
      (Function.update phase i ((phase i).next (requests i))) where
  each := by
    refine (Function.forall_update_iff phase fun j p => Stands (requests j) _ _ j p).2 ⟨?_, ?_⟩
    · exact (h.each i).after_self hrunning _
    · exact fun j hj => (h.each j).after_of_ne hj _
  database := by
    rw [Gathering.world_after, Phase.database_effect, Gathering.callers_after, (h.each i).party,
      Phase.calls_database, h.database]
    by_cases hwriting : phase i = .writing
    · simp only [hwriting, if_true, decide_true, afterWrites_append]
    · simp only [hwriting, if_false, decide_false, Bool.false_eq_true, List.append_nil]
  responder := by
    rw [Gathering.world_after, Phase.responder_effect, Gathering.callers_after, (h.each i).party,
      Phase.calls_responder, h.responder]
    by_cases hsending : phase i = .sending
    · simp only [hsending, if_true, decide_true, List.append_assoc, List.map_append]
      rfl
    · simp only [hsending, if_false, decide_false, Bool.false_eq_true, List.append_nil]

/-- A turn is that of a phase, and so keeps it. -/
theorem act (hlimit : settings.maxDepth = none) (hhealthy : world.database.failure = none)
    (h : Standing requests world schedule g phase)
    (hturn : g.act (executor databaseSlot responderSlot settings) fuel i = some next) :
    Standing requests world (schedule ++ [i]) next
      (Function.update phase i ((phase i).next (requests i))) := by
  obtain ⟨t, hmade, rfl⟩ := Option.map_eq_some_iff.1 hturn
  have hrunning := (h.each i).running (Executor.result?_of_act hmade)
  have hmore := Executor.act_mono (Nat.le_add_right fuel 2) hmade
  rw [(h.each i).party,
    Phase.act_eq hlimit (h.each i).fits hrunning (h.healthy hhealthy)] at hmore
  obtain rfl := Option.some.inj hmore
  exact h.after hrunning

/-- A request that has not ended can take its turn. -/
theorem act_isSome (hlimit : settings.maxDepth = none) (hhealthy : world.database.failure = none)
    (h : Standing requests world schedule g phase) (hresult : (g.party i).result? = none)
    (hfuel : 2 ≤ fuel) :
    (g.act (executor databaseSlot responderSlot settings) fuel i).isSome := by
  obtain ⟨fuel, rfl⟩ : ∃ n, fuel = n + 2 := ⟨fuel - 2, by omega⟩
  rw [Gathering.act, (h.each i).party,
    Phase.act_eq hlimit (h.each i).fits ((h.each i).running hresult) (h.healthy hhealthy)]
  rfl

/-- It holds after every schedule. -/
theorem of_play (hlimit : settings.maxDepth = none) (hhealthy : world.database.failure = none)
    {programs : ι → Program World} (hprograms : ∀ i, (requests i).respond = .ok (programs i))
    (h : (Gathering.start programs world).play (executor databaseSlot responderSlot settings) fuel
      schedule = some g) : ∃ phase, Standing requests world schedule g phase := by
  refine Gathering.play_induction
    (motive := fun schedule g => ∃ phase, Standing requests world schedule g phase)
    ⟨fun _ => .arrived, start hprograms⟩ ?_ h
  rintro schedule g i next ⟨phase, hstanding⟩ hturn
  exact ⟨_, hstanding.act hlimit hhealthy hturn⟩

end Standing

/-- Requests that run side by side do not interfere, in whatever order they take their turns. No
request waits for another, and none has more than 13 turns, so that all come to an end. Each ends
with its own answer: success if it is permitted, and the refusal if it is not. The calls of the
responder are the answers of those whose response was sent, in this order, each of them once. Only
permitted requests write, each of them once, and every row has the address of the last one that has
written it, and beside that what it had. When all have ended, all responses have been sent and all
permitted requests have been written. -/
theorem respond_together (settings : Settings) (hlimit : settings.maxDepth = none) (world : World)
    (hhealthy : world.database.failure = none) :
    ∃ registry programs, Accounts.registry databaseSlot responderSlot = .ok registry ∧
      (∀ i, (requests i).respond = .ok (programs i)) ∧
      ∀ fuel schedule g,
        (Gathering.start programs world).play { registry, settings } fuel schedule = some g →
        let writers := g.callers Database.algebra.name
        let senders := g.callers Responses.algebra.name
        (∀ i, schedule.count i ≤ 13) ∧
        (∀ i, (g.party i).result? = none →
          ∀ more ≥ 2, (g.act { registry, settings } more i).isSome) ∧
        (∀ i result, (g.party i).result? = some result →
          result.map responseOf = .ok (requests i).answer) ∧
        (senders.Nodup ∧ g.world.responder = { world.responder with
          calls := world.responder.calls ++ senders.map fun i => [(requests i).answer] }) ∧
        (writers.Nodup ∧ (∀ i ∈ writers, (requests i).Permitted) ∧
          g.world.database.failure = none ∧
          ∀ table id, g.world.database.row? table id =
            match lastWriter? requests writers table id with
            | some i => some (Entries.put "emailAddress" (.string (requests i).emailAddress)
              ((world.database.row? table id).getD []))
            | none => world.database.row? table id) ∧
        (g.Finished → (∀ i, i ∈ senders) ∧ ∀ i, (requests i).Permitted → i ∈ writers) := by
  refine ⟨_, _, registry_eq _ _, fun i => (requests i).respond_eq, fun fuel schedule g hplay => ?_⟩
  obtain ⟨phase, h⟩ : ∃ phase, Standing requests world schedule g phase :=
    Standing.of_play hlimit hhealthy (fun i => (requests i).respond_eq) hplay
  refine ⟨fun i => ?_, fun i hresult more hmore => ?_, fun i result hresult => ?_, ⟨?_, ?_⟩,
    ⟨?_, fun i hi => ?_, ?_, fun table id => ?_⟩, fun hfinished => ⟨fun i => ?_, fun i hi => ?_⟩⟩
  · exact Nat.le_trans (h.each i).turns (phase i).rank_le
  · exact h.act_isSome hlimit hhealthy hresult hmore
  · exact ((h.each i).ended hresult).2
  · exact List.nodup_iff_count_le_one.2 fun i => (h.each i).sends ▸ (phase i).sends_le_one
  · exact h.responder
  · exact List.nodup_iff_count_le_one.2 fun i => (h.each i).writes ▸ (phase i).writes_le_one
  · exact Phase.permitted_of_writes (h.each i).fits
      ((h.each i).writes ▸ List.count_pos_iff.2 hi)
  · exact h.healthy hhealthy
  · rw [h.database]
    exact row?_afterWrites requests hhealthy _ table id
  · refine List.count_pos_iff.1 ?_
    rw [(h.each i).sends, (h.each i).finished (hfinished i)]
    exact Nat.one_pos
  · refine List.count_pos_iff.1 ?_
    rw [(h.each i).writes, (h.each i).finished (hfinished i), Phase.writes, if_pos hi]
    exact Nat.one_pos

/-- Two changes of one address, and one with the token of someone else. -/
def rivals : Fin 3 → ChangeEmail
  | 0 => ⟨"ada", ⟨true, "ada"⟩, "ada@first"⟩
  | 1 => ⟨"ada", ⟨true, "ada"⟩, "ada@second"⟩
  | 2 => ⟨"ada", ⟨true, "eve"⟩, "eve@first"⟩

/-- The programs of the rivals. -/
def rivalPrograms (i : Fin 3) : Program World :=
  [.bind "result" (.composite (rivals i).steps), .bind "response" sendResult]

/-- The rivals take turns; the first is also the first to ask for its write, and the second is the
first whose write is performed. -/
def rivalTurns : List (Fin 3) :=
  [0, 1, 2, 0, 1, 2, 0, 1, 2, 0, 1, 2, 0, 1, 2, 0, 1, 2, 1, 0, 1, 2, 0, 1, 2, 0, 1, 2, 0, 1, 0, 1,
    0, 1, 0]

/-- Of two rivals the one whose write is performed last is in the row, though it asked first. -/
theorem respond_together_rivals :
    ∃ g, (Gathering.start rivalPrograms {}).play (executor databaseSlot responderSlot {}) 2
        rivalTurns = some g ∧
      g.Finished ∧ g.callers Database.algebra.name = [1, 0] ∧
      g.world.database.row? "users" "ada" = some [("emailAddress", .string "ada@first")] ∧
      2 ∈ g.callers Responses.algebra.name := by
  obtain ⟨registry, programs, hregistry, hprograms, h⟩ := respond_together rivals {} rfl {} rfl
  obtain rfl := Except.ok.inj ((registry_eq _ _).symm.trans hregistry)
  obtain rfl : rivalPrograms = programs :=
    funext fun i => Except.ok.inj ((rivals i).respond_eq.symm.trans (hprograms i))
  have hplay : (((Gathering.start rivalPrograms {}).play
      (executor databaseSlot responderSlot {}) 2 rivalTurns).map fun g =>
        (g.callers Database.algebra.name, decide (∀ i, (g.party i).result?.isSome))) =
      some ([1, 0], true) := by decide +kernel
  obtain ⟨g, hplay, hg⟩ := Option.map_eq_some_iff.1 hplay
  obtain ⟨hwriters, hended⟩ := Prod.mk.inj hg
  have hfinished : ∀ i, (g.party i).result?.isSome := of_decide_eq_true hended
  obtain ⟨-, -, -, -, ⟨-, -, -, hrows⟩, hall⟩ := h 2 rivalTurns g hplay
  refine ⟨g, hplay, hfinished, hwriters, ?_, (hall hfinished).1 2⟩
  rw [hrows, hwriters]
  rfl

end EffectPrograms.Accounts

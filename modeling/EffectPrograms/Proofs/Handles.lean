import EffectPrograms.Execution.Run
import EffectPrograms.Proofs.NameChecks

/-!
# Handles to a completion

A callback gets one handle to the completion of its io. It may clone the handle, and pass clones on
to whoever is to complete the io, so that several may race for it; each clone is used and dropped on
its own. All of them share the completion: which one is used does not matter, only when. Here the
handles are kept apart (`Handles.use`), and what is delivered in the end is found from the sequence
of uses alone: it is the first value that was attempted (`Handles.received_of_play`).

The io waits until a value is there or no handle is left (`Handles.receive?`). What it finds then
does not change any more, whatever is done with the handles that are left.
-/

namespace EffectPrograms

variable {σ : Type}

/-! ## Handles -/

/-- What is done with a handle. -/
inductive HandleUse where
  | complete (v : Value)
  /-- Asks whether there is a value already. -/
  | query
  | clone
  | drop

/-- What the use of a handle comes to. -/
inductive HandleReply where
  | completed (result : Except Fault Unit)
  | queried (completed : Bool)
  /-- The number of the new handle. -/
  | cloned (handle : Nat)
  | dropped

/-- The handles to the completion of one io, numbered as they are made. -/
structure Handles where
  /-- What all of them share. -/
  completion : Completion := {}
  /-- Those that are not dropped. -/
  live : List Nat := [0]
  /-- How many have been made. -/
  made : Nat := 1

namespace Handles

/-- Uses a handle. None if there is no such handle any more. -/
def use (s : Handles) (handle : Nat) (u : HandleUse) : Option (HandleReply × Handles) :=
  if handle ∈ s.live then
    match u with
    | .complete v =>
      match s.completion.offer v with
      | .ok completion => some (.completed (.ok ()), { s with completion })
      | .error f => some (.completed (.error f), s)
    | .query => some (.queried s.completion.isCompleted, s)
    | .clone => some (.cloned s.made, { s with live := s.made :: s.live, made := s.made + 1 })
    | .drop => some (.dropped, { s with live := s.live.erase handle })
  else none

/-- Uses handles one after the other. -/
def play (s : Handles) : List (Nat × HandleUse) → Option (List HandleReply × Handles)
  | [] => some ([], s)
  | (handle, u) :: later => do
    let (reply, s) ← s.use handle u
    let (replies, s) ← s.play later
    return (reply :: replies, s)

/-- What the io finds that waits for its completion. None as long as there is neither a value nor an
end to the handles. -/
def receive? (s : Handles) : Option (Except Fault Value) :=
  match s.completion.received with
  | some v => some (.ok v)
  | none => if s.live.isEmpty then some (.error (.brokenContract .neverCompleted)) else none

/-- The handles are used in this way, with these replies, until none is left. -/
def UsedUp (uses : List (Nat × HandleUse)) (replies : List HandleReply) : Prop :=
  ∃ last, ({} : Handles).play uses = some (replies, last) ∧ last.live = []

end Handles

/-- The value that a use attempts to complete the io with. -/
def HandleUse.attempt? : HandleUse → Option Value
  | .complete v => some v
  | _ => none

/-- The values that are attempted, in order. -/
def attempts (uses : List (Nat × HandleUse)) : List Value :=
  uses.filterMap fun use => use.2.attempt?

/-- What the first attempt delivers, or what it comes to that there was none. -/
def firstAttempt (uses : List (Nat × HandleUse)) : Except Fault Value :=
  match attempts uses with
  | v :: _ => .ok v
  | [] => .error (.brokenContract .neverCompleted)

/-- An io with a callback. In the world that it finds, the callback says what is done through its
handle and the clones of it, at once and later on, and which world that leaves. -/
def Io.callback (script : σ → List (Nat × HandleUse) × σ) (arrival : Arrival := .offered) :
    Io σ where
  effect completion world :=
    match ({ completion } : Handles).play (script world).1 with
    | some (_, handles) => (handles.completion, (script world).2)
    | none => (completion, (script world).2)
  arrival := arrival

/-! ## What the uses come to -/

/-- The first of the values that are attempted is what the first attempt delivers. -/
theorem firstAttempt_of_head? {uses : List (Nat × HandleUse)} {v : Value}
    (h : (attempts uses).head? = some v) : firstAttempt uses = .ok v := by
  obtain ⟨later, hattempts⟩ := List.head?_eq_some_iff.1 h
  rw [firstAttempt, hattempts]

/-- If there is an attempt among the uses up to some point, it stays the first one. -/
theorem attempts_head?_of_take {uses : List (Nat × HandleUse)} {i : Nat} {v : Value}
    (h : (attempts (uses.take i)).head? = some v) : (attempts uses).head? = some v := by
  rw [← List.take_append_drop i uses, attempts, List.filterMap_append, List.head?_append]
  rw [attempts] at h
  rw [h]
  rfl

namespace Handles

variable {s next last : Handles} {uses : List (Nat × HandleUse)} {replies : List HandleReply}

/-- A value is taken by a completion that has none, and stays. -/
theorem received_of_use {handle : Nat} {u : HandleUse} {reply : HandleReply}
    (h : s.use handle u = some (reply, next)) :
    next.completion.received = s.completion.received.or u.attempt? := by
  unfold use at h
  split at h
  · cases u with
    | complete v =>
      dsimp only at h
      cases hoffer : s.completion.offer v with
      | ok completion =>
        rw [hoffer] at h
        obtain ⟨-, rfl⟩ := Prod.mk.inj (Option.some.inj h)
        obtain ⟨hnone, hsome⟩ := Completion.offer_eq_ok_iff.1 hoffer
        rw [hnone]
        exact hsome
      | error f =>
        rw [hoffer] at h
        obtain ⟨-, rfl⟩ := Prod.mk.inj (Option.some.inj h)
        cases hreceived : s.completion.received with
        | none => simp [Completion.offer, Completion.isCompleted, hreceived] at hoffer
        | some first => rfl
    | query | clone | drop =>
      obtain ⟨-, rfl⟩ := Prod.mk.inj (Option.some.inj h)
      exact Option.or_none.symm
  · simp at h

/-- The completion holds the first value that was attempted. -/
theorem received_of_play (h : s.play uses = some (replies, last)) :
    last.completion.received = s.completion.received.or (attempts uses).head? := by
  induction uses generalizing s replies with
  | nil =>
    obtain ⟨-, rfl⟩ := Prod.mk.inj (Option.some.inj h)
    exact Option.or_none.symm
  | cons first later ih =>
    obtain ⟨handle, u⟩ := first
    simp only [play, Option.bind_eq_bind, Option.bind_eq_some_iff] at h
    obtain ⟨⟨reply, next⟩, huse, ⟨replies', last'⟩, hlater, hresult⟩ := h
    obtain ⟨-, rfl⟩ := Prod.mk.inj (Option.some.inj hresult)
    rw [ih hlater, received_of_use huse, Option.or_assoc]
    cases hattempt : u.attempt? with
    | none => simp [attempts, hattempt]
    | some v => simp [attempts, hattempt]

/-- A sequence of uses is made in two parts, the second one from where the first one leads. -/
theorem play_split (h : s.play uses = some (replies, last)) (i : Nat) :
    ∃ next, s.play (uses.take i) = some (replies.take i, next) ∧
      next.play (uses.drop i) = some (replies.drop i, last) := by
  induction uses generalizing s replies i with
  | nil =>
    obtain ⟨rfl, rfl⟩ := Prod.mk.inj (Option.some.inj h)
    exact ⟨s, by simp [play], by simp [play]⟩
  | cons first later ih =>
    cases i with
    | zero => exact ⟨s, rfl, h⟩
    | succ i =>
      obtain ⟨handle, u⟩ := first
      simp only [play, Option.bind_eq_bind, Option.bind_eq_some_iff] at h
      obtain ⟨⟨reply, middle⟩, huse, ⟨replies', last'⟩, hlater, hresult⟩ := h
      obtain ⟨rfl, rfl⟩ := Prod.mk.inj (Option.some.inj hresult)
      obtain ⟨next, hbefore, hafter⟩ := ih hlater i
      exact ⟨next, by simp [play, huse, hbefore], hafter⟩

/-- Each use is made where the ones before it lead, and gives the reply in its place. -/
theorem play_at (h : s.play uses = some (replies, last)) {i handle : Nat} {u : HandleUse}
    (hi : uses[i]? = some (handle, u)) :
    ∃ before reply after, s.play (uses.take i) = some (replies.take i, before) ∧
      before.use handle u = some (reply, after) ∧ replies[i]? = some reply ∧
      s.play (uses.take (i + 1)) = some (replies.take (i + 1), after) := by
  have hone {α : Type} (l : List α) : (l.take (i + 1)).drop i = l[i]?.toList := by
    rw [List.drop_take, Nat.add_sub_cancel_left, List.take_one, List.head?_drop]
  obtain ⟨after, hafter, -⟩ := play_split h (i + 1)
  obtain ⟨before, hbefore, huse⟩ := play_split hafter i
  rw [List.take_take, List.take_take, Nat.min_eq_left (Nat.le_succ i)] at hbefore
  rw [hone, hone, hi] at huse
  simp only [Option.toList_some, play, Option.bind_eq_bind, Option.bind_eq_some_iff] at huse
  obtain ⟨⟨reply, next⟩, huse, ⟨_, _⟩, hnil, hresult⟩ := huse
  obtain ⟨rfl, rfl⟩ := Prod.mk.inj (Option.some.inj hnil)
  obtain ⟨hreply, rfl⟩ := Prod.mk.inj (Option.some.inj hresult)
  refine ⟨before, reply, next, hbefore, huse, ?_, hafter⟩
  cases hreplies : replies[i]? with
  | none => simp [hreplies] at hreply
  | some other => simpa [hreplies, eq_comm] using hreply

/-- What can be said of handles that are used up, from what was attempted and when. -/
structure Accounted (uses : List (Nat × HandleUse)) (replies : List HandleReply) : Prop where
  /-- The first attempt succeeds, and every later one breaks the contract. -/
  completed : ∀ (i handle : Nat) (v : Value), uses[i]? = some (handle, .complete v) →
    replies[i]? = some (.completed (if (attempts (uses.take i)).isEmpty then .ok ()
      else .error (.brokenContract .completedTwice)))
  /-- A later attempt leaves the handles, and what they share, as they are. -/
  unchanged : ∀ (i handle : Nat) (v : Value), uses[i]? = some (handle, .complete v) →
    (attempts (uses.take i)).isEmpty = false → ∃ s,
      ({} : Handles).play (uses.take i) = some (replies.take i, s) ∧
      ({} : Handles).play (uses.take (i + 1)) = some (replies.take (i + 1), s)
  /-- Through each handle it is seen whether there was an attempt. -/
  queried : ∀ (i handle : Nat), uses[i]? = some (handle, .query) →
    replies[i]? = some (.queried (!(attempts (uses.take i)).isEmpty))
  /-- The io that waits finds the first attempt, as soon as there is one or no handle is left, and
  up to then it finds nothing. -/
  received : ∀ i : Nat, ∃ s, ({} : Handles).play (uses.take i) = some (replies.take i, s) ∧
    (s.receive? = some (firstAttempt uses) ∨
      s.receive? = none ∧ (attempts (uses.take i)).isEmpty ∧ s.live ≠ [])

/-- A fresh completion holds the first value that was attempted. -/
theorem received_of_play_fresh (h : ({} : Handles).play uses = some (replies, last)) :
    last.completion.received = (attempts uses).head? := received_of_play h

/-- Without a handle nothing is used. -/
theorem eq_nil_of_play (hlive : s.live = []) (h : s.play uses = some (replies, last)) :
    uses = [] := by
  cases uses with
  | nil => rfl
  | cons first later => simp [play, use, hlive] at h

/-- An attempt succeeds just if there was none before it, and else changes nothing. -/
theorem reply_of_complete {handle : Nat} {v : Value} {reply : HandleReply}
    (hbefore : ({} : Handles).play uses = some (replies, s))
    (huse : s.use handle (.complete v) = some (reply, next)) :
    reply = .completed (if (attempts uses).isEmpty then .ok ()
      else .error (.brokenContract .completedTwice)) ∧
    ((attempts uses).isEmpty = false → next = s) := by
  have hreceived := received_of_play_fresh hbefore
  unfold use Completion.offer Completion.isCompleted at huse
  cases hattempts : attempts uses with
  | nil =>
    rw [hattempts] at hreceived
    simp only [hreceived] at huse
    split at huse
    · obtain ⟨rfl, -⟩ := Prod.mk.inj (Option.some.inj huse)
      exact ⟨rfl, fun h => by simp at h⟩
    · simp at huse
  | cons first later =>
    rw [hattempts] at hreceived
    simp only [hreceived] at huse
    split at huse
    · obtain ⟨rfl, rfl⟩ := Prod.mk.inj (Option.some.inj huse)
      exact ⟨rfl, fun _ => rfl⟩
    · simp at huse

/-- A query tells whether there was an attempt. -/
theorem reply_of_query {handle : Nat} {reply : HandleReply}
    (hbefore : ({} : Handles).play uses = some (replies, s))
    (huse : s.use handle .query = some (reply, next)) :
    reply = .queried (!(attempts uses).isEmpty) := by
  have hreceived := received_of_play_fresh hbefore
  unfold use Completion.isCompleted at huse
  split at huse
  · rw [hreceived] at huse
    obtain ⟨rfl, -⟩ := Prod.mk.inj (Option.some.inj huse)
    cases attempts uses <;> rfl
  · simp at huse

/-- Handles that are used up are accounted for. -/
theorem UsedUp.accounted (h : UsedUp uses replies) : Accounted uses replies where
  completed i handle v hi := by
    obtain ⟨last, hplay, -⟩ := h
    obtain ⟨before, reply, after, hbefore, huse, hreply, -⟩ := play_at hplay hi
    rw [hreply, (reply_of_complete hbefore huse).1]
  unchanged i handle v hi hattempts := by
    obtain ⟨last, hplay, -⟩ := h
    obtain ⟨before, reply, after, hbefore, huse, -, hafter⟩ := play_at hplay hi
    obtain rfl := (reply_of_complete hbefore huse).2 hattempts
    exact ⟨after, hbefore, hafter⟩
  queried i handle hi := by
    obtain ⟨last, hplay, -⟩ := h
    obtain ⟨before, reply, after, hbefore, huse, hreply, -⟩ := play_at hplay hi
    rw [hreply, reply_of_query hbefore huse]
  received i := by
    obtain ⟨last, hplay, -⟩ := h
    obtain ⟨s, hbefore, hlater⟩ := play_split hplay i
    refine ⟨s, hbefore, ?_⟩
    have hreceived := received_of_play_fresh hbefore
    cases hattempts : attempts (uses.take i) with
    | cons v later =>
      rw [hattempts] at hreceived
      have hfirst : firstAttempt uses = .ok v :=
        firstAttempt_of_head? (attempts_head?_of_take (i := i) (by rw [hattempts]; rfl))
      exact .inl (by rw [receive?, hreceived, hfirst]; rfl)
    | nil =>
      rw [hattempts] at hreceived
      cases hlive : s.live with
      | cons handle others => exact .inr ⟨by simp [receive?, hreceived, hlive], rfl, by simp⟩
      | nil =>
        -- No handle is left, so that nothing was used after this.
        have hall : uses.take i = uses := by
          have hnone := eq_nil_of_play hlive hlater
          conv_rhs => rw [← List.take_append_drop i uses, hnone, List.append_nil]
        rw [hall] at hattempts
        exact .inl (by simp [receive?, hreceived, hlive, firstAttempt, hattempts])

end Handles

/-! ## Performing the io -/

/-- The io delivers what was attempted first. -/
theorem Io.perform_callback {script : σ → List (Nat × HandleUse) × σ}
    {uses : List (Nat × HandleUse)} {replies : List HandleReply} {world world' : σ}
    (hscript : script world = (uses, world')) (h : Handles.UsedUp uses replies)
    (arrival : Arrival) :
    (Io.callback script arrival).perform world = (firstAttempt uses, world') := by
  obtain ⟨last, hplay, -⟩ := h
  have hreceived := Handles.received_of_play_fresh hplay
  simp only [perform, callback, hscript, hplay, Completion.deliver, hreceived, firstAttempt]
  cases attempts uses <;> rfl

namespace Executor

variable {x : Executor σ}

/-- A run that comes to an io goes on with what the io delivers, or ends with the fault that it
found. -/
theorem run_of_suspend {fuel more : Nat} {stack : Stack σ} {s : Step σ}
    {rest rest' : List (Step σ)} {binding : Option String} {io : Io σ} {asked world : σ}
    (hle : fuel ≤ more) (hsteps : stack.top.steps = s :: rest)
    (hresolve : x.registry.resolve fuel stack.top.env s rest asked =
      some (.ok ⟨binding, .suspend io, rest'⟩, world)) :
    x.run (more + 1) (.running stack) asked =
      match io.perform world with
      | (.ok v, world') => x.run more (.running ⟨{ stack.top with
          steps := rest', env := stack.top.env.bound binding v }, stack.below⟩) world'
      | (.error f, world') => some ⟨.error f, .failed, world'⟩ := by
  have hfree : stack.top.env.Free binding := Registry.resolve_free hresolve
  have hstep := x.step_of_resolve hsteps (Registry.resolve_mono hle hresolve).1
  simp only [run, hstep, Stack.commit, Transition.ofResult, Execution.perform]
  rcases io.perform world with ⟨f | v, world'⟩
  · rfl
  · have hbind := Stack.bind_of_free { stack.top with steps := rest' } stack.below hfree v
    simp only [Execution.resume, hbind]

/-- An io with a callback completes exactly once. Whatever is done with its handle and the clones of
it, in any order and until none is left, the first attempt to complete it succeeds and every later
one breaks the contract and changes nothing; a query finds a value just from the first attempt on,
through whichever handle. The io delivers what was attempted first, or that nothing was. Wherever a
run comes to the io, it goes on with this value bound under the name of the step, in place of the
step, and it has failed if there is no value. -/
theorem completes_once (x : Executor σ) {script : σ → List (Nat × HandleUse) × σ}
    {uses : List (Nat × HandleUse)} {replies : List HandleReply} {world world' : σ}
    (hscript : script world = (uses, world')) (h : Handles.UsedUp uses replies)
    (arrival : Arrival) :
    Handles.Accounted uses replies ∧
    (Io.callback script arrival).perform world = (firstAttempt uses, world') ∧
    ∀ fuel more stack s rest asked binding rest', fuel ≤ more → stack.top.steps = s :: rest →
      x.registry.resolve fuel stack.top.env s rest asked =
        some (.ok ⟨binding, .suspend (Io.callback script arrival), rest'⟩, world) →
      x.run (more + 1) (.running stack) asked =
        match firstAttempt uses with
        | .ok v => x.run more (.running ⟨{ stack.top with
            steps := rest', env := stack.top.env.bound binding v }, stack.below⟩) world'
        | .error f => some ⟨.error f, .failed, world'⟩ := by
  have hperform := Io.perform_callback hscript h arrival
  refine ⟨h.accounted, hperform, ?_⟩
  intro fuel more stack s rest asked binding rest' hle hsteps hresolve
  rw [run_of_suspend hle hsteps hresolve, hperform]
  cases firstAttempt uses <;> rfl

end Executor

/-- Two handles race for a completion: the clone is first. -/
def race (world : Unit) : List (Nat × HandleUse) × Unit :=
  ([(0, .query), (0, .clone), (1, .complete (.bool true)), (0, .query),
    (0, .complete (.bool false)), (0, .drop), (1, .drop)], world)

/-- The clone is told that its value was taken, the other handle that it was too late, and the run
ends with the value of the clone under the name of the step. -/
theorem Executor.completes_once_racing :
    ∃ replies, Handles.UsedUp (race ()).1 replies ∧
      replies = [.queried false, .cloned 1, .completed (.ok ()), .queried true,
        .completed (.error (.brokenContract .completedTwice)), .dropped, .dropped] ∧
      ({ registry := .empty } : Executor Unit).run 2
          (.start [.bind "answer" (.op (.io (.callback race)))]) () =
        some ⟨.ok (.environment ⟨[("answer", .bool true)]⟩), .done, ()⟩ := by
  let x : Executor Unit := { registry := .empty }
  have hused : Handles.UsedUp (race ()).1 _ := ⟨_, rfl, rfl⟩
  have hrun := (x.completes_once (show race () = _ from rfl) hused .offered).2.2
  refine ⟨_, hused, rfl, ?_⟩
  exact hrun 0 1 ⟨{ steps := _ }, []⟩ _ [] () (some "answer") [] (Nat.zero_le 1) rfl rfl

end EffectPrograms

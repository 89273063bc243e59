import EffectPrograms.Proofs.Evaluation
import EffectPrograms.Proofs.Session

/-!
# Calls as evaluations

What calls on an execution come to, as an evaluation: `Machine.run` makes a number of calls and is
cut short after them, unless the execution has ended before. Unlike a session it does not remember
what happened before, so that it can be compared with other evaluations from any execution on. A
session takes the same course (`course_between`); of the two, the session sees one call earlier that
an io has no delivery left.
-/

namespace EffectPrograms

variable {σ : Type}

open Evaluation

/-- What a number of calls on an execution come to. -/
def Machine.run (m : Machine σ) (fuel : Nat) : Nat → Execution σ → Evaluation σ Outcome
  | 0, _ => halt .unfinished
  | calls + 1, .running stack => ⟨fun surroundings =>
    let acts := m.registry.stepActs fuel stack surroundings.world
    match m.step fuel (.running stack) surroundings.world with
    | none => ⟨acts, .error .unfinished, surroundings⟩
    | some ⟨.error f, _, world⟩ => ⟨acts, .error (.fault f), { surroundings with world }⟩
    | some ⟨.ok (.finished outcome), _, world⟩ => ⟨acts, .ok outcome, { surroundings with world }⟩
    | some ⟨.ok .progress, next, world⟩ =>
      ((m.run fuel calls next).course { surroundings with world }).after acts
    | some ⟨.ok (.io io), next, world⟩ =>
      ((m.run fuel calls next).course { surroundings with world }).after (acts ++ [.ask io])⟩
  | calls + 1, .awaitingIo binding stack => ⟨fun surroundings =>
    match surroundings.deliveries with
    | [] => ⟨[], .error .awaiting, surroundings⟩
    | (delivery, world) :: later =>
      match (Execution.awaitingIo binding stack).receive delivery with
      | (.error f, _) => ⟨[], .error (.fault f), ⟨world, later⟩⟩
      | (.ok (), next) => (m.run fuel calls next).course ⟨world, later⟩⟩
  | _ + 1, .done | _ + 1, .failed => halt .unfinished

namespace Machine

variable (m : Machine σ) (fuel : Nat)

/-- With more calls a run is not cut short so soon. -/
theorem run_mono {calls more : Nat} (hle : calls ≤ more) (e : Execution σ) :
    m.run fuel calls e ≤ m.run fuel more e := by
  induction calls generalizing more e with
  | zero => exact unfinished_le _
  | succ calls ih =>
    obtain ⟨more, rfl⟩ : ∃ n, more = n + 1 := ⟨more - 1, by omega⟩
    replace ih : ∀ e, m.run fuel calls e ≤ m.run fuel more e := ih (by omega)
    intro surroundings
    cases e with
    | running stack =>
      unfold run
      dsimp only
      split
      · exact le_rfl
      · exact le_rfl
      · exact le_rfl
      · exact Course.after_le_after _ (ih _ _)
      · exact Course.after_le_after _ (ih _ _)
    | awaitingIo binding stack =>
      unfold run
      dsimp only
      split
      · exact le_rfl
      · split
        · exact le_rfl
        · exact ih _ _
    | done | failed => exact le_rfl

end Machine

namespace Session

variable {m : Machine σ} {fuel : Nat} {s : Session σ}

/-- A session that hangs goes no further. -/
theorem course_of_hung (h : s.hung = true) (k : Nat) :
    ((m.advance fuel)^[k] s).course = s.course := by
  rw [Function.iterate_fixed (Machine.advance_of_hung h)]

/-- A session that has ended goes no further. -/
theorem course_of_ended (h : s.execution.depth = 0) (k : Nat) :
    ((m.advance fuel)^[k] s).course = s.course := by
  have hended : s.execution = .done ∨ s.execution = .failed := by
    cases he : s.execution <;> simp [he, Execution.depth, Stack.depth] at h ⊢
  rw [Function.iterate_fixed (Machine.advance_of_ended hended)]

/-- A delivery that fails ends the execution. -/
theorem failed_of_receive {binding : Option String} {stack : Stack σ}
    {delivery : Except Fault Value} {f : Fault} {next : Execution σ}
    (h : (Execution.awaitingIo binding stack).receive delivery = (.error f, next)) :
    next = .failed := by
  unfold Execution.receive Execution.resume at h
  split at h
  · dsimp only at h
    split at h
    · simp at h
    · exact (Prod.mk.inj h).2.symm
  · exact (Prod.mk.inj h).2.symm

/-- After a delivery that is received composites are open. -/
theorem open_of_receive {binding : Option String} {stack : Stack σ}
    {delivery : Except Fault Value} {u : Unit} {next : Execution σ}
    (h : (Execution.awaitingIo binding stack).receive delivery = (.ok u, next)) :
    next.depth ≠ 0 := by
  unfold Execution.receive Execution.resume at h
  split at h
  · dsimp only at h
    split at h
    · rw [← (Prod.mk.inj h).2]
      exact Nat.succ_ne_zero _
    · simp at h
  · simp at h

/-- A session that waits for an io without a delivery goes no further. -/
theorem course_of_starved {binding : Option String} {stack : Stack σ}
    (h : s.execution = .awaitingIo binding stack) (hnext : s.surroundings.deliveries = [])
    (k : Nat) : ((m.advance fuel)^[k] s).course = ⟨s.acts, .error .awaiting, s.surroundings⟩ := by
  rw [Function.iterate_fixed (Machine.advance_of_starved h hnext)]
  simp [course, ending, h, hnext]

/-- A session that waits for an io without a delivery takes the course of one call. -/
theorem run_of_starved {binding : Option String} {stack : Stack σ}
    (h : s.execution = .awaitingIo binding stack) (hnext : s.surroundings.deliveries = [])
    (k : Nat) : ((m.run fuel (k + 1) s.execution).course s.surroundings).after s.acts =
      ⟨s.acts, .error .awaiting, s.surroundings⟩ := by
  simp [h, Machine.run, hnext, Course.after]

/-- A session that has not ended has taken no more of a course than a run of one call. -/
theorem course_le_run (m : Machine σ) (fuel : Nat) {s : Session σ}
    (hopen : s.execution.depth ≠ 0) :
    s.course ≤ ((m.run fuel 1 s.execution).course s.surroundings).after s.acts := by
  cases he : s.execution with
  | running stack =>
    refine Course.le_of_cut ?_ (List.prefix_append _ _)
    simp [course, ending, he]
  | awaitingIo binding stack =>
    cases hnext : s.surroundings.deliveries with
    | nil =>
      -- Here the session sees without a call what a run takes one call for.
      rw [← he, run_of_starved he hnext]
      exact (course_of_starved he hnext 0 : ((m.advance fuel)^[0] s).course = _).le
    | cons first later =>
      refine Course.le_of_cut ?_ (List.prefix_append _ _)
      simp [course, ending, he, hnext]
  | done => exact absurd (by rw [he]; rfl) hopen
  | failed => exact absurd (by rw [he]; rfl) hopen

/-- The next call goes on: composites stay open, and a run with one more call goes on from the
session after it. -/
def GoesOn (m : Machine σ) (fuel : Nat) (s : Session σ) : Prop :=
  (m.advance fuel s).hung = false ∧ (m.advance fuel s).execution.depth ≠ 0 ∧
    ∀ k, ((m.run fuel (k + 1) s.execution).course s.surroundings).after s.acts =
      ((m.run fuel k (m.advance fuel s).execution).course
        (m.advance fuel s).surroundings).after (m.advance fuel s).acts

/-- The next call is the last that counts: the session goes no further after it, and has taken the
course of every run with one call or more. -/
def Settles (m : Machine σ) (fuel : Nat) (s : Session σ) : Prop :=
  ∀ j k, ((m.advance fuel)^[j] (m.advance fuel s)).course =
    ((m.run fuel (k + 1) s.execution).course s.surroundings).after s.acts

/-- A step goes on if it makes progress or asks for an io. -/
theorem goesOn_of_step {stack : Stack σ} {event : Event σ} {next : Execution σ} {world : σ}
    (hhung : s.hung = false) (he : s.execution = .running stack)
    (hstep : m.step fuel (.running stack) s.surroundings.world = some ⟨.ok event, next, world⟩)
    (hgoes : ∀ outcome, event ≠ .finished outcome) : s.GoesOn m fuel := by
  have hopen : next.depth ≠ 0 := by
    rw [Ne, Execution.depth_eq_zero_iff, m.status_of_step hstep]
    cases event with
    | finished outcome => exact absurd rfl (hgoes outcome)
    | progress | io _ => simp [Transition.status, Event.status]
  rw [GoesOn, Machine.advance_of_running hhung he, hstep]
  refine ⟨hhung, hopen, fun k => ?_⟩
  cases event with
  | finished outcome => exact absurd rfl (hgoes outcome)
  | progress | io _ => simp [Machine.run, he, hstep, stepped, Event.acts, Course.after_after]

/-- A step settles if it fails or finishes the program. -/
theorem settles_of_step {stack : Stack σ} {t : Transition σ (Event σ)} (hhung : s.hung = false)
    (he : s.execution = .running stack)
    (hstep : m.step fuel (.running stack) s.surroundings.world = some t)
    (hends : t.status = .done ∨ t.status = .failed) : s.Settles m fuel := by
  intro j k
  have hended : t.execution.depth = 0 := by
    rwa [Execution.depth_eq_zero_iff, m.status_of_step hstep]
  have hclosed : t.execution = .done ∨ t.execution = .failed := by
    cases hnext : t.execution <;> simp [hnext, Execution.depth, Stack.depth] at hended ⊢
  rw [Machine.advance_of_running hhung he, hstep, course_of_ended hended]
  obtain ⟨f | event, next, world⟩ := t
  · rcases hclosed with rfl | rfl <;>
      simp [Machine.run, he, hstep, Course.after, course, stepped, ending]
  · cases event with
    | finished outcome =>
      rcases hclosed with rfl | rfl <;>
        simp [Machine.run, he, hstep, Course.after, course, stepped, ending, Event.acts]
    | progress | io _ => simp [Transition.status, Event.status] at hends

/-- A call on a running execution goes on or settles. -/
theorem goesOn_or_settles_of_running {stack : Stack σ} (hhung : s.hung = false)
    (he : s.execution = .running stack) : s.GoesOn m fuel ∨ s.Settles m fuel := by
  cases hstep : m.step fuel (.running stack) s.surroundings.world with
  | none =>
    -- The step does not return, and what was done in it is all that is seen.
    refine .inr fun j k => ?_
    rw [Machine.advance_of_running hhung he, hstep, course_of_hung rfl]
    simp [course, hang, ending, he, Machine.run, hstep, Course.after]
  | some t =>
    obtain ⟨f | event, next, world⟩ := t
    · exact .inr (settles_of_step hhung he hstep (.inr rfl))
    cases event with
    | finished outcome => exact .inr (settles_of_step hhung he hstep (.inl rfl))
    | progress | io _ => exact .inl (goesOn_of_step hhung he hstep fun _ => by simp)

/-- A call on an execution that waits goes on if there is a delivery and it is received. -/
theorem goesOn_or_settles_of_awaitingIo {binding : Option String} {stack : Stack σ}
    (hhung : s.hung = false) (he : s.execution = .awaitingIo binding stack) :
    s.GoesOn m fuel ∨ s.Settles m fuel := by
  cases hnext : s.surroundings.deliveries with
  | nil =>
    refine .inr fun j k => ?_
    rw [Machine.advance_of_starved he hnext, course_of_starved he hnext, run_of_starved he hnext]
  | cons first later =>
    obtain ⟨delivery, world⟩ := first
    rcases hreceive : (Execution.awaitingIo binding stack).receive delivery with ⟨f | u, next⟩
    · -- The delivery fails and ends the session.
      obtain rfl : next = .failed := failed_of_receive hreceive
      refine .inr fun j k => ?_
      rw [Machine.advance_of_awaiting hhung he hnext, hreceive, course_of_ended rfl]
      simp [Machine.run, he, hnext, hreceive, Course.after, course, resumed, ending]
    · refine .inl ?_
      rw [GoesOn, Machine.advance_of_awaiting hhung he hnext, hreceive]
      refine ⟨hhung, open_of_receive hreceive, fun k => ?_⟩
      simp [Machine.run, he, hnext, hreceive, resumed]

/-- How the course of a session compares with runs from where the session stands. -/
theorem course_between (m : Machine σ) (fuel k : Nat) {s : Session σ} (hhung : s.hung = false)
    (hopen : s.execution.depth ≠ 0) :
    ((m.run fuel k s.execution).course s.surroundings).after s.acts ≤
        ((m.advance fuel)^[k] s).course ∧
      ((m.advance fuel)^[k] s).course ≤
        ((m.run fuel (k + 1) s.execution).course s.surroundings).after s.acts := by
  induction k generalizing s with
  | zero =>
    refine ⟨Course.le_of_cut rfl ?_, course_le_run m fuel hopen⟩
    rw [Machine.run, halt, Course.after, List.append_nil]
    exact List.prefix_rfl
  | succ k ih =>
    have hcall : s.GoesOn m fuel ∨ s.Settles m fuel := by
      cases he : s.execution with
      | running stack => exact goesOn_or_settles_of_running hhung he
      | awaitingIo binding stack => exact goesOn_or_settles_of_awaitingIo hhung he
      | done | failed => exact absurd (by rw [he]; rfl) hopen
    rw [Function.iterate_succ_apply]
    rcases hcall with ⟨hhung', hopen', hrun⟩ | hsettles
    · rw [hrun k, hrun (k + 1)]
      exact ih hhung' hopen'
    · exact ⟨(hsettles k k).ge, (hsettles k (k + 1)).le⟩

end Session

end EffectPrograms

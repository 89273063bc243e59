import EffectPrograms.Proofs.Evaluation
import Mathlib.Order.Monotone.Basic

/-!
# What is logged of an evaluation

A log has no record of what a deferred step finds in its environment. `Course.logged` takes these
acts out of a course, and `Evaluation.logged` out of every course of an evaluation, which respects
how evaluations follow each other (`Evaluation.logged_bind`).

Two ways to evaluate the same seldom need the same fuel. `Evaluation.Within` compares the log of an
evaluation with those of another one for more and more fuel, so that no count of it is needed where
one evaluation takes more steps than the other.
-/

namespace EffectPrograms

variable {σ α β : Type}

/-! ## Logs -/

/-- The course without what deferred steps were given. -/
def Course.logged (c : Course σ α) : Course σ α := { c with acts := Act.logged c.acts }

/-- The order of courses is kept in the log. -/
theorem Course.logged_le_logged {a b : Course σ α} (h : a ≤ b) : a.logged ≤ b.logged := by
  rcases h with rfl | ⟨hcut, hacts⟩
  · exact le_rfl
  · exact Course.le_of_cut hcut (hacts.filter _)

/-- The log of a course after other acts comes after the log of these. -/
theorem Course.logged_after (acts : List (Act σ)) (c : Course σ α) :
    (c.after acts).logged = c.logged.after (Act.logged acts) := by
  simp only [Course.logged, Course.after, Act.logged_append]

namespace Evaluation

/-- The evaluation without what deferred steps are given. -/
def logged (m : Evaluation σ α) : Evaluation σ α := ⟨fun surroundings =>
  (m.course surroundings).logged⟩

/-- What is logged of the evaluation is what is logged of its course. -/
theorem logged_of_course {m : Evaluation σ α} {surroundings rest : Surroundings σ}
    {acts : List (Act σ)} {ending : Except Halt α}
    (h : m.course surroundings = ⟨acts, ending, rest⟩) :
    m.logged.course surroundings = ⟨Act.logged acts, ending, rest⟩ :=
  congrArg Course.logged h

/-- What is logged of two evaluations in a row is what is logged of each. -/
theorem logged_bind (m : Evaluation σ α) (f : α → Evaluation σ β) :
    (m >>= f).logged = m.logged >>= fun a => (f a).logged := by
  refine course_ext fun surroundings => ?_
  rcases hm : m.course surroundings with ⟨acts, halt | a, rest⟩
  · rw [bind_of_error (logged_of_course hm)]
    exact logged_of_course (bind_of_error hm)
  · rw [bind_of_ok (logged_of_course hm)]
    exact (congrArg Course.logged (bind_of_ok hm)).trans (Course.logged_after acts _)

/-- What a deferred step is given is not logged. -/
theorem logged_note_compute (env : Environment) :
    (note (.compute env) : Evaluation σ Unit).logged = pure () := rfl

/-- The order of evaluations is kept in the log. -/
theorem logged_le_logged {m m' : Evaluation σ α} (h : m ≤ m') : m.logged ≤ m'.logged :=
  fun surroundings => Course.logged_le_logged (h surroundings)

/-- An evaluation whose log lies below that of another one leaves its result to it. -/
theorem exists_course_of_logged_le {m m' : Evaluation σ α} {surroundings rest : Surroundings σ}
    {acts : List (Act σ)} {a : α}
    (hle : m.logged.course surroundings ≤ m'.logged.course surroundings)
    (hm : m.course surroundings = ⟨acts, .ok a, rest⟩) :
    ∃ acts', m'.course surroundings = ⟨acts', .ok a, rest⟩ := by
  have hlogged := logged_of_course hm
  have heq := Course.eq_of_le hle (by simp [hlogged])
  rcases hm' : m'.course surroundings with ⟨acts', ending, rest'⟩
  have hlogged' := logged_of_course hm'
  obtain ⟨-, rfl, rfl⟩ := Course.mk.inj (hlogged.symm.trans (heq.trans hlogged'))
  exact ⟨acts', rfl⟩

/-- The order of logs is kept by what follows. -/
theorem logged_bind_le {m m' : Evaluation σ α} {f f' : α → Evaluation σ β}
    {surroundings : Surroundings σ}
    (hm : m.logged.course surroundings ≤ m'.logged.course surroundings)
    (hf : ∀ acts a rest, m.course surroundings = ⟨acts, .ok a, rest⟩ →
      (f a).logged.course rest ≤ (f' a).logged.course rest) :
    (m >>= f).logged.course surroundings ≤ (m' >>= f').logged.course surroundings := by
  rw [logged_bind, logged_bind]
  refine course_bind_le hm fun acts a rest hok => ?_
  rcases hcourse : m.course surroundings with ⟨acts', ending, rest'⟩
  obtain ⟨-, rfl, rfl⟩ := Course.mk.inj ((logged_of_course hcourse).symm.trans hok)
  exact hf acts' a rest' hcourse

/-- An evaluation that has a result has the same one with more fuel. -/
theorem course_of_le {m m' : Evaluation σ α} (h : m ≤ m') {surroundings rest : Surroundings σ}
    {acts : List (Act σ)} {a : α} (hm : m.course surroundings = ⟨acts, .ok a, rest⟩) :
    m'.course surroundings = ⟨acts, .ok a, rest⟩ := by
  rw [← hm]
  exact (Course.eq_of_le (h surroundings) (by simp [hm])).symm

/-- What comes of two evaluations in a row came of both. -/
theorem bind_eq_ok {m : Evaluation σ α} {f : α → Evaluation σ β}
    {surroundings rest : Surroundings σ} {acts : List (Act σ)} {b : β}
    (h : (m >>= f).course surroundings = ⟨acts, .ok b, rest⟩) :
    ∃ first a between second, m.course surroundings = ⟨first, .ok a, between⟩ ∧
      (f a).course between = ⟨second, .ok b, rest⟩ := by
  rcases hm : m.course surroundings with ⟨first, halt | a, between⟩
  · simp [bind_of_error hm] at h
  · rw [bind_of_ok hm] at h
    rcases hf : (f a).course between with ⟨second, ending, rest'⟩
    rw [hf] at h
    obtain ⟨-, rfl, rfl⟩ := Course.mk.inj h
    exact ⟨first, a, between, second, rfl, hf⟩

/-! ## With enough fuel -/

/-- Whatever is logged of the evaluation in the surroundings is logged of one of the others, each of
which has some fuel, and it ends as that one does or is cut short. -/
def Within (m : Evaluation σ α) (others : Nat → Evaluation σ α)
    (surroundings : Surroundings σ) : Prop :=
  ∃ fuel, m.logged.course surroundings ≤ (others fuel).logged.course surroundings

namespace Within

variable {m m' : Evaluation σ α} {others others' : Nat → Evaluation σ α}
  {surroundings rest : Surroundings σ}

/-- An evaluation lies within those above it. -/
theorem of_le (fuel : Nat) (h : m.course surroundings ≤ (others fuel).course surroundings) :
    m.Within others surroundings :=
  ⟨fuel, Course.logged_le_logged h⟩

/-- So does one that does the same. -/
protected theorem refl (m : Evaluation σ α) (surroundings : Surroundings σ) :
    m.Within (fun _ => m) surroundings :=
  .of_le 0 le_rfl

/-- What is cut short at once lies within anything. -/
theorem unfinished : (halt .unfinished).Within others surroundings :=
  .of_le 0 (unfinished_le _ surroundings)

/-- What lies below an evaluation lies within the same. -/
theorem of_logged_le (hle : m'.logged.course surroundings ≤ m.logged.course surroundings)
    (h : m.Within others surroundings) : m'.Within others surroundings := by
  obtain ⟨fuel, hfuel⟩ := h
  exact ⟨fuel, hle.trans hfuel⟩

/-- What each of the others lies within, the evaluation lies within. -/
theorem trans (h : m.Within others surroundings)
    (hothers : ∀ fuel, (others fuel).Within others' surroundings) :
    m.Within others' surroundings := by
  obtain ⟨fuel, hfuel⟩ := h
  exact (hothers fuel).of_logged_le hfuel

/-- The same where each of the others lies below one with more fuel. -/
theorem mono (h : m.Within others surroundings)
    (hothers : ∀ fuel, ∃ more, others fuel ≤ others' more) : m.Within others' surroundings := by
  refine h.trans fun fuel => ?_
  obtain ⟨more, hmore⟩ := hothers fuel
  exact .of_le more (hmore surroundings)

/-- The result is found by the others as well. -/
theorem exists_course (h : m.Within others surroundings) {acts : List (Act σ)} {a : α}
    (hm : m.course surroundings = ⟨acts, .ok a, rest⟩) :
    ∃ fuel acts', (others fuel).course surroundings = ⟨acts', .ok a, rest⟩ := by
  obtain ⟨fuel, hfuel⟩ := h
  exact ⟨fuel, exists_course_of_logged_le hfuel hm⟩

/-- What is done before on both sides makes no difference. -/
theorem after {acts : List (Act σ)} (h : m.Within others rest)
    (hm : m'.course surroundings = (m.course rest).after acts)
    (hothers : ∀ fuel, (others' fuel).course surroundings =
      ((others fuel).course rest).after acts) : m'.Within others' surroundings := by
  obtain ⟨fuel, hfuel⟩ := h
  refine ⟨fuel, ?_⟩
  change (m'.course surroundings).logged ≤ ((others' fuel).course surroundings).logged
  rw [hm, hothers, Course.logged_after, Course.logged_after]
  exact Course.after_le_after _ hfuel

/-- Two evaluations in a row lie within others in a row if the first one does and, for its result,
the second one. -/
theorem bind {f : α → Evaluation σ β} {next : Nat → α → Evaluation σ β}
    (hm : m.Within others surroundings) (hothers : Monotone others)
    (hnext : ∀ a, Monotone fun fuel => next fuel a)
    (hf : ∀ fuel acts acts' a rest, m.course surroundings = ⟨acts, .ok a, rest⟩ →
      (others fuel).course surroundings = ⟨acts', .ok a, rest⟩ →
        (f a).Within (fun fuel => next fuel a) rest) :
    (m >>= f).Within (fun fuel => others fuel >>= next fuel) surroundings := by
  obtain ⟨fuel, hfuel⟩ := hm
  rcases hcourse : m.course surroundings with ⟨acts, halt | a, rest⟩
  · -- Nothing follows the first part.
    refine ⟨fuel, logged_bind_le hfuel fun acts' a rest' hok => ?_⟩
    simp [hcourse] at hok
  · obtain ⟨acts', hcourse'⟩ := exists_course_of_logged_le hfuel hcourse
    obtain ⟨more, hmore⟩ := hf fuel acts acts' a rest hcourse hcourse'
    refine ⟨max fuel more, ?_⟩
    have hfirst := logged_le_logged (hothers (le_max_left fuel more)) surroundings
    have hsecond := logged_le_logged (hnext a (le_max_right fuel more)) rest
    refine logged_bind_le (hfuel.trans hfirst) fun acts'' b rest' hok => ?_
    obtain ⟨-, hresult, rfl⟩ := Course.mk.inj (hcourse.symm.trans hok)
    obtain rfl := Except.ok.inj hresult
    exact hmore.trans hsecond

/-- The same where what follows the first part is the same on both sides. -/
theorem bind_same {f : α → Evaluation σ β} (hm : m.Within others surroundings)
    (hothers : Monotone others) :
    (m >>= f).Within (fun fuel => others fuel >>= f) surroundings :=
  hm.bind hothers (fun _ => monotone_const) fun _ _ _ a rest _ _ => .refl (f a) rest

/-- The same where the first part is the same on both sides. -/
theorem same_bind {f : α → Evaluation σ β} {next : Nat → α → Evaluation σ β}
    (hnext : ∀ a, Monotone fun fuel => next fuel a)
    (hf : ∀ acts a rest, m.course surroundings = ⟨acts, .ok a, rest⟩ →
      (f a).Within (fun fuel => next fuel a) rest) :
    (m >>= f).Within (fun fuel => m >>= next fuel) surroundings :=
  (Within.refl m surroundings).bind monotone_const hnext fun _ acts _ a rest hm _ =>
    hf acts a rest hm

end Within

end Evaluation

end EffectPrograms

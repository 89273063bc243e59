import EffectPrograms.Proofs.Acts
import Mathlib.Order.Basic

/-!
# Courses

A course is what can be seen of a run from outside: the acts in order, how it ended, and what it
left of its surroundings. Courses of runs that are cut short are ordered: `a ≤ b` says that `a` is
`b`, or was cut short while it was about to become `b`. Two families of ever longer courses describe
the same run, finite or not, just if each course of the one lies below a course of the other.
-/

namespace EffectPrograms

/-- What a run finds outside, apart from deferred steps and interpreters. -/
structure Surroundings (σ : Type) where
  world : σ
  /-- What the coming io deliver in order, each with the world after it. -/
  deliveries : List (Except Fault Value × σ)

/-- Why a run has no outcome. -/
inductive Halt where
  /-- A fault aborted it. -/
  | fault (f : Fault)
  /-- It waits for an io, and there is no delivery left. -/
  | awaiting
  /-- It was cut short. -/
  | unfinished

/-- What can be seen of a run from outside. -/
structure Course (σ α : Type) where
  /-- What was done, in order. -/
  acts : List (Act σ)
  ending : Except Halt α
  /-- What the run left of its surroundings. -/
  surroundings : Surroundings σ

variable {σ α : Type}

namespace Course

/-- The course as the last part of a longer one. -/
def after (acts : List (Act σ)) (c : Course σ α) : Course σ α := { c with acts := acts ++ c.acts }

/-- Nothing is done before. -/
@[simp] theorem after_nil (c : Course σ α) : c.after [] = c := rfl

/-- Before a course in which nothing is done only the acts before are seen. -/
theorem after_nothing (acts : List (Act σ)) (ending : Except Halt α)
    (surroundings : Surroundings σ) :
    (⟨[], ending, surroundings⟩ : Course σ α).after acts = ⟨acts, ending, surroundings⟩ := by
  rw [after, List.append_nil]

/-- What is done in two parts is done in one. -/
theorem after_after (first second : List (Act σ)) (c : Course σ α) :
    (c.after second).after first = c.after (first ++ second) := by
  simp [after]

/-- A course is equal to another or was cut short before. -/
instance : Preorder (Course σ α) where
  le a b := a = b ∨ a.ending = .error .unfinished ∧ a.acts <+: b.acts
  le_refl a := .inl rfl
  le_trans a b c hab hbc := by
    rcases hab with rfl | ⟨hend, hacts⟩
    · exact hbc
    · rcases hbc with rfl | ⟨-, hacts'⟩
      · exact .inr ⟨hend, hacts⟩
      · exact .inr ⟨hend, hacts.trans hacts'⟩

/-- A course that was not cut short lies below no other. -/
theorem eq_of_le {a b : Course σ α} (h : a ≤ b) (hend : a.ending ≠ .error .unfinished) : a = b := by
  rcases h with rfl | ⟨hcut, -⟩
  · rfl
  · exact absurd hcut hend

/-- A course that was cut short after its first acts lies below. -/
theorem le_of_cut {a b : Course σ α} (hend : a.ending = .error .unfinished)
    (hacts : a.acts <+: b.acts) : a ≤ b := .inr ⟨hend, hacts⟩

/-- What is done before does not change the order. -/
theorem after_le_after {a b : Course σ α} (acts : List (Act σ)) (h : a ≤ b) :
    a.after acts ≤ b.after acts := by
  rcases h with rfl | ⟨hend, hacts⟩
  · exact le_rfl
  · exact .inr ⟨hend, (List.prefix_append_right_inj _).2 hacts⟩

/-! ## Families of courses -/

/-- Two families of ever longer courses describe the same run: each course of the one lies below a
course of the other. -/
def SameRun {ι κ : Type} (a : ι → Course σ α) (b : κ → Course σ α) : Prop :=
  (∀ i, ∃ k, a i ≤ b k) ∧ ∀ k, ∃ i, b k ≤ a i

namespace SameRun

variable {ι κ μ : Type} {a : ι → Course σ α} {b : κ → Course σ α} {c : μ → Course σ α}

/-- A third family that describes the same run as the second one does so with the first one. -/
theorem trans (hab : SameRun a b) (hbc : SameRun b c) : SameRun a c := by
  refine ⟨fun i => ?_, fun m => ?_⟩
  · obtain ⟨k, hk⟩ := hab.1 i
    obtain ⟨m, hm⟩ := hbc.1 k
    exact ⟨m, hk.trans hm⟩
  · obtain ⟨k, hk⟩ := hbc.2 m
    obtain ⟨i, hi⟩ := hab.2 k
    exact ⟨i, hk.trans hi⟩

/-- How the run ends is found in the one family just if it is in the other. -/
theorem ended_iff (h : SameRun a b) {course : Course σ α}
    (hended : course.ending ≠ .error .unfinished) :
    (∃ i, a i = course) ↔ ∃ k, b k = course := by
  constructor
  · rintro ⟨i, rfl⟩
    obtain ⟨k, hk⟩ := h.1 i
    exact ⟨k, (eq_of_le hk hended).symm⟩
  · rintro ⟨k, rfl⟩
    obtain ⟨i, hi⟩ := h.2 k
    exact ⟨i, (eq_of_le hi hended).symm⟩

end SameRun

end Course

end EffectPrograms

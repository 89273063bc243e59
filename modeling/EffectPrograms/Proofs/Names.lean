import EffectPrograms.Execution.Step
import Mathlib.Data.List.Nodup

/-!
# Names that can be bound

A step is checked for its name when it starts, and its value is bound much later: after a chain of
answers, an io or a whole nested composite. `Environment.Free` is what the check establishes
(`Step.unwrap_free`) and what binding needs: where it holds, `bindAs` cannot fail, and the
environment it gives is `Environment.bound` (`Free.bindAs`). Names that are checked in this way stay
distinct and not empty (`Free.wellNamed`).
-/

namespace EffectPrograms

variable {σ : Type}

namespace Environment

/-- The name, if there is one, can be bound. -/
def Free (env : Environment) (binding : Option String) : Prop :=
  ∀ name ∈ binding, name ≠ "" ∧ env.contains name = false

/-- The environment after a value is bound, if it is bound at all. -/
def bound (env : Environment) (binding : Option String) (v : Value) : Environment :=
  match binding with
  | none => env
  | some name => ⟨env.bindings ++ [(name, v)]⟩

/-- All names are different and none is empty. -/
def WellNamed (env : Environment) : Prop :=
  env.bindings.names.Nodup ∧ "" ∉ env.bindings.names

/-- A step whose value is dropped needs no name. -/
theorem free_none (env : Environment) : env.Free none := by
  simp [Free]

/-- A name is accepted just if it is the outermost one and free. -/
theorem accept_eq_ok_iff {env : Environment} {outer : Option String} {name : String} :
    env.accept outer name = .ok () ↔ outer = none ∧ env.Free (some name) := by
  cases outer with
  | some outer => simp [accept]
  | none =>
    by_cases hempty : name = ""
    · simp [accept, Free, hempty]
    · cases h : env.contains name <;> simp [accept, Free, hempty, h]

/-- A free name can be bound. -/
theorem Free.bindAs {env : Environment} {binding : Option String} (h : env.Free binding)
    (v : Value) : env.bindAs binding v = .ok (env.bound binding v) := by
  cases binding with
  | none => rfl
  | some name => exact bind_eq_ok_iff.2 ⟨(h name rfl).2, rfl⟩

/-- A value is bound, or its name is taken. -/
theorem bindAs_cases (env : Environment) (binding : Option String) (v : Value) :
    env.bindAs binding v = .ok (env.bound binding v) ∨
      ∃ name ∈ binding, env.contains name = true ∧
        env.bindAs binding v = .error (.nameTaken name) := by
  cases binding with
  | none => exact .inl rfl
  | some name =>
    cases htaken : env.contains name with
    | false => exact .inl (by simp [bindAs, bind, bound, htaken])
    | true => exact .inr ⟨name, rfl, htaken, by simp [bindAs, bind, htaken]⟩

/-- If a value is bound at all, this is the environment after it. -/
theorem eq_bound_of_bindAs {env next : Environment} {binding : Option String} {v : Value}
    (h : env.bindAs binding v = .ok next) : next = env.bound binding v := by
  rcases env.bindAs_cases binding v with hbound | ⟨name, -, -, htaken⟩
  · exact Except.ok.inj (h.symm.trans hbound)
  · rw [htaken] at h
    simp at h

/-- Binding a free name keeps the names distinct and not empty. -/
theorem Free.wellNamed {env : Environment} {binding : Option String} (h : env.Free binding)
    (hnames : env.WellNamed) (v : Value) : (env.bound binding v).WellNamed := by
  cases binding with
  | none => exact hnames
  | some name =>
    obtain ⟨hne, hfresh⟩ := h name rfl
    have hnew : name ∉ env.bindings.names := by
      rw [← Entries.contains_iff]
      simpa [contains] using hfresh
    have hsplit : (env.bound (some name) v).bindings.names = env.bindings.names ++ [name] := by
      simp [bound, Entries.names]
    constructor
    · rw [hsplit, List.nodup_append_comm]
      exact List.nodup_cons.2 ⟨hnew, hnames.1⟩
    · rw [hsplit]
      simpa [hnames.2] using Ne.symm hne

/-- A name that is not bound is still not if another one is bound. -/
theorem contains_bound {env : Environment} {binding : Option String} {name : String}
    (h : env.contains name = false) (hne : binding ≠ some name) (v : Value) :
    (env.bound binding v).contains name = false := by
  cases binding with
  | none => exact h
  | some other =>
    have hother : name ≠ other := fun heq => hne (congrArg some heq.symm)
    have hlookup : env.bindings.lookup name = none := by
      simpa [contains, Entries.contains, Entries.get?] using h
    simp [contains, Entries.contains, Entries.get?, bound, List.lookup_append, hlookup,
      List.lookup_cons, beq_false_of_ne hother]

/-- A name that is bound stays so if another one is bound. -/
theorem contains_bound_of_contains {env : Environment} {name : String}
    (h : env.contains name = true) (binding : Option String) (v : Value) :
    (env.bound binding v).contains name = true := by
  cases binding with
  | none => exact h
  | some other =>
    have hname : name ∈ env.bindings.names := (Entries.contains_iff _ _).1 h
    have hsplit : (env.bound (some other) v).bindings.names = env.bindings.names ++ [other] := by
      simp [bound, Entries.names]
    exact (Entries.contains_iff _ _).2 (hsplit ▸ List.mem_append_left _ hname)

/-- Nothing is bound in an environment at its start. -/
theorem wellNamed_empty : empty.WellNamed := by
  simp [WellNamed, empty, Entries.names]

end Environment

/-- A step that makes an operation, with a name for its value or without. -/
def Step.named (binding : Option String) (o : Operation σ) : Step σ :=
  match binding with
  | none => .op o
  | some name => .bind name (.op o)

/-- If the name is free, the step is unwrapped to its operation. -/
theorem Step.unwrap_named {env : Environment} {binding : Option String} (h : env.Free binding)
    (o : Operation σ) (world : σ) :
    (Step.named binding o).unwrap env none world = (.ok (binding, o), world) := by
  cases binding with
  | none => rfl
  | some name =>
    have haccept : env.accept none name = .ok () :=
      Environment.accept_eq_ok_iff.2 ⟨rfl, h⟩
    rw [named, unwrap, haccept, unwrap]

/-- The name is accepted or refused, whatever the operation. -/
theorem Step.unwrap_named_cases (env : Environment) (binding : Option String) :
    (∀ (o : Operation σ) (world : σ),
      (Step.named binding o).unwrap env none world = (.ok (binding, o), world)) ∨
    ∃ f, ∀ (o : Operation σ) (world : σ),
      (Step.named binding o).unwrap env none world = (.error f, world) := by
  cases binding with
  | none => exact .inl fun _ _ => rfl
  | some name =>
    cases haccept : env.accept none name with
    | ok u => exact .inl (Step.unwrap_named (Environment.accept_eq_ok_iff.1 haccept).2)
    | error f =>
      refine .inr ⟨f, fun o world => ?_⟩
      rw [named, unwrap, haccept]

mutual

/-- The name that a step is unwrapped with is free: either the step has it from the outside, or it
was checked on the way. -/
theorem Step.unwrap_free {env : Environment} {binding found : Option String} {world world' : σ}
    {o : Operation σ} (s : Step σ) (hbinding : env.Free binding)
    (h : s.unwrap env binding world = (.ok (found, o), world')) : env.Free found := by
  cases s with
  | op o =>
    simp only [Step.unwrap, Prod.mk.injEq, Except.ok.injEq] at h
    obtain ⟨⟨rfl, -⟩, -⟩ := h
    exact hbinding
  | bind name inner =>
    simp only [Step.unwrap] at h
    cases haccept : env.accept binding name with
    | error f => simp [haccept] at h
    | ok u =>
      rw [haccept] at h
      exact inner.unwrap_free (Environment.accept_eq_ok_iff.1 haccept).2 h
  | deferred f =>
    simp only [Step.unwrap] at h
    exact (f env world).unwrap_free hbinding h

/-- The same for the step that a deferred step comes to. -/
theorem Deferral.unwrap_free {env : Environment} {binding found : Option String} {world' : σ}
    {o : Operation σ} (d : Deferral σ) (hbinding : env.Free binding)
    (h : d.unwrap env binding = (.ok (found, o), world')) : env.Free found := by
  cases d with
  | fault f world => simp [Deferral.unwrap] at h
  | yields s world =>
    simp only [Deferral.unwrap] at h
    exact s.unwrap_free hbinding h

end

end EffectPrograms

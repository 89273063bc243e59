import EffectPrograms.Proofs.Answers
import EffectPrograms.Proofs.Dialogue
import Mathlib.Data.List.Forall2

/-!
# Interpreters that are alike

Two registries are alike if they have the same structure and their handlers do alike: given passes
that are alike they fail in the same way, or give answers that are alike, and leave passes that are
alike, in the same world. A `Likeness` says which answers and which replacements are alike. All that
it has to fit is how a fan-out puts answers together. Registries that are alike then dispatch every
request alike (`Registry.Alike.dispatch_cases`), through any nesting of fan-outs.

A handler whose computation is a `Dialogue` does like any other that makes the same uses of what it
is lent, with steps and a result that are alike (`Dialogue.Alike.run`).
-/

namespace EffectPrograms

variable {σ ε α β : Type}

/-- Both computations fail in the same way, or both have a result, and the results are related. -/
inductive Agree (R : α → β → Prop) : Except ε α → Except ε β → Prop where
  | ok {a : α} {b : β} : R a b → Agree R (.ok a) (.ok b)
  | error (f : ε) : Agree R (.error f) (.error f)

/-- How two computations agree. -/
theorem Agree.elim {R : α → β → Prop} {m : Except ε α} {n : Except ε β} (h : Agree R m n) :
    (∃ a b, m = .ok a ∧ n = .ok b ∧ R a b) ∨ ∃ f, m = .error f ∧ n = .error f := by
  cases h with
  | ok hab => exact .inl ⟨_, _, rfl, rfl, hab⟩
  | error f => exact .inr ⟨f, rfl, rfl⟩

/-- Results that agree still do so after they have gone through functions that keep them related. -/
theorem Agree.bind {α' β' : Type} {R : α → β → Prop} {S : α' → β' → Prop} {m : Except ε α}
    {n : Except ε β} (h : Agree R m n) {f : α → Except ε α'} {g : β → Except ε β'}
    (hfg : ∀ a b, R a b → Agree S (f a) (g b)) : Agree S (m >>= f) (n >>= g) := by
  cases h with
  | ok hab => exact hfg _ _ hab
  | error fault => exact .error fault

/-- What is made of results that agree agrees if it is related for related results. -/
theorem Agree.map {α' β' : Type} {R : α → β → Prop} {S : α' → β' → Prop} {m : Except ε α}
    {n : Except ε β} (h : Agree R m n) {f : α → α'} {g : β → β'}
    (hfg : ∀ a b, R a b → S (f a) (g b)) : Agree S (m.map f) (n.map g) := by
  cases h with
  | ok hab => exact .ok (hfg _ _ hab)
  | error fault => exact .error fault

/-- Results agree as well after failures have been put in another way. -/
theorem Agree.mapError {ε' : Type} {R : α → β → Prop} {m : Except ε α} {n : Except ε β}
    (h : Agree R m n) (f : ε → ε') : Agree R (m.mapError f) (n.mapError f) := by
  cases h with
  | ok hab => exact .ok hab
  | error fault => exact .error (f fault)

/-- Two computations agree in one order if they do in the other. -/
theorem Agree.flip {R : α → β → Prop} {m : Except ε α} {n : Except ε β} (h : Agree R m n) :
    Agree (flip R) n m := by
  cases h with
  | ok hab => exact .ok hab
  | error fault => exact .error fault

/-- Computations with results that are related agree as well in any wider relation. -/
theorem Agree.mono {R S : α → β → Prop} (hRS : ∀ a b, R a b → S a b) {m : Except ε α}
    {n : Except ε β} (h : Agree R m n) : Agree S m n := by
  cases h with
  | ok hab => exact .ok (hRS _ _ hab)
  | error fault => exact .error fault

/-- What tables with the same keys and related values have for a key is related. -/
theorem rel_lookup {R : α → β → Prop} {entries : List (String × α)} {entries' : List (String × β)}
    (h : List.Forall₂ (fun entry entry' => entry.1 = entry'.1 ∧ R entry.2 entry'.2) entries
      entries')
    (key : String) : Option.Rel R (entries.lookup key) (entries'.lookup key) := by
  induction h with
  | nil => exact .none
  | @cons entry entry' rest rest' hentry _ ih =>
    obtain ⟨name, a⟩ := entry
    obtain ⟨name', b⟩ := entry'
    obtain ⟨rfl, hab⟩ := hentry
    rw [List.lookup_cons, List.lookup_cons]
    cases key == name with
    | true => exact .some hab
    | false => exact ih

/-- Which answers are alike, and which steps that are to replace the rest of a composite. -/
structure Likeness (σ : Type) where
  answers : Answer σ → Answer σ → Prop
  steps : List (Step σ) → List (Step σ) → Prop
  /-- A fan-out puts answers that are alike into sequences that are alike. -/
  combine : ∀ name given given', List.Forall₂ answers given given' →
    answers (.sequence (FanOut.combine name given)) (.sequence (FanOut.combine name given'))

variable (l : Likeness σ)

/-- The passes are in the same world, and alike in what is to replace the rest of the composite. -/
structure Pass.Alike (pass pass' : Pass σ) : Prop where
  world : pass.world = pass'.world
  replacement : Option.Rel l.steps pass.replacement pass'.replacement

/-- Two computations of a handler or of an interpreter do alike on passes that are alike. -/
def DoAlike (R : α → β → Prop) (m : ExceptT ε (StateM (Pass σ)) α)
    (n : ExceptT ε (StateM (Pass σ)) β) : Prop :=
  ∀ pass pass', pass.Alike l pass' → Agree R (m pass).1 (n pass').1 ∧ (m pass).2.Alike l (n pass').2

/-- Two handlers do alike with every request. -/
def Handler.Alike (handler handler' : Handler σ) : Prop :=
  ∀ r, DoAlike l l.answers (handler r) (handler' r)

mutual

/-- Two interpreters have the same structure, and their handlers do alike. -/
inductive Interpreter.Alike : Interpreter σ → Interpreter σ → Prop where
  | table (algebra : String) {handlers handlers' : List (String × Handler σ)} :
      List.Forall₂ (fun entry entry' => entry.1 = entry'.1 ∧ Handler.Alike l entry.2 entry'.2)
        handlers handlers' → Interpreter.Alike (.table algebra handlers) (.table algebra handlers')
  | typed (algebra : String) {handle handle' : Request → Except Fault (Handling σ (Answer σ))} :
      (∀ r, Agree (DoAlike l l.answers) (handle r) (handle' r)) →
        Interpreter.Alike (.typed algebra handle) (.typed algebra handle')
  | fanOut (algebra name : String) {branches branches' : List (Interpreter σ)} :
      Interpreter.AlikeEach branches branches' →
        Interpreter.Alike (.fanOut algebra name branches) (.fanOut algebra name branches')

/-- The same for each of several interpreters. -/
inductive Interpreter.AlikeEach : List (Interpreter σ) → List (Interpreter σ) → Prop where
  | nil : Interpreter.AlikeEach [] []
  | cons {i i' : Interpreter σ} {later later' : List (Interpreter σ)} :
      Interpreter.Alike i i' → Interpreter.AlikeEach later later' →
        Interpreter.AlikeEach (i :: later) (i' :: later')

end

/-- The interpreters of two registries are alike, in the same order. -/
def Registry.Alike (registry registry' : Registry σ) : Prop :=
  Interpreter.AlikeEach l registry.interpreters registry'.interpreters

/-! ## Dispatching -/

variable {l}

/-- Handlers that do alike do so as parts of a dispatch. -/
theorem DoAlike.dispatching {R : α → β → Prop} {h : Handling σ α} {h' : Handling σ β}
    (hdo : DoAlike l R h h') (r : Request) : DoAlike l R (h.dispatching r) (h'.dispatching r) := by
  intro pass pass' hpass
  obtain ⟨hresult, hnext⟩ := hdo pass pass' hpass
  exact ⟨hresult.mapError (Failure.toFault r), hnext⟩

/-- What follows computations that do alike does alike. -/
theorem DoAlike.bind {α' β' : Type} {R : α → β → Prop} {S : α' → β' → Prop}
    {m : Dispatching σ α} {n : Dispatching σ β} (hmn : DoAlike l R m n)
    {f : α → Dispatching σ α'} {g : β → Dispatching σ β'}
    (hfg : ∀ a b, R a b → DoAlike l S (f a) (g b)) : DoAlike l S (m >>= f) (n >>= g) := by
  intro pass pass' hpass
  obtain ⟨hresult, hnext⟩ := hmn pass pass' hpass
  rcases hm : m pass with ⟨result, next⟩
  rcases hn : n pass' with ⟨result', next'⟩
  rw [hm, hn] at hresult hnext
  cases hresult with
  | ok hab =>
    rw [Dispatching.bind_of_ok hm, Dispatching.bind_of_ok hn]
    exact hfg _ _ hab _ _ hnext
  | error f =>
    rw [Dispatching.bind_of_error hm, Dispatching.bind_of_error hn]
    exact ⟨.error f, hnext⟩

/-- Results that are related are computed alike. -/
theorem DoAlike.pure {R : α → β → Prop} {a : α} {b : β} (hab : R a b) :
    DoAlike l R (pure a : ExceptT ε (StateM (Pass σ)) α) (pure b) :=
  fun _ _ hpass => ⟨.ok hab, hpass⟩

/-- The same failure is alike. -/
theorem DoAlike.throw {R : α → β → Prop} (f : ε) :
    DoAlike l R (throw f : ExceptT ε (StateM (Pass σ)) α) (throw f) :=
  fun _ _ hpass => ⟨.error f, hpass⟩

namespace Interpreter

/-- Interpreters that are alike serve the same algebra. -/
theorem Alike.algebra_eq {i i' : Interpreter σ} (h : i.Alike l i') : i.algebra = i'.algebra := by
  cases h <;> rfl

mutual

/-- Interpreters that are alike do alike. -/
theorem Alike.interpret {i i' : Interpreter σ} (h : i.Alike l i') (r : Request) :
    DoAlike l l.answers (i.interpret r) (i'.interpret r) := by
  cases h with
  | table algebra hhandlers =>
    rw [Interpreter.interpret, Interpreter.interpret]
    by_cases hforeign : r.algebra = algebra
    · rw [if_neg (not_not_intro hforeign), if_neg (not_not_intro hforeign)]
      have hlookup := rel_lookup hhandlers r.operation
      revert hlookup
      generalize List.lookup r.operation _ = found
      generalize List.lookup r.operation _ = found'
      rintro (hdo | -)
      · exact (hdo r).dispatching r
      · exact .throw _
    · rw [if_pos hforeign, if_pos hforeign]
      exact .throw _
  | typed algebra hhandle =>
    rw [Interpreter.interpret, Interpreter.interpret]
    rcases (hhandle r).elim with ⟨run, run', hrun, hrun', hdo⟩ | ⟨f, hrun, hrun'⟩
    · rw [hrun, hrun']
      exact hdo.dispatching r
    · rw [hrun, hrun']
      exact .throw f
  | fanOut algebra name hbranches =>
    rw [Interpreter.interpret, Interpreter.interpret]
    refine (hbranches.interpretEach r).bind fun given given' hgiven => ?_
    exact .pure (l.combine name given given' hgiven)

/-- So do lists of interpreters that are alike. -/
theorem AlikeEach.interpretEach {branches branches' : List (Interpreter σ)}
    (h : AlikeEach l branches branches') (r : Request) :
    DoAlike l (List.Forall₂ l.answers) (interpretEach branches r) (interpretEach branches' r) := by
  cases h with
  | nil => exact .pure .nil
  | cons hfirst hlater =>
    rw [Interpreter.interpretEach, Interpreter.interpretEach]
    refine (hfirst.interpret r).bind fun answer answer' hanswer => ?_
    refine (hlater.interpretEach r).bind fun given given' hgiven => ?_
    exact .pure (.cons hanswer hgiven)

end

/-- Of lists of interpreters that are alike, what is found for an algebra is alike. -/
theorem AlikeEach.find? {interpreters interpreters' : List (Interpreter σ)}
    (h : AlikeEach l interpreters interpreters') (algebra : String) :
    Option.Rel (Interpreter.Alike l) (interpreters.find? fun i => i.algebra == algebra)
      (interpreters'.find? fun i => i.algebra == algebra) := by
  cases h with
  | nil => exact .none
  | cons hfirst hlater =>
    have halgebra := hfirst.algebra_eq
    rw [List.find?_cons, List.find?_cons, halgebra]
    split
    · exact .some hfirst
    · exact hlater.find? algebra

end Interpreter

namespace Registry.Alike

variable {registry registry' : Registry σ}

/-- Registries that are alike have interpreters that are alike for an algebra, or neither has one.
-/
theorem find?_cases (h : registry.Alike l registry') (algebra : String) :
    (∃ i i', registry.find? algebra = some i ∧ registry'.find? algebra = some i' ∧ i.Alike l i') ∨
      registry.find? algebra = none ∧ registry'.find? algebra = none := by
  have hfind : Option.Rel (Interpreter.Alike l) (registry.find? algebra)
      (registry'.find? algebra) := Interpreter.AlikeEach.find? h algebra
  revert hfind
  generalize registry.find? algebra = found
  generalize registry'.find? algebra = found'
  rintro (hi | -)
  · exact .inl ⟨_, _, rfl, rfl, hi⟩
  · exact .inr ⟨rfl, rfl⟩

/-- Registries that are alike dispatch every request alike: they give answers and replacements that
are alike, or fail in the same way, and leave the same world. -/
theorem dispatch_cases (h : registry.Alike l registry') (r : Request) (world : σ) :
    (∃ answer answer' replacement replacement' world',
      registry.dispatch r world = (.ok (answer, replacement), world') ∧
        registry'.dispatch r world = (.ok (answer', replacement'), world') ∧
        l.answers answer answer' ∧ Option.Rel l.steps replacement replacement') ∨
    ∃ f world', registry.dispatch r world = (.error f, world') ∧
      registry'.dispatch r world = (.error f, world') := by
  unfold dispatch
  rcases h.find?_cases r.algebra with ⟨i, i', hi, hi', halike⟩ | ⟨hi, hi'⟩
  · rw [hi, hi']
    have hpass : Pass.Alike l { world } { world } := ⟨rfl, .none⟩
    obtain ⟨hresult, hnext⟩ := halike.interpret r _ _ hpass
    rcases hm : i.interpret r { world } with ⟨result, pass⟩
    rcases hm' : i'.interpret r { world } with ⟨result', pass'⟩
    rw [hm, hm'] at hresult hnext
    have hworld : pass.world = pass'.world := hnext.world
    dsimp only
    rw [hm, hm']
    dsimp only
    rw [hworld]
    rcases hresult.elim with ⟨answer, answer', rfl, rfl, hanswer⟩ | ⟨f, rfl, rfl⟩
    · exact .inl ⟨_, _, _, _, _, rfl, rfl, hanswer, hnext.replacement⟩
    · exact .inr ⟨_, _, rfl, rfl⟩
  · rw [hi, hi']
    exact .inr ⟨_, _, rfl, rfl⟩

/-- A request that fails over both registries is given to an interpreter over both, or over
neither. -/
theorem acts_of_dispatch_error (h : registry.Alike l registry') {r : Request} {world world' : σ}
    {f : Fault} (hd : registry.dispatch r world = (.error f, world'))
    (hd' : registry'.dispatch r world = (.error f, world')) :
    registry'.acts 1 r world = registry.acts 1 r world := by
  unfold Registry.acts
  rw [hd, hd']
  rcases h.find?_cases r.algebra with ⟨i, i', hi, hi', -⟩ | ⟨hi, hi'⟩
  · rw [hi, hi']
  · rw [hi, hi']

end Registry.Alike

/-! ## Either way round -/

variable (l) in
/-- It does not matter which answers and which steps come first. -/
structure Likeness.Symmetric : Prop where
  answers : ∀ {answer answer'}, l.answers answer answer' → l.answers answer' answer
  steps : ∀ {steps steps'}, l.steps steps steps' → l.steps steps' steps

/-- Passes that are alike are so the other way round. -/
theorem Pass.Alike.symm (hsymm : l.Symmetric) {pass pass' : Pass σ} (h : pass.Alike l pass') :
    pass'.Alike l pass := by
  refine ⟨h.world.symm, ?_⟩
  have hreplacement := h.replacement
  generalize pass.replacement = replacement at hreplacement
  generalize pass'.replacement = replacement' at hreplacement
  cases hreplacement with
  | some hsteps => exact .some (hsymm.steps hsteps)
  | none => exact .none

/-- Handlers that do alike do so the other way round. -/
theorem DoAlike.symm (hsymm : l.Symmetric) {m n : ExceptT ε (StateM (Pass σ)) (Answer σ)}
    (h : DoAlike l l.answers m n) : DoAlike l l.answers n m := by
  intro pass pass' hpass
  obtain ⟨hresult, hnext⟩ := h pass' pass (hpass.symm hsymm)
  exact ⟨hresult.flip.mono fun _ _ => hsymm.answers, hnext.symm hsymm⟩

mutual

/-- Interpreters that are alike are so the other way round. -/
theorem Interpreter.Alike.symm (hsymm : l.Symmetric) {i i' : Interpreter σ} (h : i.Alike l i') :
    i'.Alike l i := by
  cases h with
  | table algebra hhandlers =>
    refine .table algebra ((List.Forall₂.flip hhandlers).imp fun entry entry' hentry => ?_)
    exact ⟨hentry.1.symm, fun r => (hentry.2 r).symm hsymm⟩
  | typed algebra hhandle =>
    exact .typed algebra fun r => (hhandle r).flip.mono fun _ _ hdo => hdo.symm hsymm
  | fanOut algebra name hbranches => exact .fanOut algebra name (hbranches.symm hsymm)

/-- So are lists of them. -/
theorem Interpreter.AlikeEach.symm (hsymm : l.Symmetric) {branches branches' : List (Interpreter σ)}
    (h : AlikeEach l branches branches') : AlikeEach l branches' branches := by
  cases h with
  | nil => exact .nil
  | cons hfirst hlater => exact .cons (hfirst.symm hsymm) (hlater.symm hsymm)

end

/-- Registries that are alike are so the other way round. -/
theorem Registry.Alike.symm (hsymm : l.Symmetric) {registry registry' : Registry σ}
    (h : registry.Alike l registry') : registry'.Alike l registry :=
  Interpreter.AlikeEach.symm hsymm h

/-! ## Handlers that are alike -/

namespace Dialogue

variable (l) in
/-- Two dialogues make the same uses of the world and of the pass, except that they ask for
replacements and come to results that are alike. -/
inductive Alike (R : α → β → Prop) : Dialogue σ α → Dialogue σ β → Prop where
  | finish {a : α} {b : β} : R a b → Alike R (.finish a) (.finish b)
  | fail (x : Failure) : Alike R (.fail x) (.fail x)
  | look {next : σ → Dialogue σ α} {next' : σ → Dialogue σ β} :
      (∀ world, Alike R (next world) (next' world)) → Alike R (.look next) (.look next')
  | change (world : σ) {next : Dialogue σ α} {next' : Dialogue σ β} :
      Alike R next next' → Alike R (.change world next) (.change world next')
  | replaced {next : Bool → Dialogue σ α} {next' : Bool → Dialogue σ β} :
      (∀ asked, Alike R (next asked) (next' asked)) → Alike R (.replaced next) (.replaced next')
  | replace {steps steps' : List (Step σ)} {next : Dialogue σ α} {next' : Dialogue σ β} :
      l.steps steps steps' → Alike R next next' →
        Alike R (.replace steps next) (.replace steps' next')

/-- Dialogues that are alike do alike when they are run. -/
theorem Alike.run {R : α → β → Prop} {d : Dialogue σ α} {d' : Dialogue σ β} (h : d.Alike l R d') :
    DoAlike l R d.run d'.run := by
  induction h with
  | finish hab => exact .pure hab
  | fail x => exact .throw x
  | look _ ih =>
    rintro ⟨replacement, world⟩ ⟨replacement', world'⟩ hpass
    obtain rfl : world = world' := hpass.world
    exact ih world _ _ hpass
  | change world _ ih =>
    intro pass pass' hpass
    exact ih _ _ ⟨rfl, hpass.replacement⟩
  | replaced _ ih =>
    rintro ⟨replacement, world⟩ ⟨replacement', world'⟩ hpass
    -- Passes that are alike hold a replacement both or neither.
    have hreplacement : Option.Rel l.steps replacement replacement' := hpass.replacement
    cases hreplacement with
    | some _ => exact ih true _ _ hpass
    | none => exact ih false _ _ hpass
  | replace hsteps _ ih =>
    intro pass pass' hpass
    exact ih _ _ ⟨hpass.world, .some hsteps⟩

end Dialogue

end EffectPrograms

import EffectPrograms.Proofs.Adequacy
import EffectPrograms.Proofs.Groupings
import EffectPrograms.Proofs.Lockstep
import EffectPrograms.Proofs.Routing

/-!
# Fan-outs are associative

A fan-out among the branches of a fan-out of the same algebra may as well be replaced by its own
branches. The composite that it opens, the name that it binds and the value that it reads back there
do not show in what a program does nor in how it ends, as long as what the branches answer leaves
the sequence alone that it stands in.

This is said of the places where the fan-out is asked in the course of a program.
`Registry.Leads` follows an evaluation to everything that it works on, and `Registry.Undisturbed`
looks at the answers wherever that is a request to the fan-out. Over two registries that group the
branches differently everything then comes to the same (`Registry.Regrouped.within`), by induction
on the fuel: both come to the fan-out in the same surroundings, and the answers of both come to what
all of them come to in turn.
-/

namespace EffectPrograms

variable {σ : Type}

open Evaluation FanOut Interpreter

/-! ## Where an evaluation leads -/

/-- What an evaluation works on. -/
inductive Task (σ : Type) where
  /-- The steps that are left of a composite, in its environment. -/
  | steps (env : Environment) (left : List (Step σ))
  /-- An operation that a step came to, or that takes the place of a request. -/
  | operation (o : Operation σ)

namespace Registry

section

variable (registry : Registry σ)

/-- What is worked on next, or in the end, for the sake of something. -/
inductive Leads : Task σ × Surroundings σ → Task σ × Surroundings σ → Prop where
  /-- The front step of a composite comes to an operation. -/
  | front {env : Environment} {s : Step σ} {rest : List (Step σ)}
      {surroundings next : Surroundings σ} {acts : List (Act σ)} {binding : Option String}
      {o : Operation σ} :
      (s.operation env none).course surroundings = ⟨acts, .ok (binding, o), next⟩ →
        Leads (.steps env (s :: rest), surroundings) (.operation o, next)
  /-- With the value of that operation the composite goes on. -/
  | onward {env env' : Environment} {s : Step σ} {rest rest' : List (Step σ)}
      {surroundings between next : Surroundings σ} {acts acts' : List (Act σ)}
      {binding : Option String} {o : Operation σ} {fuel : Nat} {v : Value} :
      (s.operation env none).course surroundings = ⟨acts, .ok (binding, o), between⟩ →
        (registry.operationValue fuel rest o).course between = ⟨acts', .ok (v, rest'), next⟩ →
          env.bindAs binding v = .ok env' →
            Leads (.steps env (s :: rest), surroundings) (.steps env' rest', next)
  /-- A composite is opened. -/
  | composite {steps : List (Step σ)} {surroundings : Surroundings σ} :
      Leads (.operation (.composite steps), surroundings) (.steps .empty steps, surroundings)
  /-- A sequence that a request is answered with is opened. -/
  | sequence {r : Request} {steps : List (Step σ)} {replacement : Option (List (Step σ))}
      {surroundings next : Surroundings σ} {acts : List (Act σ)} :
      (registry.consult r).course surroundings = ⟨acts, .ok (.sequence steps, replacement), next⟩ →
        Leads (.operation (.request r), surroundings) (.steps .empty steps, next)
  /-- An operation takes the place of a request. -/
  | answered {r : Request} {o : Operation σ} {replacement : Option (List (Step σ))}
      {surroundings next : Surroundings σ} {acts : List (Act σ)} :
      (registry.consult r).course surroundings = ⟨acts, .ok (.operation o, replacement), next⟩ →
        Leads (.operation (.request r), surroundings) (.operation o, next)

/-- Wherever a task leads to a request of the algebra that all branches answer, the requests among
their answers leave the rest alone of the sequence that they stand in. -/
def Undisturbed (algebra : String) (branches : List (Interpreter σ)) (task : Task σ)
    (surroundings : Surroundings σ) : Prop :=
  ∀ r next,
    Relation.ReflTransGen registry.Leads (task, surroundings) (.operation (.request r), next) →
      r.algebra = algebra → ∀ answers last,
        AnswerInTurn r branches { world := next.world } answers last →
          registry.LeaveRest answers { next with world := last.world }

end

variable {registry : Registry σ} {algebra : String} {branches : List (Interpreter σ)}
  {surroundings : Surroundings σ} {answers : List (Answer σ)}

/-- What holds of all that a task leads to, holds of all that any of that leads to. -/
theorem Undisturbed.of_leads {task task' : Task σ} {next : Surroundings σ}
    (h : registry.Undisturbed algebra branches task surroundings)
    (hleads : registry.Leads (task, surroundings) (task', next)) :
    registry.Undisturbed algebra branches task' next :=
  fun r last hreached => h r last (.head hleads hreached)

/-! ## Answers that stand in a sequence -/

/-- An answer that has its value at once has it over any registry. -/
theorem resolveAnswer_of_value {answer : Answer σ} (h : earlierStep? answer = none)
    (registry registry' : Registry σ) (fuel more : Nat) :
    registry.resolveAnswer fuel answer = registry'.resolveAnswer more answer := by
  rcases answer with - | v | (r | io | steps | v) | steps
  case unit | value | operation.returning => rfl
  all_goals simp [earlierStep?] at h

/-- Nothing disturbs the sequences of the fan-out while the answer is resolved. -/
def UndisturbedAnswer (registry : Registry σ) (algebra : String) (branches : List (Interpreter σ))
    (answer : Answer σ) (surroundings : Surroundings σ) : Prop :=
  ∀ o, earlierStep? answer = some (.op o) →
    registry.Undisturbed algebra branches (.operation o) surroundings

/-- In a sequence that a fan-out makes of answers each of them is worked on at its turn. -/
theorem Undisturbed.eachInTurn
    (h : registry.Undisturbed algebra branches (.steps .empty (combine "last" answers))
      surroundings) (hleave : registry.LeaveRest answers surroundings) :
    registry.EachInTurn (registry.UndisturbedAnswer algebra branches) answers surroundings := by
  induction answers generalizing surroundings with
  | nil => trivial
  | cons answer later ih =>
    obtain ⟨hleaves, hlater⟩ := hleave
    rcases registry.answer_cases answer with ⟨v, hstep, hvalue, -⟩ | ⟨o, ho, hlast⟩
    · -- The answer takes no step, and has its value at once.
      refine ⟨fun o ho => by simp [hstep] at ho, fun fuel acts w next hturn => ?_⟩
      have hleft := hlater fuel acts w next hturn
      rw [hvalue] at hturn
      obtain ⟨-, -, rfl⟩ := Course.mk.inj hturn
      cases later with
      | nil => trivial
      | cons next later => exact ih (combine_of_value hstep next later ▸ h) hleft
    · cases later with
      | nil =>
        refine ⟨fun o' ho' => ?_, fun _ _ _ _ _ => trivial⟩
        obtain rfl := Step.op.inj (Option.some.inj (ho.symm.trans ho'))
        rw [combine, hlast] at h
        exact h.of_leads (.front rfl)
      | cons next later =>
        have hcombine : combine "last" (answer :: next :: later) =
            .op o :: combine "last" (next :: later) := by simp [combine, ho]
        rw [hcombine] at h
        refine ⟨fun o' ho' => ?_, fun fuel acts w after hturn => ?_⟩
        · obtain rfl := Step.op.inj (Option.some.inj (ho.symm.trans ho'))
          exact h.of_leads (.front rfl)
        · have hvalue := operationValue_eq ho fuel hleaves (combine "last" (next :: later))
          rw [bind_of_ok hturn] at hvalue
          exact ih (h.of_leads (.onward rfl hvalue rfl)) (hlater fuel acts w after hturn)

/-! ## Two groupings of the same branches -/

/-- Two registries have the same interpreters, except that the fan-outs of the algebra may group the
branches differently. -/
def Regrouped (algebra : String) (branches : List (Interpreter σ))
    (registry registry' : Registry σ) : Prop :=
  ∀ served, registry.find? served = registry'.find? served ∨
    served = algebra ∧ ∃ grouped grouped', Interpreter.Grouped algebra branches grouped ∧
      Interpreter.Grouped algebra branches grouped' ∧
      registry.find? served = some (.fanOut algebra "last" grouped) ∧
      registry'.find? served = some (.fanOut algebra "last" grouped')

/-- It does not matter which registry comes first. -/
theorem Regrouped.symm {registry' : Registry σ}
    (h : Regrouped algebra branches registry registry') :
    Regrouped algebra branches registry' registry := by
  intro served
  rcases h served with hsame | ⟨hserved, grouped, grouped', hgrouped, hgrouped', hfind, hfind'⟩
  · exact .inl hsame.symm
  · exact .inr ⟨hserved, grouped', grouped, hgrouped', hgrouped, hfind', hfind⟩

/-- If a fan-out is asked whose branches answer, its answer is the sequence for their answers. -/
theorem consult_of_answerInTurn {grouped : List (Interpreter σ)} {r : Request} {last : Pass σ}
    (hfind : registry.find? r.algebra = some (.fanOut algebra "last" grouped))
    (h : AnswerInTurn r grouped { world := surroundings.world } answers last) :
    (registry.consult r).course surroundings =
      ⟨[.dispatch r], .ok (.sequence (combine "last" answers), last.replacement),
        { surroundings with world := last.world }⟩ := by
  rw [consult_eq hfind, dispatch_of_answerInTurn hfind h]

/-- If a branch fails, so does the fan-out. -/
theorem consult_of_failInTurn {grouped : List (Interpreter σ)} {r : Request} {last : Pass σ}
    {f : Fault} (hfind : registry.find? r.algebra = some (.fanOut algebra "last" grouped))
    (h : FailInTurn r grouped { world := surroundings.world } f last) :
    (registry.consult r).course surroundings =
      ⟨[.dispatch r, .raise f], .error (.fault f), { surroundings with world := last.world }⟩ := by
  rw [consult_eq hfind, dispatch_of_failInTurn hfind h]

section

variable (registry registry' : Registry σ) (algebra : String) (branches : List (Interpreter σ))

/-- Nothing disturbs the sequences of the fan-out in the course of the task over either registry. -/
def BothUndisturbed (task : Task σ) (surroundings : Surroundings σ) : Prop :=
  registry.Undisturbed algebra branches task surroundings ∧
    registry'.Undisturbed algebra branches task surroundings

/-- What a composite is evaluated to over the one registry it is over the other one. -/
def EvaluatesWithin (fuel : Nat) : Prop :=
  ∀ env steps surroundings,
    registry.BothUndisturbed registry' algebra branches (.steps env steps) surroundings →
      (registry.evaluate fuel env steps).Within (fun more => registry'.evaluate more env steps)
        surroundings

/-- The value that an operation has over the one registry it has over the other one. -/
def ValuesWithin (fuel : Nat) : Prop :=
  ∀ o rest surroundings,
    registry.BothUndisturbed registry' algebra branches (.operation o) surroundings →
      (registry.operationValue fuel rest o).Within
        (fun more => registry'.operationValue more rest o) surroundings

end

section

variable {registry' : Registry σ} {fuel : Nat}

/-- What holds over both of a task, holds of what it leads to over both. -/
theorem BothUndisturbed.of_leads {task task' : Task σ} {next : Surroundings σ}
    (h : registry.BothUndisturbed registry' algebra branches task surroundings)
    (hleads : registry.Leads (task, surroundings) (task', next))
    (hleads' : registry'.Leads (task, surroundings) (task', next)) :
    registry.BothUndisturbed registry' algebra branches task' next :=
  ⟨h.1.of_leads hleads, h.2.of_leads hleads'⟩

/-- The values of composites are the same if their evaluations are. -/
theorem EvaluatesWithin.valued (h : registry.EvaluatesWithin registry' algebra branches fuel)
    {steps : List (Step σ)}
    (hsteps : registry.BothUndisturbed registry' algebra branches (.steps .empty steps)
      surroundings) :
    (registry.compositeValue fuel steps).Within
      (fun more => registry'.compositeValue more steps) surroundings :=
  (h .empty steps surroundings hsteps).bind_same fun _ _ hle =>
    registry'.evaluate_mono hle .empty steps

/-- Answers come in turn to the same over both registries if operations do. -/
theorem ValuesWithin.turns (h : registry.ValuesWithin registry' algebra branches fuel)
    (hanswers : registry.EachInTurn (registry.UndisturbedAnswer algebra branches) answers
      surroundings)
    (hanswers' : registry'.EachInTurn (registry'.UndisturbedAnswer algebra branches) answers
      surroundings) (v : Value) :
    (registry.turns fuel v answers).Within (fun more => registry'.turns more v answers)
      surroundings := by
  induction answers generalizing surroundings v with
  | nil => exact .refl _ surroundings
  | cons answer later ih =>
    obtain ⟨hanswer, hlater⟩ := hanswers
    obtain ⟨hanswer', hlater'⟩ := hanswers'
    simp only [turns_cons]
    refine Within.bind ?_ (fun _ _ hle => registry'.resolveAnswer_mono hle answer)
      (fun w => registry'.turns_mono w later) fun more acts acts' w next hturn hturn' =>
        ih (hlater fuel acts w next hturn) (hlater' more acts' w next hturn') w
    rcases registry.answer_cases answer with ⟨-, hstep, -⟩ | ⟨o, ho, -⟩
    · refine .of_le 0 ?_
      rw [resolveAnswer_of_value hstep registry registry' fuel 0]
    · simp only [resolveAnswer_eq ho]
      exact (h o [] surroundings ⟨hanswer o ho, hanswer' o ho⟩).bind_same
        (registry'.operationValue_mono [] o)

/-- Sequences that both fan-outs make of their answers come to the same over both registries, since
the answers are the same up to groups, and an operation comes to the same with less fuel. -/
theorem sequence_within
    (hless : ∀ less, fuel = less + 1 → registry.ValuesWithin registry' algebra branches less)
    {grouped grouped' : List (Answer σ)} (hgrouped : Answer.Grouped answers grouped)
    (hgrouped' : Answer.Grouped answers grouped')
    (hleave : registry.LeaveRest answers surroundings)
    (hleave' : registry'.LeaveRest answers surroundings)
    (h : registry.Undisturbed algebra branches (.steps .empty (combine "last" grouped))
      surroundings)
    (h' : registry'.Undisturbed algebra branches (.steps .empty (combine "last" grouped'))
      surroundings) :
    (registry.compositeValue fuel (combine "last" grouped)).Within
      (fun more => registry'.compositeValue more (combine "last" grouped')) surroundings := by
  rcases fuel with - | less
  · exact .unfinished
  obtain ⟨hleaveGrouped, hbelow⟩ := hgrouped.leaveRest hleave
  obtain ⟨hleaveGrouped', -⟩ := hgrouped'.leaveRest hleave'
  have hanswers := hgrouped.eachInTurn hleave
    (fun inner next hinner hleaveInner => Undisturbed.eachInTurn
      ((hinner _ rfl).of_leads .composite) hleaveInner) (h.eachInTurn hleaveGrouped)
  have hanswers' := hgrouped'.eachInTurn hleave'
    (fun inner next hinner hleaveInner => Undisturbed.eachInTurn
      ((hinner _ rfl).of_leads .composite) hleaveInner) (h'.eachInTurn hleaveGrouped')
  have hturns := (hless less rfl).turns hanswers hanswers' .null
  have hbefore := (sequence_le_turns le_rfl hleaveGrouped).trans (hbelow less .null)
  have hafter := fun more => (hgrouped'.turns_within hleave' more .null).trans fun most =>
    turns_within_sequence most hleaveGrouped'
  exact (hturns.of_logged_le hbefore).trans hafter

/-- A request to the fan-out has the same value over both registries. -/
theorem fanOut_value
    (hless : ∀ less, fuel = less + 1 → registry.ValuesWithin registry' algebra branches less)
    {r : Request} (hserved : r.algebra = algebra) {grouped grouped' : List (Interpreter σ)}
    (hgrouped : Interpreter.Grouped algebra branches grouped)
    (hgrouped' : Interpreter.Grouped algebra branches grouped')
    (hfind : registry.find? r.algebra = some (.fanOut algebra "last" grouped))
    (hfind' : registry'.find? r.algebra = some (.fanOut algebra "last" grouped'))
    (hboth : registry.BothUndisturbed registry' algebra branches (.operation (.request r))
      surroundings) (n : Nat) (rest : List (Step σ)) :
    (registry.value (registry.compositeValue fuel) (n + 1) r rest).Within
      (fun more => registry'.value (registry'.compositeValue more) (more + 1) r rest)
      surroundings := by
  simp only [value]
  rcases answerInTurn_or_failInTurn r branches { world := surroundings.world } with
    ⟨answers, last, hanswers⟩ | ⟨f, last, hfail⟩
  · obtain ⟨given, hgiven, hgroup⟩ := hgrouped.answerInTurn hanswers
    obtain ⟨given', hgiven', hgroup'⟩ := hgrouped'.answerInTurn hanswers
    have hconsult := consult_of_answerInTurn hfind hgiven
    have hconsult' := consult_of_answerInTurn hfind' hgiven'
    have hsequence := sequence_within hless hgroup hgroup'
      (hboth.1 r surroundings .refl hserved answers last hanswers)
      (hboth.2 r surroundings .refl hserved answers last hanswers)
      (hboth.1.of_leads (.sequence hconsult)) (hboth.2.of_leads (.sequence hconsult'))
    refine Within.after (hsequence.bind_same (fun _ _ hle => ?_)) (bind_of_ok hconsult)
      fun more => bind_of_ok hconsult'
    exact registry'.compositeValue_mono _ hle
  · refine .of_le 0 ?_
    rw [bind_of_error (consult_of_failInTurn hfind (hgrouped.failInTurn hfail)),
      bind_of_error (consult_of_failInTurn hfind' (hgrouped'.failInTurn hfail))]

/-- So has a request to any interpreter that is the same in both, if requests have that take its
place. -/
theorem same_value {r : Request} (hsame : registry.find? r.algebra = registry'.find? r.algebra)
    (hnested : registry.EvaluatesWithin registry' algebra branches fuel)
    (hboth : registry.BothUndisturbed registry' algebra branches (.operation (.request r))
      surroundings) {n : Nat}
    (hnext : ∀ next rest between,
      registry.BothUndisturbed registry' algebra branches (.operation (.request next)) between →
        (registry.value (registry.compositeValue fuel) n next rest).Within
          (fun more => registry'.value (registry'.compositeValue more) more next rest) between)
    (rest : List (Step σ)) :
    (registry.value (registry.compositeValue fuel) (n + 1) r rest).Within
      (fun more => registry'.value (registry'.compositeValue more) (more + 1) r rest)
      surroundings := by
  have hconsult : registry'.consult r = registry.consult r := by
    unfold consult
    rw [hsame]
  simp only [Registry.value, hconsult]
  refine Within.same_bind ?_ ?_
  · rintro ⟨answer, replacement⟩ fuel more hle
    rcases answer with - | v | (next | io | steps | v) | steps
    · exact le_rfl
    · exact le_rfl
    · exact registry'.requestValue_mono hle hle next _
    · exact le_rfl
    · exact bind_le_bind (registry'.compositeValue_mono steps hle) fun _ => le_rfl
    · exact le_rfl
    · exact bind_le_bind (registry'.compositeValue_mono steps hle) fun _ => le_rfl
  · rintro acts ⟨answer, replacement⟩ between hanswer
    -- An operation is reached over both registries, and so is a sequence.
    have hoperation : ∀ o, answer = .operation o →
        registry.BothUndisturbed registry' algebra branches (.operation o) between := by
      rintro o rfl
      exact hboth.of_leads (.answered hanswer) (.answered (hconsult ▸ hanswer))
    rcases answer with - | v | (next | io | steps | v) | steps
    · exact .refl _ between
    · exact .refl _ between
    · exact hnext next _ between (hoperation _ rfl)
    · exact .refl _ between
    · have hsteps := (hoperation _ rfl).of_leads .composite .composite
      exact (hnested.valued hsteps).bind_same (registry'.compositeValue_mono steps)
    · exact .refl _ between
    · have hsteps := hboth.of_leads (.sequence hanswer) (.sequence (hconsult ▸ hanswer))
      exact (hnested.valued hsteps).bind_same (registry'.compositeValue_mono steps)

/-- Any request has the same value over both registries. -/
theorem Regrouped.value_within (h : Regrouped algebra branches registry registry')
    (hnested : registry.EvaluatesWithin registry' algebra branches fuel)
    (hless : ∀ less, fuel = less + 1 → registry.ValuesWithin registry' algebra branches less)
    (n : Nat) (r : Request) (rest : List (Step σ))
    (hboth : registry.BothUndisturbed registry' algebra branches (.operation (.request r))
      surroundings) :
    (registry.value (registry.compositeValue fuel) n r rest).Within
      (fun more => registry'.value (registry'.compositeValue more) more r rest) surroundings := by
  induction n generalizing r rest surroundings with
  | zero => exact .unfinished
  | succ n ih =>
    refine Within.mono ?_ fun more =>
      ⟨more + 1, registry'.requestValue_mono (Nat.le_succ more) le_rfl r rest⟩
    rcases h r.algebra with
      hsame | ⟨hserved, grouped, grouped', hgrouped, hgrouped', hfind, hfind'⟩
    · exact same_value hsame hnested hboth (fun next rest _ => ih next rest) rest
    · exact fanOut_value hless hserved hgrouped hgrouped' hfind hfind' hboth n rest

/-- So has any operation. -/
theorem Regrouped.valuesWithin (h : Regrouped algebra branches registry registry')
    (hnested : registry.EvaluatesWithin registry' algebra branches fuel)
    (hless : ∀ less, fuel = less + 1 → registry.ValuesWithin registry' algebra branches less) :
    registry.ValuesWithin registry' algebra branches fuel := by
  intro o rest surroundings hboth
  cases o with
  | request r => exact h.value_within hnested hless fuel r rest hboth
  | io io => exact .refl _ surroundings
  | composite steps =>
    exact (hnested.valued (hboth.of_leads .composite .composite)).bind_same
      (registry'.compositeValue_mono steps)
  | returning v => exact .refl _ surroundings

/-- A composite is evaluated to the same with more fuel if operations and composites are with less.
-/
theorem EvaluatesWithin.succ (hnested : registry.EvaluatesWithin registry' algebra branches fuel)
    (hvalues : registry.ValuesWithin registry' algebra branches fuel) :
    registry.EvaluatesWithin registry' algebra branches (fuel + 1) := by
  intro env steps surroundings hboth
  refine Within.mono ?_ fun more =>
    ⟨more + 1, le_refl (registry'.evaluate (more + 1) env steps)⟩
  cases steps with
  | nil => exact .refl _ surroundings
  | cons s rest =>
    simp only [evaluate_cons]
    refine Within.same_bind (fun front => registry'.proceed_mono env rest front.1 front.2) ?_
    rintro acts ⟨binding, o⟩ between hfront
    rcases proceed_cases o with ⟨v, rfl⟩ | hgoesOn
    · exact .refl _ between
    simp only [hgoesOn]
    refine Within.bind (hvalues o rest between (hboth.of_leads (.front hfront) (.front hfront)))
      (registry'.operationValue_mono rest o)
      (fun found => registry'.goOn_mono env binding found.1 found.2) ?_
    rintro more acts' acts'' ⟨v, rest'⟩ next hvalue hvalue'
    refine Within.same_bind (fun env _ _ hle => registry'.evaluate_mono hle env rest') ?_
    intro acts₃ env' last henv
    cases hbind : env.bindAs binding v with
    | error f => simp [hbind, orFault, halt] at henv
    | ok bound =>
      rw [hbind] at henv
      obtain ⟨-, hsame, rfl⟩ := Course.mk.inj henv
      obtain rfl := Except.ok.inj hsame
      exact hnested bound rest' next
        (hboth.of_leads (.onward hfront hvalue hbind) (.onward hfront hvalue' hbind))

/-- Over both registries everything comes to the same, with however much fuel. -/
theorem Regrouped.within (h : Regrouped algebra branches registry registry') (fuel : Nat) :
    registry.EvaluatesWithin registry' algebra branches fuel ∧
      registry.ValuesWithin registry' algebra branches fuel := by
  induction fuel with
  | zero =>
    have hnested : registry.EvaluatesWithin registry' algebra branches 0 :=
      fun _ _ _ _ => .unfinished
    exact ⟨hnested, h.valuesWithin hnested fun _ hless => by simp at hless⟩
  | succ fuel ih =>
    obtain ⟨hnested, hvalues⟩ := ih
    have hmore := hnested.succ hvalues
    refine ⟨hmore, h.valuesWithin hmore fun less hless => ?_⟩
    obtain rfl := Nat.succ.inj hless
    exact hvalues

end

/-! ## Registering either fan-out -/

/-- Registries with the same interpreters tried before and after two fan-outs that group the
branches differently. -/
theorem regrouped_ofAttempts {grouped grouped' : List (Interpreter σ)}
    (h : Interpreter.Grouped algebra branches grouped)
    (h' : Interpreter.Grouped algebra branches grouped')
    (before after : List (Interpreter σ)) :
    Regrouped algebra branches (ofAttempts (before ++ .fanOut algebra "last" grouped :: after))
      (ofAttempts (before ++ .fanOut algebra "last" grouped' :: after)) := by
  intro served
  have hfind : ∀ grouped, (ofAttempts (before ++ .fanOut algebra "last" grouped :: after)).find?
      served = (before.find? fun i => i.algebra = served).or
        (if algebra = served then some (.fanOut algebra "last" grouped)
          else after.find? fun i => i.algebra = served) := by
    intro grouped
    rw [find?_ofAttempts, List.find?_append, List.find?_cons]
    by_cases hserved : algebra = served <;> simp [Interpreter.algebra, hserved]
  rw [hfind, hfind]
  cases before.find? fun i => i.algebra = served with
  | some i => exact .inl rfl
  | none =>
    by_cases hserved : algebra = served
    · refine .inr ⟨hserved.symm, grouped, grouped', h, h', ?_, ?_⟩
      · simp [hserved]
      · simp [hserved]
    · simp [hserved]

end Registry

namespace Executor

variable (x : Executor σ) {registry' : Registry σ} {algebra : String}
  {branches : List (Interpreter σ)} (program : Program σ) (surroundings : Surroundings σ)

/-- What is logged of a session over the one registry is logged of a session over the other one. -/
theorem exists_session_ge_of_regrouped
    (h : Registry.Regrouped algebra branches x.registry registry')
    (hboth : x.registry.BothUndisturbed registry' algebra branches (.steps .empty program)
      surroundings) (fuel calls : Nat) :
    ∃ more calls', (x.sessionUnder none program surroundings fuel calls).course.logged ≤
      ((x.over registry').sessionUnder none program surroundings more calls').course.logged := by
  refine x.exists_session_ge_of_evaluate program surroundings (fun _ _ => Course.logged_le_logged)
    (fun fuel => ?_) fuel calls
  exact (h.within fuel).1 .empty program surroundings hboth

/-- Without a limit to the depth it cannot be seen from outside whether some of the branches of a
fan-out are gathered in a fan-out of their own: both can be built over branches of the algebra, and
whatever else is registered, a program dispatches the same requests and asks for the same io in the
same order over either, and ends just if it does over the other, with the same outcome or fault in
the same surroundings. The handlers of the branches may have the rest of the composite replaced that
the request came from. The proviso is that no interpreter does so that is asked for a request among
the answers of the branches, wherever in the program the fan-out is asked. -/
theorem regrouping_invisible (x : Executor σ) {algebra : String}
    {earlier inner later : List (Interpreter σ)} (hinner : inner ≠ [])
    (hserve : ∀ branch ∈ earlier ++ inner ++ later, branch.algebra = algebra) :
    ∃ group nested flat, fanOut? algebra inner = .ok group ∧
      fanOut? algebra (earlier ++ [group] ++ later) = .ok nested ∧
      fanOut? algebra (earlier ++ inner ++ later) = .ok flat ∧
      ∀ (before after : List (Interpreter σ)) (program : Program σ)
        (surroundings : Surroundings σ),
        (∀ i ∈ [nested, flat], (Registry.ofAttempts (before ++ i :: after)).Undisturbed algebra
          (earlier ++ inner ++ later) (.steps .empty program) surroundings) →
        Course.SameRun
          (fun i : Nat × Nat => ((x.over (.ofAttempts (before ++ nested :: after))).sessionUnder
            none program surroundings i.1 i.2).course.logged)
          fun i : Nat × Nat => ((x.over (.ofAttempts (before ++ flat :: after))).sessionUnder
            none program surroundings i.1 i.2).course.logged := by
  have hserveInner : ∀ branch ∈ inner, branch.algebra = algebra :=
    fun branch hbranch => hserve branch (by simp [hbranch])
  have hserveNested : ∀ branch ∈ earlier ++ [.fanOut algebra "last" inner] ++ later,
      branch.algebra = algebra := by
    intro branch hbranch
    rw [List.mem_append, List.mem_append, List.mem_singleton] at hbranch
    rcases hbranch with (hearlier | rfl) | hlater
    · exact hserve branch (by simp [hearlier])
    · rfl
    · exact hserve branch (by simp [hlater])
  refine ⟨_, _, _, fanOut?_eq_ok_iff.2 ⟨hserveInner, rfl⟩,
    fanOut?_eq_ok_iff.2 ⟨hserveNested, rfl⟩, fanOut?_eq_ok_iff.2 ⟨hserve, rfl⟩, ?_⟩
  intro before after program surroundings hundisturbed
  have hgrouped : Interpreter.Grouped algebra (earlier ++ inner ++ later)
      (earlier ++ [.fanOut algebra "last" inner] ++ later) := by
    rw [List.append_assoc, List.append_assoc]
    exact (Grouped.group hinner (.refl inner) (.refl later)).append_left earlier
  have hregrouped := Registry.regrouped_ofAttempts hgrouped (.refl _) before after
  have hnested := hundisturbed _ (List.mem_cons_self ..)
  have hflat := hundisturbed _ (List.mem_cons_of_mem _ (List.mem_singleton_self _))
  constructor
  · rintro ⟨fuel, calls⟩
    obtain ⟨more, calls', hle⟩ := (x.over _).exists_session_ge_of_regrouped program surroundings
      hregrouped ⟨hnested, hflat⟩ fuel calls
    exact ⟨(more, calls'), hle⟩
  · rintro ⟨fuel, calls⟩
    obtain ⟨more, calls', hle⟩ := (x.over _).exists_session_ge_of_regrouped program surroundings
      hregrouped.symm ⟨hflat, hnested⟩ fuel calls
    exact ⟨(more, calls'), hle⟩

end Executor

/-! ## An example with three branches -/

/-- A log that is only asked with what the branches hand on. -/
def Interpreter.keepsLog : Interpreter Unit :=
  .table "log" [("write", fun _ => pure (.value (.bool true)))]

/-- Over a registry with the log none of the three branches lets the sequence be disturbed. -/
theorem Registry.undisturbed_mail {registry : Registry Unit}
    (hlog : registry.find? "log" = some .keepsLog) (task : Task Unit)
    (surroundings : Surroundings Unit) :
    registry.Undisturbed "mail" [.returnsEarly, .replacesRest, .handsOn] task surroundings := by
  rintro ⟨algebra, operation, arguments⟩ next - hserved answers last hanswers
  obtain rfl : algebra = "mail" := hserved
  have hdispatch : ∀ world, registry.dispatch ⟨"log", "write", []⟩ world =
      (.ok (.value (.bool true), none), world) := by
    intro world
    rw [Registry.dispatch, hlog]
    rfl
  by_cases hsend : operation = "send"
  · subst hsend
    have hgiven : AnswerInTurn ⟨"mail", "send", arguments⟩
        [.returnsEarly, .replacesRest, .handsOn] { world := next.world }
        [.operation (.returning (.bool false)), .operation (.io .late),
          .operation (.request ⟨"log", "write", []⟩)]
        { replacement := some [.bind "then" (.composite [])], world := next.world } :=
      .cons rfl (.cons rfl (.cons rfl (.nil _)))
    have hsame := hanswers.interpretEach.symm.trans hgiven.interpretEach
    obtain rfl := Except.ok.inj (Prod.mk.inj hsame).1
    refine Registry.leaveRest_of_keepsRest _ fun r hr world => ?_
    obtain rfl : r = ⟨"log", "write", []⟩ := by simpa using hr
    exact Registry.keepsRest_of_value (hdispatch world)
  · -- The first branch has no handler for any other operation.
    cases hanswers with
    | cons hfirst _ =>
      have hfails : (returnsEarly.interpret ⟨"mail", operation, arguments⟩
          { world := next.world }).1 = .error (.unknownOperation "mail" operation) := by
        have hnone : (operation == "send") = false := by simpa using hsend
        rw [returnsEarly, interpret, if_neg (by simp), List.lookup_cons, hnone]
        rfl
      simp [hfirst] at hfails

/-- Three branches that send mail. -/
def Interpreter.mailsFlat : Interpreter Unit :=
  .fanOut "mail" "last" [.returnsEarly, .replacesRest, .handsOn]

/-- The same with the second one in a fan-out of its own. -/
def Interpreter.mailsNested : Interpreter Unit :=
  .fanOut "mail" "last" [.returnsEarly, .fanOut "mail" "last" [.replacesRest], .handsOn]

/-- The second branch has the rest of the program replaced in both cases. Only what deferred steps
are given tells them apart: the value of the second branch is read back if it is in a fan-out of its
own. -/
theorem Executor.regrouping_invisible_mail :
    (∀ i ∈ [mailsNested, mailsFlat], (Registry.ofAttempts [i, .keepsLog]).Undisturbed "mail"
      [.returnsEarly, .replacesRest, .handsOn] (.steps .empty Program.sendMail)
      ⟨(), [(.ok .null, ())]⟩) ∧
    Course.SameRun
      (fun i : Nat × Nat => ((mailing.over (.ofAttempts [mailsNested, .keepsLog])).sessionUnder none
        .sendMail ⟨(), [(.ok .null, ())]⟩ i.1 i.2).course.logged)
      (fun i : Nat × Nat => ((mailing.over (.ofAttempts [mailsFlat, .keepsLog])).sessionUnder none
        .sendMail ⟨(), [(.ok .null, ())]⟩ i.1 i.2).course.logged) ∧
    ((mailing.over (.ofAttempts [mailsNested, .keepsLog])).sessionUnder none .sendMail
      ⟨(), [(.ok .null, ())]⟩ 2 10).course = .ofSendMail ∧
    ((mailing.over (.ofAttempts [mailsFlat, .keepsLog])).sessionUnder none .sendMail
      ⟨(), [(.ok .null, ())]⟩ 2 8).course = { Course.ofSendMail with
        acts := [.dispatch ⟨"mail", "send", []⟩, .ask .late, .dispatch ⟨"log", "write", []⟩,
          .compute ⟨[("last", .bool true)]⟩] } := by
  have hundisturbed : ∀ i ∈ [mailsNested, mailsFlat],
      (Registry.ofAttempts [i, .keepsLog]).Undisturbed "mail"
        [.returnsEarly, .replacesRest, .handsOn] (.steps .empty Program.sendMail)
        ⟨(), [(.ok .null, ())]⟩ := by
    intro i hi
    refine Registry.undisturbed_mail ?_ _ _
    rcases List.mem_pair.1 hi with rfl | rfl <;> rfl
  have hserve : ∀ branch ∈ [.returnsEarly] ++ [.replacesRest] ++ [.handsOn],
      Interpreter.algebra (σ := Unit) branch = "mail" := by
    simp [returnsEarly, replacesRest, handsOn, Interpreter.algebra]
  obtain ⟨group, nested, flat, hgroup, hnested, hflat, hsame⟩ :=
    mailing.regrouping_invisible (List.cons_ne_nil _ _) hserve
  obtain rfl := fanOut_of_fanOut? hgroup
  obtain rfl := fanOut_of_fanOut? hnested
  obtain rfl := fanOut_of_fanOut? hflat
  have hrun := hsame [] [.keepsLog] .sendMail ⟨(), [(.ok .null, ())]⟩ hundisturbed
  exact ⟨hundisturbed, hrun, rfl, rfl⟩

end EffectPrograms

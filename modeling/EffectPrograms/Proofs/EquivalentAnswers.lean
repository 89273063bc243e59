import EffectPrograms.Proofs.Adequacy
import EffectPrograms.Proofs.Lockstep

/-!
# Answers that mean the same

An interpreter has several ways to say the same. It can answer with a value or with an operation
that returns it, with a sequence or with a composite of the same steps, and with nothing or with
`null`. The first two choices cannot be seen at all: every step resolves to the same
(`Registry.Alike.resolve`), and a fan-out puts the answers together to the same steps.

The third one can. A fan-out whose last branch has no value builds a sequence that runs out of steps
where another one returns `null` (`Program.Padded`), so that one composite may give its place to
another earlier. Without a limit to the depth this makes no difference for what is done and how the
program ends. That is shown for evaluations by recursion, which know of no frames.
-/

namespace EffectPrograms

variable {σ : Type} {S T : List (Step σ) → List (Step σ) → Prop}

/-! ## Where answers lead -/

/-- The answers are one and the same request, or they come to the same at once, except that the
composites which they open are related. -/
def Answer.LeadAlike (S : List (Step σ) → List (Step σ) → Prop) (answer answer' : Answer σ) :
    Prop :=
  (∃ next, answer = .operation (.request next) ∧ answer' = .operation (.request next)) ∨
    ∃ verdict verdict', answer.verdict? = some verdict ∧ answer'.verdict? = some verdict' ∧
      verdict.Paired S verdict'

/-- Answers that are alike lead alike, and steps that are to replace the rest are related. -/
structure Likeness.Leads (l : Likeness σ) (S T : List (Step σ) → List (Step σ) → Prop) : Prop where
  answers : ∀ {answer answer'}, l.answers answer answer' → answer.LeadAlike S answer'
  steps : ∀ {steps steps'}, l.steps steps steps' → T steps steps'

/-- Nothing is found in both cases, or results that agree in the same world. -/
def SameFound {α : Type} (R : α → α → Prop) : (found found' : Option (Except Fault α × σ)) → Prop :=
  Option.Rel fun found found' => Agree R found.1 found'.1 ∧ found.2 = found'.2

/-- What is found is the same if related results are equal. -/
theorem SameFound.eq {α : Type} {R : α → α → Prop} (hR : ∀ a a', R a a' → a = a')
    {found found' : Option (Except Fault α × σ)} (h : SameFound R found found') :
    found = found' := by
  cases h with
  | none => rfl
  | @some found found' hfound =>
    obtain ⟨result, world⟩ := found
    obtain ⟨result', world'⟩ := found'
    obtain ⟨hagree, rfl⟩ := hfound
    rcases hagree.elim with ⟨a, a', rfl, rfl, ha⟩ | ⟨f, rfl, rfl⟩
    · rw [hR a a' ha]
    · rfl

/-- What is made of results that are found is related if it is for related results. -/
theorem SameFound.map {α β : Type} {R : α → α → Prop} {R' : β → β → Prop} {f : α → β}
    (hf : ∀ a a', R a a' → R' (f a) (f a')) {found found' : Option (Except Fault α × σ)}
    (h : SameFound R found found') :
    SameFound R' (found.map fun (result, world) => (result.map f, world))
      (found'.map fun (result, world) => (result.map f, world)) := by
  cases h with
  | none => exact .none
  | @some found found' hfound =>
    obtain ⟨hagree, hworld⟩ := hfound
    refine .some ⟨?_, hworld⟩
    exact hagree.map hf

/-- Steps that come to the same and open and leave the same are resolved to the same. -/
theorem Resolution.Paired.eq {x x' : Resolution σ} (h : x.Paired Eq Eq x') : x = x' := by
  obtain ⟨binding, verdict, rest⟩ := x
  obtain ⟨binding', verdict', rest'⟩ := x'
  obtain ⟨hbinding, hverdict, hrest⟩ := h
  dsimp only at hbinding hverdict hrest
  subst hbinding hrest
  cases hverdict with
  | value v | escape v | suspend io => rfl
  | enter hsteps => rw [hsteps]

/-- A step comes to the same as itself. -/
theorem Verdict.paired_self (hS : ∀ steps, S steps steps) (verdict : Verdict σ) :
    verdict.Paired S verdict := by
  cases verdict with
  | value v => exact .value v
  | escape v => exact .escape v
  | suspend io => exact .suspend io
  | enter steps => exact .enter (hS steps)

namespace Registry.Alike

variable {l : Likeness σ} {registry registry' : Registry σ} (h : registry.Alike l registry')
  (hleads : l.Leads S T)
include h hleads

/-- Over registries whose answers lead alike a request comes to the same, after the same
dispatches. -/
theorem follow (fuel : Nat) (r : Request) {rest rest' : List (Step σ)} (hrest : T rest rest')
    (world : σ) :
    SameFound (SameResult S T) (registry.follow fuel r rest world)
        (registry'.follow fuel r rest' world) ∧
      registry.acts fuel r world = registry'.acts fuel r world := by
  induction fuel generalizing r rest rest' world with
  | zero => exact ⟨.none, rfl⟩
  | succ fuel ih =>
    rcases h.dispatch_cases r world with
      ⟨answer, answer', replacement, replacement', world', hd, hd', hanswer, hreplacement⟩ |
      ⟨f, world', hd, hd'⟩
    · have hleft : T (replacement.getD rest) (replacement'.getD rest') := by
        cases hreplacement with
        | none => exact hrest
        | some hsteps => exact hleads.steps hsteps
      rcases hleads.answers hanswer with
        ⟨next, rfl, rfl⟩ | ⟨verdict, verdict', hverdict, hverdict', hsame⟩
      · obtain ⟨hfollow, hacts⟩ := follow_of_request hd fuel rest
        obtain ⟨hfollow', hacts'⟩ := follow_of_request hd' fuel rest'
        obtain ⟨hnext, hdone⟩ := ih next hleft world'
        rw [hfollow, hfollow', hacts, hacts', hdone]
        exact ⟨hnext, rfl⟩
      · obtain ⟨hfollow, hacts⟩ := follow_of_verdict hd hverdict fuel rest
        obtain ⟨hfollow', hacts'⟩ := follow_of_verdict hd' hverdict' fuel rest'
        rw [hfollow, hfollow', hacts, hacts']
        exact ⟨.some ⟨.ok ⟨hsame, hleft⟩, rfl⟩, rfl⟩
    · obtain ⟨hfollow, hacts⟩ := follow_of_dispatch_error hd fuel rest
      obtain ⟨hfollow', hacts'⟩ := follow_of_dispatch_error hd' fuel rest'
      rw [hfollow, hfollow', hacts, hacts', h.acts_of_dispatch_error hd hd']
      exact ⟨.some ⟨.error f, rfl⟩, rfl⟩

/-- So does every operation. -/
theorem resolveOperation (hS : ∀ steps, S steps steps) (fuel : Nat) (o : Operation σ)
    {rest rest' : List (Step σ)} (hrest : T rest rest') (world : σ) :
    SameFound (SameResult S T) (registry.resolveOperation fuel o rest world)
        (registry'.resolveOperation fuel o rest' world) ∧
      registry.operationActs fuel world o = registry'.operationActs fuel world o := by
  cases o with
  | request r => exact h.follow hleads fuel r hrest world
  | io io => exact ⟨.some ⟨.ok ⟨.suspend io, hrest⟩, rfl⟩, rfl⟩
  | composite steps => exact ⟨.some ⟨.ok ⟨.enter (hS steps), hrest⟩, rfl⟩, rfl⟩
  | returning v => exact ⟨.some ⟨.ok ⟨.escape v, hrest⟩, rfl⟩, rfl⟩

/-- So does every step, after the same deferred steps and dispatches. -/
theorem resolve (hS : ∀ steps, S steps steps) (fuel : Nat) (env : Environment) (s : Step σ)
    {rest rest' : List (Step σ)} (hrest : T rest rest') (world : σ) :
    SameFound (Resolution.Paired S T) (registry.resolve fuel env s rest world)
        (registry'.resolve fuel env s rest' world) ∧
      registry.resolveActs fuel env s world = registry'.resolveActs fuel env s world := by
  unfold Registry.resolve resolveActs
  rcases s.unwrap env none world with ⟨f | ⟨binding, o⟩, between⟩
  · exact ⟨.some ⟨.error f, rfl⟩, rfl⟩
  · obtain ⟨hfound, hacts⟩ := h.resolveOperation hleads hS fuel o hrest between
    constructor
    · exact hfound.map fun found found' hsame => ⟨rfl, hsame.1, hsame.2⟩
    · exact congrArg _ hacts

end Registry.Alike

/-! ## Values and sequences as operations -/

/-- The answer with a value in place of an operation that returns it, and with a sequence in place
of a composite. -/
def Answer.plain : Answer σ → Answer σ
  | .operation (.returning v) => .value v
  | .operation (.composite steps) => .sequence steps
  | other => other

/-- An answer leads where the plain one does. -/
theorem Answer.LeadAlike.of_plain {answer answer' : Answer σ}
    (h : answer.plain.LeadAlike S answer'.plain) : answer.LeadAlike S answer' := by
  have hverdict : ∀ answer : Answer σ, answer.plain.verdict? = answer.verdict? := by
    rintro (- | v | (r | io | steps | v) | steps) <;> rfl
  have hrequest : ∀ (answer : Answer σ) next, answer.plain = .operation (.request next) →
      answer = .operation (.request next) := by
    rintro (- | v | (r | io | steps | v) | steps) next hplain
    case operation.request => exact hplain
    all_goals simp [plain] at hplain
  rcases h with ⟨next, hnext, hnext'⟩ | ⟨verdict, verdict', hv, hv', hsame⟩
  · exact .inl ⟨next, hrequest _ _ hnext, hrequest _ _ hnext'⟩
  · rw [hverdict] at hv hv'
    exact .inr ⟨verdict, verdict', hv, hv', hsame⟩

/-- An answer leads where it leads. -/
theorem Answer.leadAlike_self (hS : ∀ steps, S steps steps) (answer : Answer σ) :
    answer.LeadAlike S answer := by
  rcases answer.verdict?_cases with ⟨verdict, hverdict⟩ | ⟨next, rfl⟩
  · exact .inr ⟨verdict, verdict, hverdict, hverdict, verdict.paired_self hS⟩
  · exact .inl ⟨next, rfl, rfl⟩

namespace FanOut

/-- A fan-out puts plain answers together to the same steps. -/
theorem combine_plain (name : String) (given : List (Answer σ)) :
    combine name (given.map Answer.plain) = combine name given := by
  have hlast : ∀ answer : Answer σ, lastSteps name answer.plain = lastSteps name answer := by
    rintro (- | v | (r | io | steps | v) | steps) <;> rfl
  have hearlier : ∀ answer : Answer σ, earlierStep? answer.plain = earlierStep? answer := by
    rintro (- | v | (r | io | steps | v) | steps) <;> rfl
  induction given with
  | nil => rfl
  | cons answer later ih =>
    cases later with
    | nil => exact hlast answer
    | cons next later =>
      calc combine name ((answer :: next :: later).map Answer.plain)
          = (earlierStep? answer.plain).toList ++
              combine name ((next :: later).map Answer.plain) := rfl
        _ = (earlierStep? answer).toList ++ combine name (next :: later) := by rw [hearlier, ih]
        _ = combine name (answer :: next :: later) := rfl

end FanOut

/-- Answers are alike if they are the same up to values and sequences that are written as
operations. -/
def Likeness.spelling : Likeness σ where
  answers answer answer' := answer.plain = answer'.plain
  steps := Eq
  combine name given given' h := by
    have hplain : given.map Answer.plain = given'.map Answer.plain := by
      rwa [← List.forall₂_eq_eq_eq, List.forall₂_map_left_iff, List.forall₂_map_right_iff]
    rw [← FanOut.combine_plain name given, ← FanOut.combine_plain name given', hplain]

/-- Such answers lead to the very same. -/
theorem Likeness.leads_spelling : (Likeness.spelling (σ := σ)).Leads Eq Eq where
  answers := by
    intro answer answer' hplain
    have hplain : answer.plain = answer'.plain := hplain
    apply Answer.LeadAlike.of_plain
    rw [hplain]
    exact answer'.plain.leadAlike_self fun _ => rfl
  steps := id

/-! ## Nothing and `null` -/

/-- The composites have the same value: where the one runs out of steps, the other may return
`null`, and so may composites inside. -/
inductive Program.Padded : List (Step σ) → List (Step σ) → Prop where
  | nil : Program.Padded [] []
  | returns : Program.Padded [] [.returning .null]
  | returned : Program.Padded [.returning .null] []
  | cons (s : Step σ) {rest rest' : List (Step σ)} : Program.Padded rest rest' →
      Program.Padded (s :: rest) (s :: rest')
  | composite (binding : Option String) {steps steps' rest rest' : List (Step σ)} :
      Program.Padded steps steps' → Program.Padded rest rest' →
        Program.Padded (.named binding (.composite steps) :: rest)
          (.named binding (.composite steps') :: rest')

/-- Plain answers are the same, or one is nothing where the other is `null`, also in sequences. -/
inductive Answer.Padded : Answer σ → Answer σ → Prop where
  | same (answer : Answer σ) : Answer.Padded answer answer
  | unit_null : Answer.Padded .unit (.value .null)
  | null_unit : Answer.Padded (.value .null) .unit
  | sequence {steps steps' : List (Step σ)} : Program.Padded steps steps' →
      Answer.Padded (.sequence steps) (.sequence steps')

/-- Every composite has its own value. -/
theorem Program.padded_self (steps : List (Step σ)) : Program.Padded steps steps := by
  induction steps with
  | nil => exact .nil
  | cons s rest ih => exact .cons s ih

/-- It does not matter which composite comes first. -/
theorem Program.Padded.symm {steps steps' : List (Step σ)} (h : Program.Padded steps steps') :
    Program.Padded steps' steps := by
  induction h with
  | nil => exact .nil
  | returns => exact .returned
  | returned => exact .returns
  | cons s _ ih => exact .cons s ih
  | composite binding _ _ ihsteps ihrest => exact .composite binding ihsteps ihrest

/-- It does not matter which answer comes first. -/
theorem Answer.Padded.symm {answer answer' : Answer σ} (h : answer.Padded answer') :
    answer'.Padded answer := by
  cases h with
  | same answer => exact .same answer
  | unit_null => exact .null_unit
  | null_unit => exact .unit_null
  | sequence hsteps => exact .sequence hsteps.symm

namespace FanOut

/-- As a last answer nothing leaves the composite without a value, and `null` returns it. -/
theorem lastSteps_padded (name : String) {answer answer' : Answer σ} (h : answer.Padded answer') :
    Program.Padded (lastSteps name answer) (lastSteps name answer') := by
  cases h with
  | same answer => exact Program.padded_self _
  | unit_null => exact .returns
  | null_unit => exact .returned
  | sequence hsteps => exact .composite (some name) hsteps (Program.padded_self _)

/-- As an earlier answer neither leaves a step. -/
theorem earlierStep?_padded {answer answer' : Answer σ} (h : answer.Padded answer')
    {rest rest' : List (Step σ)} (hrest : Program.Padded rest rest') :
    Program.Padded ((earlierStep? answer).toList ++ rest)
      ((earlierStep? answer').toList ++ rest') := by
  cases h with
  | same answer =>
    cases earlierStep? answer with
    | none => exact hrest
    | some s => exact .cons s hrest
  | unit_null | null_unit => exact hrest
  | sequence hsteps => exact .composite none hsteps hrest

/-- So the sequences of a fan-out have the same value. -/
theorem combine_padded (name : String) {given given' : List (Answer σ)}
    (h : List.Forall₂ Answer.Padded given given') :
    Program.Padded (combine name given) (combine name given') := by
  induction h with
  | nil => exact .nil
  | cons hanswer hlater ih =>
    cases hlater with
    | nil => exact lastSteps_padded name hanswer
    | cons _ _ => exact earlierStep?_padded hanswer ih

end FanOut

/-- Answers are alike if they are the same up to their spelling, and one may also be nothing where
the other is `null`. -/
def Likeness.padding : Likeness σ where
  answers answer answer' := answer.plain.Padded answer'.plain
  steps := Eq
  combine name given given' h := by
    have hplain :
        List.Forall₂ Answer.Padded (given.map Answer.plain) (given'.map Answer.plain) := by
      rwa [List.forall₂_map_left_iff, List.forall₂_map_right_iff]
    rw [← FanOut.combine_plain name given, ← FanOut.combine_plain name given']
    exact .sequence (FanOut.combine_padded name hplain)

/-- It does not matter which registry says nothing. -/
theorem Likeness.symmetric_padding : (Likeness.padding (σ := σ)).Symmetric where
  answers := Answer.Padded.symm
  steps := Eq.symm

/-- Such answers lead to composites with the same value. -/
theorem Likeness.leads_padding (hT : ∀ steps, T steps steps) :
    (Likeness.padding (σ := σ)).Leads Program.Padded T where
  answers := by
    intro answer answer' hplain
    have hplain : answer.plain.Padded answer'.plain := hplain
    apply Answer.LeadAlike.of_plain
    generalize answer.plain = answer, answer'.plain = answer' at hplain
    cases hplain with
    | same answer => exact answer.leadAlike_self Program.padded_self
    | unit_null | null_unit => exact .inr ⟨_, _, rfl, rfl, .value .null⟩
    | sequence hsteps => exact .inr ⟨_, _, rfl, rfl, .enter hsteps⟩
  steps := by
    rintro steps _ rfl
    exact hT steps

/-! ## Evaluations -/

open Evaluation

/-- An evaluation lies below another one if the same is found at first, and what it goes on with
lies below. -/
theorem Evaluation.Starts.le_of_sameFound {α β : Type} {m m' : Evaluation σ α}
    {acts acts' : σ → List (Act σ)} {found found' : σ → Option (Except Fault β × σ)}
    {next next' : β → Evaluation σ α} (h : m.Starts acts found next)
    (h' : m'.Starts acts' found' next') {R : β → β → Prop}
    (hfound : ∀ world, SameFound R (found world) (found' world) ∧ acts world = acts' world)
    (hnext : ∀ b b', R b b' → next b ≤ next' b') : m ≤ m' := by
  intro surroundings
  have hm := h surroundings
  have hm' := h' surroundings
  obtain ⟨hsame, hacts⟩ := hfound surroundings.world
  generalize found surroundings.world = result at hm hsame
  generalize found' surroundings.world = result' at hm' hsame
  cases hsame with
  | none =>
    -- Nothing is found by either, and so the courses have only the acts up to here.
    have hsame : (m.course surroundings).acts = (m'.course surroundings).acts := by
      rw [hm.1, hm'.1, hacts]
    exact Course.le_of_cut hm.2 (hsame ▸ List.prefix_rfl)
  | @some result result' hsame =>
    obtain ⟨made, world⟩ := result
    obtain ⟨made', world'⟩ := result'
    obtain ⟨hagree, rfl⟩ := hsame
    rcases hagree.elim with ⟨b, b', rfl, rfl, hb⟩ | ⟨f, rfl, rfl⟩
    · dsimp only at hm hm'
      rw [hm, hm', hacts]
      exact Course.after_le_after _ (hnext b b' hb _)
    · dsimp only at hm hm'
      rw [hm, hm', hacts]

namespace Registry

variable {registry registry' : Registry σ} {fuel : Nat} {β : Type}
  {finish : Outcome → Evaluation σ β}

/-- Composites with the same value are evaluated alike, up to the value. -/
def NestedBelow (registry registry' : Registry σ) (fuel : Nat) : Prop :=
  ∀ steps steps', Program.Padded steps steps' →
    (registry.evaluate fuel .empty steps).valued ≤ (registry'.evaluate fuel .empty steps').valued

/-- So are the steps that are left of a composite, up to how it is finished. -/
def RestBelow (registry registry' : Registry σ) (T : List (Step σ) → List (Step σ) → Prop)
    (finish : Outcome → Evaluation σ β) (fuel : Nat) : Prop :=
  ∀ env rest rest', T rest rest' →
    registry.evaluate fuel env rest >>= finish ≤ registry'.evaluate fuel env rest' >>= finish

/-- Steps that come to the same up to composites with the same value are carried out alike. -/
theorem carryOut_le (hnested : registry.NestedBelow registry' fuel)
    (hrest : registry.RestBelow registry' T finish fuel) (env : Environment)
    {x x' : Resolution σ} (hx : x.Paired Program.Padded T x') :
    registry.carryOut fuel env x >>= finish ≤ registry'.carryOut fuel env x' >>= finish := by
  obtain ⟨binding, verdict, rest⟩ := x
  obtain ⟨binding', verdict', rest'⟩ := x'
  obtain ⟨hbinding, hverdict, hleft⟩ := hx
  dsimp only at hbinding hverdict hleft
  subst hbinding
  have hgoOn : ∀ v, registry.goOn fuel env binding v rest >>= finish ≤
      registry'.goOn fuel env binding v rest' >>= finish := by
    intro v
    unfold goOn
    rw [bind_assoc, bind_assoc]
    exact bind_le_bind_right _ fun next => hrest next rest rest' hleft
  unfold carryOut
  cases hverdict with
  | value v => exact hgoOn v
  | escape v => exact le_rfl
  | suspend io =>
    dsimp only
    rw [bind_assoc, bind_assoc]
    exact bind_le_bind_right _ hgoOn
  | enter hsteps =>
    dsimp only
    rw [bind_assoc, bind_assoc]
    exact bind_le_bind (hnested _ _ hsteps) hgoOn

/-- Composites are evaluated alike if their front steps are resolved to the same up to composites
with the same value. -/
theorem evaluate_cons_le (hnested : registry.NestedBelow registry' fuel)
    (hrest : registry.RestBelow registry' T finish fuel) {env : Environment} {s s' : Step σ}
    {rest rest' : List (Step σ)}
    (hfront : ∀ world, SameFound (Resolution.Paired Program.Padded T)
        (registry.resolve fuel env s rest world) (registry'.resolve fuel env s' rest' world) ∧
      registry.resolveActs fuel env s world = registry'.resolveActs fuel env s' world) :
    registry.evaluate (fuel + 1) env (s :: rest) >>= finish ≤
      registry'.evaluate (fuel + 1) env (s' :: rest') >>= finish := by
  have hstarts := (registry.evaluate_starts fuel env s rest).bind finish
  have hstarts' := (registry'.evaluate_starts fuel env s' rest').bind finish
  exact hstarts.le_of_sameFound hstarts' hfront fun x x' hx => carryOut_le hnested hrest env hx

/-- Steps that open composites under the same name are resolved to the same up to these. -/
theorem resolve_composite (registry registry' : Registry σ) (fuel : Nat) (env : Environment)
    (binding : Option String) {steps steps' rest rest' : List (Step σ)} (hsteps : S steps steps')
    (hrest : T rest rest') (world : σ) :
    SameFound (Resolution.Paired S T)
        (registry.resolve fuel env (.named binding (.composite steps)) rest world)
        (registry'.resolve fuel env (.named binding (.composite steps')) rest' world) ∧
      registry.resolveActs fuel env (.named binding (.composite steps)) world =
        registry'.resolveActs fuel env (.named binding (.composite steps')) world := by
  have hacts : ∀ o : Operation σ, (Step.named binding o).acts env none world =
      (Step.named binding (.composite [])).acts env none world := by
    intro o
    cases binding <;> rfl
  unfold resolve resolveActs
  rw [hacts (.composite steps), hacts (.composite steps')]
  rcases Step.unwrap_named_cases (σ := σ) env binding with haccepted | ⟨f, hrefused⟩
  · rw [haccepted, haccepted]
    exact ⟨.some ⟨.ok ⟨rfl, .enter hsteps, hrest⟩, rfl⟩, rfl⟩
  · rw [hrefused, hrefused]
    exact ⟨.some ⟨.error f, rfl⟩, rfl⟩

variable (h : registry.Alike .padding registry')
include h

/-- Composites with the same value are evaluated alike, up to the value. -/
theorem valued_evaluate_le {env : Environment} {steps steps' : List (Step σ)}
    (hsteps : Program.Padded steps steps') :
    (registry.evaluate fuel env steps).valued ≤ (registry'.evaluate fuel env steps').valued := by
  induction fuel generalizing env steps steps' with
  | zero => exact unfinished_le _
  | succ fuel ih =>
    have hnested : registry.NestedBelow registry' fuel := fun _ _ hsteps => ih hsteps
    have hrest : registry.RestBelow registry' Program.Padded
        (fun outcome => pure (outcome.returned?.getD .null)) fuel := fun _ _ _ hrest => ih hrest
    cases hsteps with
    | nil => exact le_rfl
    -- The value of a composite that runs out of steps is `null` as well.
    | returns => exact le_rfl
    | returned => exact le_rfl
    | cons s hleft =>
      exact evaluate_cons_le hnested hrest fun world =>
        h.resolve (Likeness.leads_padding Program.padded_self) Program.padded_self fuel env s
          hleft world
    | composite binding hinner hleft =>
      exact evaluate_cons_le hnested hrest fun world =>
        resolve_composite registry registry' fuel env binding hinner hleft world

/-- A program is evaluated alike over registries that are alike up to nothing and `null`. -/
theorem evaluate_le (env : Environment) (program : List (Step σ)) :
    registry.evaluate fuel env program ≤ registry'.evaluate fuel env program := by
  induction fuel generalizing env program with
  | zero => exact unfinished_le _
  | succ fuel ih =>
    cases program with
    | nil => exact le_rfl
    | cons s rest =>
      have hnested : registry.NestedBelow registry' fuel :=
        fun _ _ hsteps => valued_evaluate_le h hsteps
      have hrest : registry.RestBelow registry' Eq pure fuel := by
        rintro env rest _ rfl
        rw [bind_pure, bind_pure]
        exact ih env rest
      have hcons := evaluate_cons_le hnested hrest fun world =>
        h.resolve (Likeness.leads_padding fun _ => rfl) Program.padded_self fuel env s
          (Eq.refl rest) world
      rwa [bind_pure, bind_pure] at hcons

end Registry

/-! ## Whole programs -/

/-- Machines that step a running execution alike, and do the same on the way, make the same calls.
-/
theorem Machine.advance_congr {m m' : Machine σ}
    (h : ∀ fuel stack world,
      m.step fuel (.running stack) world = m'.step fuel (.running stack) world ∧
      m.registry.stepActs fuel stack world = m'.registry.stepActs fuel stack world) (fuel : Nat) :
    m.advance fuel = m'.advance fuel := by
  funext s
  unfold advance
  simp only [h]

namespace Executor

variable (x : Executor σ) {registry' : Registry σ} (program : Program σ)
  (surroundings : Surroundings σ)

/-- How values and sequences are spelled does not show in any call. -/
theorem sessionAfter_of_spelling (h : x.registry.Alike .spelling registry') (fuel n : Nat) :
    x.machine.sessionAfter program surroundings fuel n =
      (x.over registry').machine.sessionAfter program surroundings fuel n := by
  have hadvance : x.machine.advance fuel = (x.over registry').machine.advance fuel := by
    refine Machine.advance_congr (fun fuel stack world => ?_) fuel
    obtain ⟨⟨steps, env, binding, discards⟩, below⟩ := stack
    cases steps with
    | nil => exact ⟨rfl, rfl⟩
    | cons s rest =>
      obtain ⟨hfound, hacts⟩ :=
        h.resolve Likeness.leads_spelling (fun _ => rfl) fuel env s (Eq.refl rest) world
      have hsame := hfound.eq fun _ _ => Resolution.Paired.eq
      constructor
      · dsimp only [machine, Executor.over, step]
        rw [hsame]
      · exact hacts
  unfold Machine.sessionAfter
  rw [hadvance]

/-- Each session without a limit lies below one over a registry that is alike up to nothing and
`null`. -/
theorem exists_session_ge_of_padding (h : x.registry.Alike .padding registry') (fuel calls : Nat) :
    ∃ more calls', (x.sessionUnder none program surroundings fuel calls).course ≤
      ((x.over registry').sessionUnder none program surroundings more calls').course := by
  refine x.exists_session_ge_of_evaluate program surroundings monotone_id
    (fun fuel => ?_) fuel calls
  exact ⟨fuel, Registry.evaluate_le h .empty program surroundings⟩

/-- Answers that mean the same cannot be told apart. If the handlers of two registries only differ
in how they spell values and sequences, then every call of a program's session is the same over
both: what it does, what it comes to, which composites are open after it and what is bound in them.
If one may also answer with nothing where the other answers with `null`, then without a limit to the
depth both run the same: whatever is done over the one is done over the other, in the same order and
on the same surroundings, and the one ends just if the other does, with the same. -/
theorem equivalent_answers :
    (x.registry.Alike .spelling registry' → ∀ fuel n,
      x.machine.sessionAfter program surroundings fuel n =
        (x.over registry').machine.sessionAfter program surroundings fuel n) ∧
    (x.registry.Alike .padding registry' →
      Course.SameRun
        (fun i : Nat × Nat => (x.sessionUnder none program surroundings i.1 i.2).course)
        fun i : Nat × Nat =>
          ((x.over registry').sessionUnder none program surroundings i.1 i.2).course) := by
  constructor
  · exact x.sessionAfter_of_spelling program surroundings
  · intro h
    have hback : (x.over registry').registry.Alike .padding x.registry :=
      h.symm Likeness.symmetric_padding
    constructor
    · rintro ⟨fuel, calls⟩
      obtain ⟨more, calls', hle⟩ :=
        x.exists_session_ge_of_padding program surroundings h fuel calls
      exact ⟨(more, calls'), hle⟩
    · rintro ⟨fuel, calls⟩
      obtain ⟨more, calls', hle⟩ :=
        (x.over registry').exists_session_ge_of_padding program surroundings hback fuel calls
      exact ⟨(more, calls'), hle⟩

end Executor

/-! ## An example with a poll -/

/-- Three parties are polled, the last two of them together. It is left open how the first spells
its value and the second its steps, and what the third says. -/
def Registry.poll (value : Value → Answer Unit) (run : List (Step Unit) → Answer Unit)
    (last : Answer Unit) : Registry Unit :=
  ⟨[.fanOut "poll" "last"
    [.table "poll" [("ask", fun _ => pure (value (.bool true)))],
      .fanOut "poll" "last"
        [.table "poll" [("ask", fun _ => pure (run [.returning (.bool false)]))],
          .table "poll" [("ask", fun _ => pure last)]]]]⟩

/-- Runs programs over the poll with plain answers, in which the last party says nothing. -/
def Executor.polling : Executor Unit := { registry := .poll .value .sequence .unit }

/-- The poll with operations for answers. -/
def Registry.pollOfOperations : Registry Unit :=
  .poll (fun v => .operation (.returning v)) (fun steps => .operation (.composite steps)) .unit

/-- The poll in which the last party says `null`. -/
def Registry.pollOfNull : Registry Unit := .poll .value .sequence (.value .null)

/-- Takes the poll. -/
def Program.takePoll : Program Unit := [.bind "answer" (.request ⟨"poll", "ask", []⟩)]

/-- Parties that answer with operations are not noticed. Whether the last party says nothing or
`null` shows in how many composites are open at once, and in nothing else. -/
theorem Executor.equivalent_answers_poll :
    (polling.registry.Alike .spelling .pollOfOperations ∧
      polling.machine.sessionAfter .takePoll ⟨(), []⟩ 1 3 =
        (polling.over .pollOfOperations).machine.sessionAfter .takePoll ⟨(), []⟩ 1 3) ∧
    (polling.registry.Alike .padding .pollOfNull ∧
      Course.SameRun
        (fun i : Nat × Nat => (polling.sessionUnder none .takePoll ⟨(), []⟩ i.1 i.2).course)
        fun i : Nat × Nat =>
          ((polling.over .pollOfNull).sessionUnder none .takePoll ⟨(), []⟩ i.1 i.2).course) ∧
    (polling.sessionUnder none .takePoll ⟨(), []⟩ 1 3).execution.depth = 3 ∧
    ((polling.over .pollOfNull).sessionUnder none .takePoll ⟨(), []⟩ 1 3).execution.depth = 4 := by
  have hspelling : polling.registry.Alike .spelling .pollOfOperations :=
    .cons (.fanOut _ _ (.cons (.table _ (.cons ⟨rfl, fun _ => .pure rfl⟩ .nil))
      (.cons (.fanOut _ _ (.cons (.table _ (.cons ⟨rfl, fun _ => .pure rfl⟩ .nil))
        (.cons (.table _ (.cons ⟨rfl, fun _ => .pure rfl⟩ .nil)) .nil))) .nil))) .nil
  have hpadding : polling.registry.Alike .padding .pollOfNull :=
    .cons (.fanOut _ _ (.cons (.table _ (.cons ⟨rfl, fun _ => .pure (.same _)⟩ .nil))
      (.cons (.fanOut _ _ (.cons (.table _ (.cons ⟨rfl, fun _ => .pure (.same _)⟩ .nil))
        (.cons (.table _ (.cons ⟨rfl, fun _ => .pure .unit_null⟩ .nil)) .nil))) .nil))) .nil
  exact ⟨⟨hspelling, (polling.equivalent_answers .takePoll ⟨(), []⟩).1 hspelling 1 3⟩,
    ⟨hpadding, (polling.equivalent_answers .takePoll ⟨(), []⟩).2 hpadding⟩, rfl, rfl⟩

end EffectPrograms

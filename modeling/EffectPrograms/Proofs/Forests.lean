import EffectPrograms.Proofs.Answers
import EffectPrograms.Proofs.DepthLimit
import EffectPrograms.Proofs.NameChecks

/-!
# Requests that expand to trees

A request may be answered with a sequence of requests, each of which is answered in the same way,
until there are only values: it expands to a `RequestTree`. A program of such requests is a
`Forest`. Nothing of a tree is built before it is needed, and so the trees are walked in preorder.

How many composites are open at once depends on the shape. The children of a node run in a composite
on top of the one that the node stands in, or in its place if the node is the last there. Only the
outermost composite never gives its place away. `RequestTree.reach` follows this rule, and a walk
through the trees comes to exactly that depth (`Executor.Walks`), which settles for every limit
whether the program gets through.
-/

namespace EffectPrograms

variable {σ : Type}

/-- A request with what it expands to: it has a value, or it is answered with further requests. -/
inductive RequestTree where
  | leaf (r : Request)
  | node (r : Request) (children : List RequestTree)

namespace RequestTree

/-- The request at the root. -/
def request : RequestTree → Request
  | .leaf r | .node r _ => r

/-- The step that asks for it. -/
def ask (tree : RequestTree) : Step σ := .named none (.request tree.request)

mutual

/-- The requests of the tree in preorder. -/
def preorder : RequestTree → List Request
  | .leaf r => [r]
  | .node r children => r :: preorderEach children

/-- The requests of several trees, one tree after the other. -/
def preorderEach : List RequestTree → List Request
  | [] => []
  | tree :: rest => tree.preorder ++ preorderEach rest

end

mutual

/-- How many composites are open at most while the children of the tree run, if they do so in the
composite at this depth. -/
def reach : RequestTree → Nat → Nat
  | .leaf _, _ => 0
  | .node _ children, depth => reachEach children depth

/-- How many are open at most while the steps of an inner composite at this depth run, which ask for
the trees. The children of the last one take the place of the composite. -/
def reachEach : List RequestTree → Nat → Nat
  | [], depth => depth
  | tree :: rest, depth =>
    max (tree.reach (if rest.isEmpty then depth else depth + 1)) (reachEach rest depth)

end

mutual

/-- What holds of lists of trees by induction holds of a tree before others. -/
theorem forest_induction_cons {P : List RequestTree → Prop} (nil : P [])
    (leaf : ∀ r rest, P rest → P (.leaf r :: rest))
    (node : ∀ r children rest, P children → P rest → P (.node r children :: rest))
    (tree : RequestTree) (rest : List RequestTree) (hrest : P rest) : P (tree :: rest) := by
  cases tree with
  | leaf r => exact leaf r rest hrest
  | node r children => exact node r children rest (forest_induction nil leaf node children) hrest

/-- Induction over lists of trees: a leaf comes before trees for which it holds, and a node has
children for which it holds, too. -/
@[elab_as_elim]
theorem forest_induction {P : List RequestTree → Prop} (nil : P [])
    (leaf : ∀ r rest, P rest → P (.leaf r :: rest))
    (node : ∀ r children rest, P children → P rest → P (.node r children :: rest))
    (trees : List RequestTree) : P trees := by
  cases trees with
  | nil => exact nil
  | cons tree rest =>
    exact forest_induction_cons nil leaf node tree rest (forest_induction nil leaf node rest)

end

/-- A leaf is asked for before the later trees. -/
theorem preorderEach_leaf (r : Request) (rest : List RequestTree) :
    preorderEach (.leaf r :: rest) = r :: preorderEach rest := rfl

/-- A node is asked for before its children, and these before the later trees. -/
theorem preorderEach_node (r : Request) (children rest : List RequestTree) :
    preorderEach (.node r children :: rest) =
      r :: (preorderEach children ++ preorderEach rest) := rfl

/-- The composite itself is open. -/
theorem le_reachEach (trees : List RequestTree) (depth : Nat) : depth ≤ reachEach trees depth := by
  induction trees with
  | nil => exact le_rfl
  | cons tree rest ih => exact ih.trans (Nat.le_max_right _ _)

/-- A leaf opens nothing. -/
theorem reachEach_leaf (r : Request) (rest : List RequestTree) (depth : Nat) :
    reachEach (.leaf r :: rest) depth = reachEach rest depth := by
  simp [reachEach, reach]

/-- The children of the last node take the place of the composite. -/
theorem reachEach_last (r : Request) (children : List RequestTree) (depth : Nat) :
    reachEach [.node r children] depth = reachEach children depth := by
  have hle := le_reachEach children depth
  simp [reachEach, reach, hle]

/-- The children of any other node run on top of it. -/
theorem reachEach_node (r : Request) (children : List RequestTree) (next : RequestTree)
    (rest : List RequestTree) (depth : Nat) :
    reachEach (.node r children :: next :: rest) depth =
      max (reachEach children (depth + 1)) (reachEach (next :: rest) depth) := rfl

end RequestTree

open RequestTree

/-! ## Interpreters of trees -/

/-- The value that something comes to at once, or `null`. -/
def Verdict.given : Verdict σ → Value
  | .value v => v
  | _ => .null

namespace Registry

variable (registry : Registry σ)

/-- The request is answered with what it comes to, and the rest of the composite is left alone. -/
def Gives (r : Request) (world : σ) (verdict : Verdict σ) (world' : σ) : Prop :=
  ∃ answer : Answer σ, answer.verdict? = some verdict ∧
    registry.dispatch r world = (.ok (answer, none), world')

/-- The world after requests have been dispatched, one after the other. -/
def worldAfter (requests : List Request) (world : σ) : σ :=
  requests.foldl (fun world r => (registry.dispatch r world).2) world

/-- The value with which a request is answered, or `null`. -/
def valueGiven (r : Request) (world : σ) : Value :=
  match registry.dispatch r world with
  | (.ok (answer, _), _) => (answer.verdict?.map Verdict.given).getD .null
  | (.error _, _) => .null

end Registry

mutual

/-- The request at the root is answered with a value if the tree is a leaf, and else with a sequence
of its children, which expand as the tree says when their turns come. -/
def RequestTree.Grows (registry : Registry σ) : RequestTree → σ → Prop
  | .leaf r, world => ∃ v world', registry.Gives r world (.value v) world'
  | .node r children, world => ∃ world',
    registry.Gives r world (.enter (children.map ask)) world' ∧
      RequestTree.GrowEach registry children world'

/-- The same for several trees, one after the other. -/
def RequestTree.GrowEach (registry : Registry σ) : List RequestTree → σ → Prop
  | [], _ => True
  | tree :: rest, world => tree.Grows registry world ∧
    RequestTree.GrowEach registry rest (registry.worldAfter tree.preorder world)

end

namespace Registry.Gives

variable {registry : Registry σ} {r : Request} {world world' : σ} {verdict : Verdict σ}
  (h : registry.Gives r world verdict world')
include h

/-- The world after the request has been dispatched. -/
theorem worldAfter_cons (later : List Request) :
    registry.worldAfter (r :: later) world = registry.worldAfter later world' := by
  obtain ⟨answer, -, hdispatch⟩ := h
  unfold worldAfter
  rw [List.foldl_cons, hdispatch]

/-- The value with which it is answered. -/
theorem valueGiven_eq : registry.valueGiven r world = verdict.given := by
  obtain ⟨answer, hverdict, hdispatch⟩ := h
  unfold valueGiven
  rw [hdispatch]
  dsimp only
  rw [hverdict]
  rfl

/-- A step that asks for it comes to the same, after one dispatch. -/
theorem resolve {env : Environment} {binding : Option String} (hfree : env.Free binding)
    (fuel : Nat) (rest : List (Step σ)) :
    registry.resolve (fuel + 1) env (.named binding (.request r)) rest world =
        some (.ok ⟨binding, verdict, rest⟩, world') ∧
      registry.resolveActs (fuel + 1) env (.named binding (.request r)) world = [.dispatch r] := by
  obtain ⟨answer, hverdict, hdispatch⟩ := h
  obtain ⟨hfollow, hacts⟩ := follow_of_verdict hdispatch hverdict fuel rest
  have hunwrap := Step.unwrap_named (σ := σ) hfree (.request r) world
  obtain ⟨hresolve, hdone⟩ := registry.resolve_of_request hunwrap (fuel + 1) rest
  have hnothing : (Step.named binding (.request r)).acts env none world = [] := by
    cases binding with
    | none => rfl
    | some name =>
      unfold Step.named Step.acts
      cases env.accept none name <;> rfl
  rw [hresolve, hdone, hfollow, hacts, hnothing]
  exact ⟨rfl, rfl⟩

end Registry.Gives

/-- Requests are dispatched in two parts as they are in one. -/
theorem Registry.worldAfter_append (registry : Registry σ) (first second : List Request)
    (world : σ) : registry.worldAfter (first ++ second) world =
      registry.worldAfter second (registry.worldAfter first world) := by
  unfold worldAfter
  rw [List.foldl_append]

namespace RequestTree

variable {registry : Registry σ} {r : Request} {children rest : List RequestTree} {world : σ}

/-- A leaf is answered with a value before the later trees grow. -/
theorem exists_of_growEach_leaf (h : GrowEach registry (.leaf r :: rest) world) :
    ∃ v world', registry.Gives r world (.value v) world' ∧ GrowEach registry rest world' := by
  obtain ⟨⟨v, world', hgives⟩, hrest⟩ := h
  refine ⟨v, world', hgives, ?_⟩
  rwa [preorder, hgives.worldAfter_cons] at hrest

/-- A node is answered with its children, and these grow before the later trees. -/
theorem exists_of_growEach_node (h : GrowEach registry (.node r children :: rest) world) :
    ∃ world', registry.Gives r world (.enter (children.map ask)) world' ∧
      GrowEach registry children world' ∧
      GrowEach registry rest (registry.worldAfter (preorderEach children) world') := by
  obtain ⟨⟨world', hgives, hchildren⟩, hrest⟩ := h
  refine ⟨world', hgives, hchildren, ?_⟩
  rwa [preorder, hgives.worldAfter_cons] at hrest

end RequestTree

/-! ## Walks -/

/-- Steps that only make progress lead from an execution in a world to another one. On the way the
acts are done, and at most so many composites are open, at one time just as many. -/
inductive Executor.Walks (x : Executor σ) (fuel : Nat) :
    Execution σ → σ → List (Act σ) → Nat → Execution σ → σ → Prop where
  | rest (e : Execution σ) (world : σ) : Walks x fuel e world [] e.depth e world
  | step {stack : Stack σ} {next e : Execution σ} {world world' last : σ}
      {first later : List (Act σ)} {peak : Nat} :
      x.step fuel (.running stack) world = some ⟨.ok .progress, next, world'⟩ →
      x.registry.stepActs fuel stack world = first →
      Walks x fuel next world' later peak e last →
        Walks x fuel (.running stack) world (first ++ later) (max stack.depth peak) e last

namespace Executor

variable {x : Executor σ} {fuel : Nat}

/-- One walk goes on where another ends. -/
theorem Walks.trans {e e' e'' : Execution σ} {world world' world'' : σ} {acts acts' : List (Act σ)}
    {peak peak' : Nat} (h : x.Walks fuel e world acts peak e' world')
    (h' : x.Walks fuel e' world' acts' peak' e'' world'') :
    x.Walks fuel e world (acts ++ acts') (max peak peak') e'' world'' := by
  induction h with
  | rest e world =>
    have hpeak : e.depth ≤ peak' := by
      cases h' with
      | rest e world => exact le_rfl
      | step hstep hacts hlater => exact Nat.le_max_left _ _
    rwa [List.nil_append, Nat.max_eq_right hpeak]
  | step hstep hacts _ ih =>
    rw [List.append_assoc, Nat.max_assoc]
    exact .step hstep hacts (ih h')

/-- A session that stands where a walk starts makes the walk, call by call. -/
theorem Walks.session {e e' : Execution σ} {world world' : σ} {acts : List (Act σ)} {peak : Nat}
    (h : x.Walks fuel e world acts peak e' world') {s : Session σ} (he : s.execution = e)
    (hworld : s.surroundings.world = world) (hhung : s.hung = false) :
    ∃ k replies, (x.machine.advance fuel)^[k] s =
        ⟨e', { s.surroundings with world := world' }, s.acts ++ acts, replies, false⟩ ∧
      (∀ i ≤ k, ((x.machine.advance fuel)^[i] s).execution.depth ≤ peak) ∧
      ∃ i ≤ k, ((x.machine.advance fuel)^[i] s).execution.depth = peak := by
  induction h generalizing s with
  | rest e world =>
    subst he hworld
    refine ⟨0, s.replies, ?_, fun i hi => ?_, 0, le_rfl, rfl⟩
    · rw [List.append_nil, ← hhung]
      rfl
    · obtain rfl : i = 0 := by omega
      exact le_rfl
  | @step stack next e world world' last first later peak hstep hacts _ ih =>
    -- One call makes the first step, and the session after it stands where the rest starts.
    have hadvance : x.machine.advance fuel s =
        s.stepped first ⟨.ok .progress, next, world'⟩ := by
      have hstep : x.machine.step fuel (.running stack) world =
          some ⟨.ok .progress, next, world'⟩ := hstep
      have hacts : x.machine.registry.stepActs fuel stack world = first := hacts
      rw [Machine.advance_of_running hhung he, hworld, hstep, hacts]
    obtain ⟨k, replies, hk, hbelow, i, hi, hpeak⟩ :=
      ih (s := x.machine.advance fuel s) (by rw [hadvance]; rfl) (by rw [hadvance]; rfl)
        (by rw [hadvance]; exact hhung)
    refine ⟨k + 1, replies, ?_, ?_, ?_⟩
    · rw [Function.iterate_succ_apply, hk, hadvance]
      simp [Session.stepped, Event.acts]
    · intro i hi
      cases i with
      | zero =>
        show s.execution.depth ≤ _
        rw [he]
        exact Nat.le_max_left _ _
      | succ i =>
        rw [Function.iterate_succ_apply]
        exact (hbelow i (by omega)).trans (Nat.le_max_right _ _)
    · by_cases hle : stack.depth ≤ peak
      · refine ⟨i + 1, by omega, ?_⟩
        rw [Function.iterate_succ_apply, hpeak, Nat.max_eq_right hle]
      · refine ⟨0, Nat.zero_le _, ?_⟩
        show s.execution.depth = _
        rw [he, Nat.max_eq_left (by omega)]
        rfl

/-- A walk starts with a request in the front step, and goes on from where the answer leads. -/
theorem Walks.start {stack : Stack σ} {binding : Option String} {r : Request}
    {rest : List (Step σ)} (hsteps : stack.top.steps = .named binding (.request r) :: rest)
    (hfree : stack.top.env.Free binding) {verdict : Verdict σ} {world world' last : σ}
    (h : x.registry.Gives r world verdict world') {next e : Execution σ}
    (hcommit : stack.commit x.settings.maxDepth ⟨binding, verdict, rest⟩ = .ok (.progress, next))
    {later : List (Act σ)} {peak : Nat}
    (hlater : x.Walks (fuel + 1) next world' later peak e last) :
    x.Walks (fuel + 1) (.running stack) world (.dispatch r :: later) (max stack.depth peak) e
      last := by
  obtain ⟨hresolve, hacts⟩ := h.resolve hfree fuel rest
  have hstep : x.step (fuel + 1) (.running stack) world = some ⟨.ok .progress, next, world'⟩ := by
    rw [x.step_of_resolve hsteps hresolve, hcommit]
    rfl
  have hdone : x.registry.stepActs (fuel + 1) stack world = [.dispatch r] := by
    rw [x.registry.stepActs_of_steps hsteps, hacts]
  exact .step hstep hdone hlater

/-- A walk ends with an inner composite that runs out of steps. -/
theorem Walks.leave {frame parent : Frame σ} {below : List (Frame σ)} (hsteps : frame.steps = [])
    (hfree : parent.env.Free frame.binding) (world : σ) :
    x.Walks fuel (.running ⟨frame, parent :: below⟩) world [] (below.length + 2)
      (.running ⟨{ parent with env := parent.env.bound frame.binding .null }, below⟩) world := by
  have hleave : Stack.leave ⟨frame, parent :: below⟩ none = .ok (.progress, .running
      ⟨{ parent with env := parent.env.bound frame.binding .null }, below⟩) := by
    have hbind := Stack.bind_of_free parent below hfree .null
    have hnull : (if frame.discards then Value.null else (none : Option Value).getD .null) =
        .null := by
      cases frame.discards <;> rfl
    have hframes := Stack.leave_frames frame ⟨parent, below⟩ none
    rw [hnull, hbind] at hframes
    exact hframes
  have hstep : x.step fuel (.running ⟨frame, parent :: below⟩) world = some ⟨.ok .progress,
      .running ⟨{ parent with env := parent.env.bound frame.binding .null }, below⟩, world⟩ := by
    rw [x.step_of_leaves (.exhausted hsteps), hleave]
    rfl
  have hdone : x.registry.stepActs fuel ⟨frame, parent :: below⟩ world = [] := by
    unfold Registry.stepActs
    rw [hsteps]
  have hwalk := Walks.step hstep hdone (.rest _ world)
  have hpeak : max (Stack.depth ⟨frame, parent :: below⟩)
      (Stack.depth ⟨{ parent with env := parent.env.bound frame.binding .null }, below⟩) =
        below.length + 2 := by
    simp only [Stack.depth, List.length_cons]
    omega
  exact hpeak ▸ hwalk

/-! ## Walks through trees -/

/-- The steps of an inner composite that ask for trees are walked through in preorder, up to where
the composite is left without a value. -/
theorem Walks.inner (fuel : Nat) (hlimit : x.settings.maxDepth = none) (trees : List RequestTree)
    (frame parent : Frame σ) (below : List (Frame σ)) (hsteps : frame.steps = trees.map ask)
    (hfree : parent.env.Free frame.binding) {world : σ}
    (hgrow : GrowEach x.registry trees world) :
    x.Walks (fuel + 1) (.running ⟨frame, parent :: below⟩) world
      ((preorderEach trees).map .dispatch) (reachEach trees (below.length + 2))
      (.running ⟨{ parent with env := parent.env.bound frame.binding .null }, below⟩)
      (x.registry.worldAfter (preorderEach trees) world) := by
  -- The frames are generalized, for children run on top of this composite or in its place.
  induction trees using forest_induction generalizing frame parent below world with
  | nil => exact .leave hsteps hfree world
  | leaf r rest ih =>
    obtain ⟨v, world', hgives, hgrow⟩ := exists_of_growEach_leaf hgrow
    have hcommit : Stack.commit x.settings.maxDepth ⟨frame, parent :: below⟩
        ⟨none, .value v, rest.map ask⟩ =
          .ok (.progress, .running ⟨{ frame with steps := rest.map ask }, parent :: below⟩) :=
      Stack.commit_value frame.env.free_none rfl _
    have hrest := ih { frame with steps := rest.map ask } parent below rfl hfree hgrow
    have hlater := Walks.start hsteps frame.env.free_none hgives hcommit hrest
    have hpeak : max (Stack.depth ⟨frame, parent :: below⟩) (reachEach rest (below.length + 2)) =
        reachEach (.leaf r :: rest) (below.length + 2) := by
      rw [reachEach_leaf]
      exact Nat.max_eq_right (le_reachEach rest _)
    rw [hpeak] at hlater
    rw [preorderEach_leaf, hgives.worldAfter_cons]
    exact hlater
  | node r children rest ihchildren ihrest =>
    obtain ⟨world', hgives, hchildren, hgrow⟩ := exists_of_growEach_node hgrow
    rw [preorderEach_node, hgives.worldAfter_cons, Registry.worldAfter_append]
    cases rest with
    | nil =>
      -- The composite of the children inherits the name under which this one is bound.
      have hcommit : Stack.commit x.settings.maxDepth ⟨frame, parent :: below⟩
          ⟨none, .enter (children.map ask), []⟩ = .ok (.progress, .running
            ⟨{ steps := children.map ask, binding := frame.binding, discards := true },
              parent :: below⟩) :=
        Stack.commit_enter_last rfl ⟨List.cons_ne_nil _ _, rfl⟩
      have hinner := ihchildren
        { steps := children.map ask, binding := frame.binding, discards := true } parent below rfl
        hfree hchildren
      have hlater := Walks.start hsteps frame.env.free_none hgives hcommit hinner
      have hpeak : max (Stack.depth ⟨frame, parent :: below⟩)
          (reachEach children (below.length + 2)) =
            reachEach [.node r children] (below.length + 2) := by
        rw [reachEach_last]
        exact Nat.max_eq_right (le_reachEach children _)
      rw [hpeak] at hlater
      rw [preorderEach, List.append_nil]
      exact hlater
    | cons next rest =>
      have hcommit : Stack.commit x.settings.maxDepth ⟨frame, parent :: below⟩
          ⟨none, .enter (children.map ask), (next :: rest).map ask⟩ = .ok (.progress, .running
            ⟨{ steps := children.map ask },
              { frame with steps := (next :: rest).map ask } :: parent :: below⟩) :=
        Stack.commit_enter rfl (by simp) (by simp [hlimit])
      have hinner := ihchildren { steps := children.map ask }
        { frame with steps := (next :: rest).map ask } (parent :: below) rfl frame.env.free_none
        hchildren
      have houter := ihrest { frame with steps := (next :: rest).map ask } parent below rfl hfree
        hgrow
      have hlater := Walks.start hsteps frame.env.free_none hgives hcommit
        (hinner.trans houter)
      have hpeak : max (Stack.depth ⟨frame, parent :: below⟩)
          (max (reachEach children (below.length + 3))
            (reachEach (next :: rest) (below.length + 2))) =
            reachEach (.node r children :: next :: rest) (below.length + 2) := by
        rw [reachEach_node]
        apply Nat.max_eq_right
        exact (le_reachEach (next :: rest) _).trans (Nat.le_max_right _ _)
      rw [List.map_cons, List.map_append]
      exact hpeak ▸ hlater

end Executor

/-! ## Forests -/

/-- What a program asks for: trees, each with a name for its value or without. -/
abbrev Forest := List (Option String × RequestTree)

namespace Forest

/-- The program that asks for the trees in order. -/
def program (forest : Forest) : Program σ :=
  forest.map fun planted => .named planted.1 (.request planted.2.request)

/-- The names that the program binds. -/
def names (forest : Forest) : List String := forest.filterMap Prod.fst

/-- The requests of all trees in preorder. -/
def preorder (forest : Forest) : List Request := preorderEach (forest.map Prod.snd)

/-- What is done if they are dispatched, each of them once. -/
def acts (forest : Forest) : List (Act σ) := (preorder forest).map .dispatch

/-- How many composites are open at most: the program, and those for the children of its trees,
which are never in its place. -/
def need (forest : Forest) : Nat := (forest.map fun planted => planted.2.reach 2).foldr max 1

/-- What is bound after the program has run. A node has the value `null`. -/
def harvest (registry : Registry σ) : Forest → Environment → σ → Environment
  | [], env, _ => env
  | (binding, tree) :: rest, env, world =>
    harvest registry rest (env.bound binding (registry.valueGiven tree.request world))
      (registry.worldAfter tree.preorder world)

/-- The names are distinct, and each of them can be bound. -/
def Plantable (env : Environment) (forest : Forest) : Prop :=
  (names forest).Nodup ∧ ∀ name ∈ names forest, name ≠ "" ∧ env.contains name = false

variable {env : Environment} {binding : Option String} {tree : RequestTree} {rest : Forest}

/-- The first name can be bound, and after it the other ones. -/
theorem Plantable.cons (h : Plantable env ((binding, tree) :: rest)) :
    env.Free binding ∧ ∀ v, Plantable (env.bound binding v) rest := by
  obtain ⟨hdistinct, hfree⟩ := h
  cases binding with
  | none => exact ⟨env.free_none, fun _ => ⟨hdistinct, hfree⟩⟩
  | some name =>
    have hnames : names ((some name, tree) :: rest) = name :: names rest := rfl
    rw [hnames] at hdistinct hfree
    obtain ⟨hnew, hdistinct⟩ := List.nodup_cons.1 hdistinct
    constructor
    · rintro _ ⟨rfl⟩
      exact hfree name (List.mem_cons_self ..)
    · refine fun v => ⟨hdistinct, fun other hother => ?_⟩
      obtain ⟨hne, hunbound⟩ := hfree other (List.mem_cons_of_mem _ hother)
      refine ⟨hne, Environment.contains_bound hunbound ?_ v⟩
      rintro ⟨rfl⟩
      exact hnew hother

/-- A leaf opens nothing. -/
theorem need_leaf (binding : Option String) (r : Request) (rest : Forest) :
    need ((binding, .leaf r) :: rest) = need rest := by
  simp [need, reach]

/-- The children of a node run on top of the program. -/
theorem need_node (binding : Option String) (r : Request) (children : List RequestTree)
    (rest : Forest) :
    need ((binding, .node r children) :: rest) = max (reachEach children 2) (need rest) := rfl

/-- The program itself is open. -/
theorem one_le_need (forest : Forest) : 1 ≤ need forest := by
  induction forest with
  | nil => exact le_rfl
  | cons planted rest ih => exact ih.trans (Nat.le_max_right _ _)

end Forest

namespace Executor

variable {x : Executor σ}

/-- A program that asks for trees walks through them in preorder, up to where it runs out of steps.
-/
theorem Walks.forest (fuel : Nat) (hlimit : x.settings.maxDepth = none) (forest : Forest)
    (env : Environment) (hplantable : Forest.Plantable env forest) {world : σ}
    (hgrow : GrowEach x.registry (forest.map Prod.snd) world) :
    x.Walks (fuel + 1) (.running ⟨{ steps := Forest.program forest, env }, []⟩) world
      (Forest.acts forest) (Forest.need forest)
      (.running ⟨{ steps := [], env := Forest.harvest x.registry forest env world }, []⟩)
      (x.registry.worldAfter (Forest.preorder forest) world) := by
  -- The environment is generalized, for each tree binds its name before the next is asked for.
  induction forest generalizing env world with
  | nil => exact .rest _ world
  | cons planted rest ih =>
    obtain ⟨binding, tree⟩ := planted
    obtain ⟨hfree, hleft⟩ := hplantable.cons
    rw [List.map_cons] at hgrow
    unfold Forest.acts Forest.preorder Forest.harvest
    rw [List.map_cons]
    cases tree with
    | leaf r =>
      obtain ⟨v, world', hgives, hgrow⟩ := exists_of_growEach_leaf hgrow
      have hcommit : Stack.commit (σ := σ) x.settings.maxDepth
          ⟨{ steps := Forest.program ((binding, .leaf r) :: rest), env }, []⟩
          ⟨binding, .value v, Forest.program rest⟩ = .ok (.progress,
            .running ⟨{ steps := Forest.program rest, env := env.bound binding v }, []⟩) :=
        Stack.commit_value (x := ⟨binding, .value v, Forest.program rest⟩) hfree rfl _
      have hrest := ih (env.bound binding v) (hleft v) hgrow
      have hlater := Walks.start rfl hfree hgives hcommit hrest
      have hpeak : max 1 (Forest.need rest) = Forest.need ((binding, .leaf r) :: rest) := by
        rw [Forest.need_leaf]
        exact Nat.max_eq_right (Forest.one_le_need rest)
      have hworld : x.registry.worldAfter [r] world = world' := hgives.worldAfter_cons []
      rw [preorderEach_leaf, hgives.worldAfter_cons, RequestTree.request, RequestTree.preorder,
        hgives.valueGiven_eq, hworld]
      exact hpeak ▸ hlater
    | node r children =>
      obtain ⟨world', hgives, hchildren, hgrow⟩ := exists_of_growEach_node hgrow
      have hcommit : Stack.commit (σ := σ) x.settings.maxDepth
          ⟨{ steps := Forest.program ((binding, .node r children) :: rest), env }, []⟩
          ⟨binding, .enter (children.map ask), Forest.program rest⟩ = .ok (.progress,
            .running ⟨{ steps := children.map ask, binding },
              [{ steps := Forest.program rest, env }]⟩) :=
        Stack.commit_enter rfl (by simp) (by simp [hlimit])
      have hinner := Walks.inner fuel hlimit children { steps := children.map ask, binding }
        { steps := Forest.program rest, env } [] rfl hfree hchildren
      have hrest := ih (env.bound binding .null) (hleft .null) hgrow
      have hlater := Walks.start rfl hfree hgives hcommit (hinner.trans hrest)
      have hpeak : max 1 (max (reachEach children 2) (Forest.need rest)) =
          Forest.need ((binding, .node r children) :: rest) := by
        rw [Forest.need_node]
        apply Nat.max_eq_right
        exact (Forest.one_le_need rest).trans (Nat.le_max_right _ _)
      rw [preorderEach_node, hgives.worldAfter_cons, Registry.worldAfter_append,
        RequestTree.request, RequestTree.preorder, hgives.valueGiven_eq, hgives.worldAfter_cons,
        List.map_cons, List.map_append]
      exact hpeak ▸ hlater

variable (x : Executor σ) {forest : Forest} (surroundings : Surroundings σ)

/-- Without a limit the trees are walked through to the end, and at some time as many composites are
open as they need. -/
theorem exists_forest_end (hplantable : Forest.Plantable .empty forest)
    (hgrow : GrowEach x.registry (forest.map Prod.snd) surroundings.world) (fuel : Nat) :
    (∃ k, ∀ n ≥ k,
      (x.sessionUnder none forest.program surroundings (fuel + 1) n).course =
        ⟨forest.acts,
          .ok (.environment (Forest.harvest x.registry forest .empty surroundings.world)),
          { surroundings with
            world := x.registry.worldAfter forest.preorder surroundings.world }⟩) ∧
    (∀ n, (x.sessionUnder none forest.program surroundings (fuel + 1) n).execution.depth ≤
      forest.need) ∧
    ∃ n, (x.sessionUnder none forest.program surroundings (fuel + 1) n).execution.depth =
      forest.need := by
  have hwalk := Walks.forest (x := x.limited none) fuel rfl forest .empty hplantable hgrow
  obtain ⟨k, replies, hk, hbelow, i, -, hpeak⟩ :=
    hwalk.session (s := .start forest.program surroundings) rfl rfl rfl
  -- The program has run out of steps, and the next call finishes it.
  have hend : x.sessionUnder none forest.program surroundings (fuel + 1) (k + 1) =
      ⟨.done, { surroundings with
          world := x.registry.worldAfter forest.preorder surroundings.world },
        forest.acts,
        replies ++ [.stepped (.ok (.finished (.environment
          (Forest.harvest x.registry forest .empty surroundings.world))))], false⟩ := by
    rw [x.sessionUnder_succ]
    unfold sessionUnder Machine.sessionAfter
    rw [hk, Machine.advance_of_running rfl rfl]
    show Session.stepped _ [] ⟨.ok (.finished (.environment _)), .done, _⟩ = _
    simp [Session.stepped, Session.start, Event.acts, limited]
  have hstays : ∀ n ≥ k + 1,
      x.sessionUnder none forest.program surroundings (fuel + 1) n =
        x.sessionUnder none forest.program surroundings (fuel + 1) (k + 1) := by
    intro n hn
    refine Machine.sessionAfter_of_ended _ _ _ _ hn (.inl ?_)
    exact congrArg Session.execution hend
  refine ⟨⟨k + 1, fun n hn => ?_⟩, fun n => ?_, i, hpeak⟩
  · rw [hstays n hn, hend]
    simp [Session.course, Session.ending]
  · by_cases hn : n ≤ k
    · exact hbelow n hn
    · rw [hstays n (by omega), hend]
      exact Nat.zero_le _

/-- Under a limit that is not enough the program fails with it, after a part of the preorder. -/
theorem exists_forest_tooDeep (hplantable : Forest.Plantable .empty forest)
    (hgrow : GrowEach x.registry (forest.map Prod.snd) surroundings.world) (fuel : Nat)
    {limit : Nat} (hlimit : 1 ≤ limit) (hdeep : limit < forest.need) :
    ∃ k, ∀ n ≥ k,
      (x.sessionUnder (some limit) forest.program surroundings (fuel + 1) n).ending =
        .error (.fault (.tooDeep limit)) ∧
      (x.sessionUnder (some limit) forest.program surroundings (fuel + 1) n).acts <+:
        forest.acts := by
  obtain ⟨⟨last, hlast⟩, -, i, hpeak⟩ := x.exists_forest_end surroundings hplantable hgrow fuel
  rcases x.sessionUnder_some_cases forest.program surroundings (fuel + 1) hlimit i with
    ⟨hwithin, -⟩ | ⟨k, -, hwithin, hleaves, -⟩
  · have hle := hwithin i le_rfl
    omega
  refine ⟨k + 1, fun n hn => ?_⟩
  rw [x.sessionUnder_of_lt_depth forest.program surroundings (fuel + 1) hlimit hn hwithin
    hleaves]
  constructor
  · simp [Session.ending, Session.refuse]
  · -- The refused call did what it would have done without the limit.
    have hprefix := Machine.acts_prefix_sessionAfter (x.limited none).machine
      forest.program surroundings (fuel + 1) (Nat.le_max_left (k + 1) last)
    have hall := congrArg Course.acts (hlast (max (k + 1) last) (Nat.le_max_right _ _))
    dsimp only [Session.course] at hall
    unfold sessionUnder at hall ⊢
    rwa [hall] at hprefix

/-- A program that asks for trees, with distinct names for the values or without, dispatches their
requests in preorder, each of them once, and ends with what they have as values. At most `need`
composites are open at once, and at some time there are just as many. So the program gets through
under a limit just if that is at least `need`, and then the limit changes nothing; under any other
limit it fails with that after a part of the preorder. -/
theorem forest_walked (hdistinct : forest.names.Nodup)
    (hnamed : "" ∉ forest.names)
    (hgrow : GrowEach x.registry (forest.map Prod.snd) surroundings.world) {fuel : Nat}
    (hfuel : 0 < fuel) :
    (∃ k, ∀ n ≥ k,
      (x.sessionUnder none forest.program surroundings fuel n).course =
        ⟨forest.acts,
          .ok (.environment (Forest.harvest x.registry forest .empty surroundings.world)),
          { surroundings with
            world := x.registry.worldAfter forest.preorder surroundings.world }⟩) ∧
    ((∀ n, (x.sessionUnder none forest.program surroundings fuel n).execution.depth ≤
        forest.need) ∧
      ∃ n, (x.sessionUnder none forest.program surroundings fuel n).execution.depth =
        forest.need) ∧
    ∀ limit ≥ 1,
      ((∃ n outcome,
          (x.sessionUnder (some limit) forest.program surroundings fuel n).ending =
            .ok outcome) ↔ forest.need ≤ limit) ∧
      (forest.need ≤ limit → ∀ n,
        x.sessionUnder (some limit) forest.program surroundings fuel n =
          x.sessionUnder none forest.program surroundings fuel n) ∧
      (limit < forest.need → ∃ k, ∀ n ≥ k,
        (x.sessionUnder (some limit) forest.program surroundings fuel n).ending =
          .error (.fault (.tooDeep limit)) ∧
        (x.sessionUnder (some limit) forest.program surroundings fuel n).acts <+:
          forest.acts) := by
  obtain ⟨fuel, rfl⟩ : ∃ m, fuel = m + 1 := ⟨fuel - 1, by omega⟩
  have hplantable : Forest.Plantable .empty forest :=
    ⟨hdistinct, fun name hname => ⟨fun hempty => hnamed (hempty ▸ hname), rfl⟩⟩
  obtain ⟨⟨last, hlast⟩, hbelow, hpeak⟩ := x.exists_forest_end surroundings hplantable hgrow fuel
  refine ⟨⟨last, hlast⟩, ⟨hbelow, hpeak⟩, fun limit hlimit => ?_⟩
  have hsame : forest.need ≤ limit → ∀ n,
      x.sessionUnder (some limit) forest.program surroundings (fuel + 1) n =
        x.sessionUnder none forest.program surroundings (fuel + 1) n :=
    fun hneed n => x.sessionUnder_of_staysWithin _ _ _ hlimit fun i _ => (hbelow i).trans hneed
  have hfails := fun hdeep =>
    x.exists_forest_tooDeep surroundings hplantable hgrow fuel hlimit hdeep
  refine ⟨⟨?_, fun hneed => ?_⟩, hsame, hfails⟩
  · rintro ⟨n, outcome, houtcome⟩
    by_contra hneed
    obtain ⟨k, hk⟩ := hfails (by omega)
    -- The session has ended in two ways, and stays as it is after the first of them.
    have hstays := Machine.sessionAfter_of_ended (x.limited (some limit)).machine
      forest.program surroundings (fuel + 1) (Nat.le_max_left n k)
      (Session.ended_of_ending_eq_ok houtcome)
    have hfault := (hk (max n k) (Nat.le_max_right n k)).1
    unfold sessionUnder at hfault houtcome
    rw [hstays, houtcome] at hfault
    simp at hfault
  · have hend := congrArg Course.ending (hlast last le_rfl)
    rw [← hsame hneed] at hend
    exact ⟨last, _, hend⟩

end Executor

/-! ## An example with a garden -/

/-- A request in the garden. -/
def Request.garden (operation : String) : Request := ⟨"garden", operation, []⟩

/-- A tree of the garden has a bough, and after it a fruit; the bough has a fruit as well. -/
def RequestTree.appleTree : RequestTree :=
  .node (.garden "tree")
    [.node (.garden "bough") [.leaf (.garden "fruit")], .leaf (.garden "fruit")]

/-- Runs programs over the garden. -/
def Executor.gardening : Executor Unit where
  registry := ⟨[.table "garden"
    [("tree", fun _ => pure (.sequence [.request (.garden "bough"), .request (.garden "fruit")])),
      ("bough", fun _ => pure (.sequence [.request (.garden "fruit")])),
      ("fruit", fun _ => pure (.value (.bool true)))]]⟩

/-- A fruit that has a name is asked for after a tree. -/
def Forest.orchard : Forest := [(none, .appleTree), (some "apple", .leaf (.garden "fruit"))]

/-- The bough is not the last in the tree, and so its fruit needs a third composite. -/
theorem Executor.forest_walked_orchard :
    Forest.orchard.names.Nodup ∧ "" ∉ Forest.orchard.names ∧
    GrowEach gardening.registry (Forest.orchard.map Prod.snd) () ∧
    Forest.orchard.preorder =
      ["tree", "bough", "fruit", "fruit", "fruit"].map Request.garden ∧
    Forest.orchard.need = 3 ∧
    (∃ k, ∀ n ≥ k,
      (gardening.sessionUnder none Forest.orchard.program ⟨(), []⟩ 1 n).course =
        ⟨Forest.orchard.acts, .ok (.environment ⟨[("apple", .bool true)]⟩), ⟨(), []⟩⟩) ∧
    ∃ k, ∀ n ≥ k,
      (gardening.sessionUnder (some 2) Forest.orchard.program ⟨(), []⟩ 1 n).ending =
        .error (.fault (.tooDeep 2)) ∧
      (gardening.sessionUnder (some 2) Forest.orchard.program ⟨(), []⟩ 1 n).acts <+:
        Forest.orchard.acts := by
  have hdistinct : Forest.orchard.names.Nodup := by decide
  have hnamed : "" ∉ Forest.orchard.names := by decide
  have hfruit : ∀ world,
      gardening.registry.Gives (.garden "fruit") world (.value (.bool true)) () :=
    fun _ => ⟨_, rfl, rfl⟩
  have hgrow : GrowEach gardening.registry (Forest.orchard.map Prod.snd) () :=
    ⟨⟨(), ⟨_, rfl, rfl⟩, ⟨(), ⟨_, rfl, rfl⟩, ⟨_, (), hfruit _⟩, trivial⟩, ⟨_, (), hfruit _⟩,
      trivial⟩, ⟨_, (), hfruit _⟩, trivial⟩
  have hneed : Forest.orchard.need = 3 := by decide
  obtain ⟨hend, -, hlimited⟩ := gardening.forest_walked ⟨(), []⟩ hdistinct hnamed hgrow
    Nat.zero_lt_one
  obtain ⟨-, -, htooDeep⟩ := hlimited 2 (by omega)
  exact ⟨hdistinct, hnamed, hgrow, rfl, hneed, hend, htooDeep (by rw [hneed]; omega)⟩

/-- With the bough as its last part the tree would only need two. -/
example : RequestTree.reachEach
    [.leaf (.garden "fruit"), .node (.garden "bough") [.leaf (.garden "fruit")]] 2 = 2 := by
  decide

end EffectPrograms

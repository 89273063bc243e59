import EffectPrograms.Proofs.Answers
import EffectPrograms.Proofs.Names

/-!
# What a step comes to

A step is unwrapped to an operation, and that comes to a result at once or is a request to be
followed. What a whole step comes to, what is done for it and which faults it can meet is put
together from these two parts here (`Registry.resolve_of_verdict`, `Registry.resolve_of_request`,
and back from the result `Registry.resolve_eq_ok`, `Registry.resolve_eq_error`).
`Registry.ComesTo` are the requests on the way, each of them answered with the next one.
-/

namespace EffectPrograms

variable {σ : Type}

namespace Registry

variable {registry : Registry σ} {env : Environment} {s : Step σ} {rest : List (Step σ)}
  {world world' : σ} {fuel : Nat}

/-! ## Resolving a step -/

/-- A step that cannot be unwrapped cannot be resolved. -/
theorem resolve_of_unwrap_error (registry : Registry σ) {f : Fault}
    (h : s.unwrap env none world = (.error f, world')) (fuel : Nat) (rest : List (Step σ)) :
    registry.resolve fuel env s rest world = some (.error f, world') ∧
      registry.resolveActs fuel env s world = s.acts env none world := by
  rw [resolve, resolveActs, h]
  exact ⟨rfl, List.append_nil _⟩

/-- A step that is unwrapped comes to what its operation comes to. -/
theorem resolve_of_unwrap (registry : Registry σ) {binding : Option String} {o : Operation σ}
    (h : s.unwrap env none world = (.ok (binding, o), world')) (fuel : Nat)
    (rest : List (Step σ)) :
    registry.resolve fuel env s rest world =
        (registry.resolveOperation fuel o rest world').map (fun (result, world) =>
          (result.map fun (verdict, rest) => ⟨binding, verdict, rest⟩, world)) ∧
      registry.resolveActs fuel env s world =
        s.acts env none world ++ registry.operationActs fuel world' o := by
  rw [resolve, resolveActs, h]
  exact ⟨rfl, rfl⟩

/-- An operation without an interpreter is what the step comes to, and nothing is done for it. -/
theorem resolve_of_verdict (registry : Registry σ) {binding : Option String} {o : Operation σ}
    (h : s.unwrap env none world = (.ok (binding, o), world')) {verdict : Verdict σ}
    (hverdict : o.verdict? = some verdict) (fuel : Nat) (rest : List (Step σ)) :
    registry.resolve fuel env s rest world = some (.ok ⟨binding, verdict, rest⟩, world') ∧
      registry.resolveActs fuel env s world = s.acts env none world := by
  obtain ⟨hresolve, hacts⟩ := registry.resolve_of_unwrap h fuel rest
  rw [hresolve, hacts, resolveOperation_of_verdict hverdict, operationActs_of_verdict hverdict]
  exact ⟨rfl, List.append_nil _⟩

/-- A step whose operation is a request comes to what following that comes to. -/
theorem resolve_of_request (registry : Registry σ) {binding : Option String} {r : Request}
    (h : s.unwrap env none world = (.ok (binding, .request r), world')) (fuel : Nat)
    (rest : List (Step σ)) :
    registry.resolve fuel env s rest world =
        (registry.follow fuel r rest world').map (fun (result, world) =>
          (result.map fun (verdict, rest) => ⟨binding, verdict, rest⟩, world)) ∧
      registry.resolveActs fuel env s world =
        s.acts env none world ++ registry.acts fuel r world' :=
  registry.resolve_of_unwrap h fuel rest

/-- A step either comes to a result without a dispatch, the same for every fuel, or to a request
that is followed. -/
theorem resolve_cases (registry : Registry σ) (env : Environment) (s : Step σ)
    (rest : List (Step σ)) (world : σ) :
    (∃ result world', ∀ fuel, registry.resolve fuel env s rest world = some (result, world') ∧
      registry.resolveActs fuel env s world = s.acts env none world) ∨
    ∃ binding r world', ∀ fuel,
      registry.resolve fuel env s rest world =
          (registry.follow fuel r rest world').map (fun (result, world) =>
            (result.map fun (verdict, rest) => ⟨binding, verdict, rest⟩, world)) ∧
        registry.resolveActs fuel env s world =
          s.acts env none world ++ registry.acts fuel r world' := by
  rcases hunwrap : s.unwrap env none world with ⟨f | ⟨binding, o⟩, world'⟩
  · exact .inl ⟨_, _, fun fuel => registry.resolve_of_unwrap_error hunwrap fuel rest⟩
  · rcases o.verdict?_cases with ⟨verdict, hverdict⟩ | ⟨r, rfl⟩
    · exact .inl ⟨_, _, fun fuel => registry.resolve_of_verdict hunwrap hverdict fuel rest⟩
    · exact .inr ⟨_, _, _, fun fuel => registry.resolve_of_request hunwrap fuel rest⟩

/-- What a step comes to is what the operation comes to that it is unwrapped to. -/
theorem resolve_eq_ok {x : Resolution σ}
    (h : registry.resolve fuel env s rest world = some (.ok x, world')) :
    ∃ o between, s.unwrap env none world = (.ok (x.binding, o), between) ∧
      registry.resolveOperation fuel o rest between = some (.ok (x.verdict, x.rest), world') := by
  rw [resolve] at h
  rcases hunwrap : s.unwrap env none world with ⟨f | ⟨binding, o⟩, between⟩
  · simp [hunwrap] at h
  rw [hunwrap] at h
  obtain ⟨⟨result, last⟩, hoperation, hresult⟩ := Option.map_eq_some_iff.1 h
  obtain ⟨hfound, rfl⟩ := Prod.mk.inj hresult
  rcases result with f | ⟨verdict, rest'⟩
  · simp [Except.map] at hfound
  · obtain rfl := Except.ok.inj hfound
    exact ⟨o, between, rfl, hoperation⟩

/-- The name that a resolved step binds is free in the environment that it was resolved in. -/
theorem resolve_free {x : Resolution σ}
    (h : registry.resolve fuel env s rest world = some (.ok x, world')) : env.Free x.binding := by
  -- The name is found by unwrapping the step; what follows of a request does not touch it.
  obtain ⟨o, between, hunwrap, -⟩ := resolve_eq_ok h
  exact s.unwrap_free env.free_none hunwrap

/-- A step that cannot be resolved cannot be unwrapped, or its request cannot be followed. -/
theorem resolve_eq_error {f : Fault}
    (h : registry.resolve fuel env s rest world = some (.error f, world')) :
    s.unwrap env none world = (.error f, world') ∨
      ∃ binding r between, s.unwrap env none world = (.ok (binding, .request r), between) ∧
        registry.follow fuel r rest between = some (.error f, world') := by
  rcases hunwrap : s.unwrap env none world with ⟨g | ⟨binding, o⟩, between⟩
  · rw [(registry.resolve_of_unwrap_error hunwrap fuel rest).1] at h
    obtain ⟨hfault, rfl⟩ := Prod.mk.inj (Option.some.inj h)
    obtain rfl := Except.error.inj hfault
    exact .inl rfl
  rcases o.verdict?_cases with ⟨verdict, hverdict⟩ | ⟨r, rfl⟩
  · simp [(registry.resolve_of_verdict hunwrap hverdict fuel rest).1] at h
  · rw [(registry.resolve_of_request hunwrap fuel rest).1] at h
    obtain ⟨⟨result, last⟩, hfollow, hresult⟩ := Option.map_eq_some_iff.1 h
    obtain ⟨hfault, rfl⟩ := Prod.mk.inj hresult
    rcases result with g | found
    · obtain rfl := Except.error.inj hfault
      exact .inr ⟨binding, r, between, rfl, hfollow⟩
    · simp [Except.map] at hfault

/-- If a step cannot be resolved, the fault was raised on the way or found. -/
theorem raise_or_own_of_resolve (limit : Option Nat) {f : Fault}
    (h : registry.resolve fuel env s rest world = some (.error f, world')) :
    .raise f ∈ registry.resolveActs fuel env s world ∨ f.Own limit := by
  rcases resolve_eq_error h with hunwrap | ⟨binding, r, between, hunwrap, hfollow⟩
  · rw [(registry.resolve_of_unwrap_error hunwrap fuel rest).2]
    exact s.raise_or_own_of_unwrap limit hunwrap
  · rw [(registry.resolve_of_request hunwrap fuel rest).2]
    exact (raise_or_own_of_follow limit hfollow).imp_left (List.mem_append_right _)

/-- If a step is resolved, nothing was raised on the way. -/
theorem raise_notMem_of_resolve (f : Fault) {x : Resolution σ}
    (h : registry.resolve fuel env s rest world = some (.ok x, world')) :
    .raise f ∉ registry.resolveActs fuel env s world := by
  obtain ⟨o, between, hunwrap, hoperation⟩ := resolve_eq_ok h
  have hraise := s.raise_notMem_of_unwrap f hunwrap
  rcases o.verdict?_cases with ⟨verdict, hverdict⟩ | ⟨r, rfl⟩
  · rwa [(registry.resolve_of_verdict hunwrap hverdict fuel rest).2]
  · rw [(registry.resolve_of_request hunwrap fuel rest).2, List.mem_append, not_or]
    exact ⟨hraise, raise_notMem_of_follow f hoperation⟩

/-- More fuel does not change what a step comes to, nor what is done on the way. -/
theorem resolve_mono {more : Nat} (hle : fuel ≤ more) {result : Except Fault (Resolution σ)}
    (h : registry.resolve fuel env s rest world = some (result, world')) :
    registry.resolve more env s rest world = some (result, world') ∧
      registry.resolveActs more env s world = registry.resolveActs fuel env s world := by
  rcases registry.resolve_cases env s rest world with
    ⟨result', world₁, hend⟩ | ⟨binding, r, world₁, hfollow⟩
  · rw [(hend fuel).1] at h
    exact ⟨(hend more).1.trans h, (hend more).2.trans (hend fuel).2.symm⟩
  · rw [(hfollow fuel).1, Option.map_eq_some_iff] at h
    obtain ⟨⟨result', world₂⟩, hfound, h⟩ := h
    obtain ⟨hmore, hacts⟩ := follow_mono hle hfound
    refine ⟨?_, by rw [(hfollow more).2, (hfollow fuel).2, hacts]⟩
    rw [(hfollow more).1, hmore, Option.map_some, h]

/-- What is done with less fuel is done first with more. -/
theorem resolveActs_prefix (registry : Registry σ) {more : Nat} (hle : fuel ≤ more)
    (env : Environment) (s : Step σ) (world : σ) :
    registry.resolveActs fuel env s world <+: registry.resolveActs more env s world := by
  rcases registry.resolve_cases env s [] world with
    ⟨result, world₁, hend⟩ | ⟨binding, r, world₁, hfollow⟩
  · have hsame : registry.resolveActs fuel env s world = registry.resolveActs more env s world :=
      (hend fuel).2.trans (hend more).2.symm
    exact hsame ▸ List.prefix_rfl
  · rw [(hfollow fuel).2, (hfollow more).2]
    exact (List.prefix_append_right_inj _).2 (registry.acts_prefix hle r world₁)

/-! ## The requests on the way -/

/-- A step that comes to a request, and what is done on the way: it is unwrapped to a request, and
each request on the way is answered with the next one, perhaps with other steps for the rest of the
composite. -/
inductive ComesTo (registry : Registry σ) (env : Environment) (s : Step σ)
    (rest : List (Step σ)) (world : σ) (binding : Option String) :
    Request → List (Step σ) → σ → List (Act σ) → Prop where
  | unwrapped {r : Request} {world' : σ} :
      s.unwrap env none world = (.ok (binding, .request r), world') →
        ComesTo registry env s rest world binding r rest world' (s.acts env none world)
  | answered {r next : Request} {rest' : List (Step σ)}
      {replacement : Option (List (Step σ))} {world' world'' : σ} {acts : List (Act σ)} :
      ComesTo registry env s rest world binding r rest' world' acts →
        registry.dispatch r world' = (.ok (.operation (.request next), replacement), world'') →
          ComesTo registry env s rest world binding next (replacement.getD rest') world''
            (acts ++ [.dispatch r])

namespace ComesTo

variable {rest' : List (Step σ)} {binding : Option String} {r : Request} {acts : List (Act σ)}

/-- A step that comes to a request is resolved by following that request. -/
theorem resolve (h : registry.ComesTo env s rest world binding r rest' world' acts) :
    ∃ n, ∀ fuel, registry.resolve (n + fuel) env s rest world =
        (registry.follow fuel r rest' world').map (fun (result, world) =>
          (result.map fun (verdict, rest) => ⟨binding, verdict, rest⟩, world)) ∧
      registry.resolveActs (n + fuel) env s world = acts ++ registry.acts fuel r world' := by
  induction h with
  | unwrapped hunwrap =>
    refine ⟨0, fun fuel => ?_⟩
    rw [Nat.zero_add]
    exact registry.resolve_of_request hunwrap fuel rest
  | @answered r next rest' replacement world' world'' acts _ hdispatch ih =>
    obtain ⟨n, hn⟩ := ih
    refine ⟨n + 1, fun fuel => ?_⟩
    obtain ⟨hresolve, hacts⟩ := hn (fuel + 1)
    obtain ⟨hfollow, hmore⟩ := follow_of_request hdispatch fuel rest'
    rw [Nat.add_right_comm, Nat.add_assoc, hresolve, hacts, hfollow, hmore]
    exact ⟨rfl, by simp⟩

/-- What a request on the way comes to, a request on the way comes to at once: the last of them,
which is not answered with another one. -/
theorem exists_last {last : σ} {result : Except Fault (Verdict σ × List (Step σ))}
    (h : registry.ComesTo env s rest world binding r rest' world' acts)
    (hfollow : registry.follow fuel r rest' world' = some (result, last)) :
    ∃ r' rest'' world'' acts', registry.ComesTo env s rest world binding r' rest'' world'' acts' ∧
      registry.follow 1 r' rest'' world'' = some (result, last) := by
  induction fuel generalizing r rest' world' acts with
  | zero => simp [follow] at hfollow
  | succ fuel ih =>
    rcases follow_succ_cases hfollow with
      ⟨f, hdispatch, rfl⟩ | ⟨_, _, _, hdispatch, hverdict, rfl⟩ | ⟨next, _, _, hdispatch, hnext⟩
    · exact ⟨r, rest', world', acts, h, (follow_of_dispatch_error hdispatch 0 rest').1⟩
    · exact ⟨r, rest', world', acts, h, (follow_of_verdict hdispatch hverdict 0 rest').1⟩
    · exact ih (.answered h hdispatch) hnext

/-- A step that comes to a request which fails cannot be resolved, and nothing else is done. -/
theorem resolve_of_dispatch_error {last : σ} {f : Fault}
    (h : registry.ComesTo env s rest world binding r rest' world' acts)
    (hdispatch : registry.dispatch r world' = (.error f, last)) :
    ∃ n, ∀ fuel ≥ n, registry.resolve fuel env s rest world = some (.error f, last) ∧
      registry.resolveActs fuel env s world = acts ++ registry.acts 1 r world' := by
  obtain ⟨n, hn⟩ := h.resolve
  obtain ⟨hresolve, hacts⟩ := hn 1
  rw [(follow_of_dispatch_error hdispatch 0 rest').1] at hresolve
  refine ⟨n + 1, fun fuel hfuel => ?_⟩
  obtain ⟨hmore, hmoreActs⟩ := resolve_mono hfuel hresolve
  exact ⟨hmore, hmoreActs.trans hacts⟩

/-- With enough fuel a request that a step comes to is given to its interpreter. -/
theorem dispatch_prefix (h : registry.ComesTo env s rest world binding r rest' world' acts)
    (hfind : registry.find? r.algebra ≠ none) :
    ∃ n, ∀ fuel ≥ n, acts ++ [.dispatch r] <+: registry.resolveActs fuel env s world := by
  obtain ⟨n, hn⟩ := h.resolve
  refine ⟨n + 1, fun fuel hfuel => ?_⟩
  refine .trans ?_ (registry.resolveActs_prefix hfuel env s world)
  rw [(hn 1).2, Registry.acts]
  cases hfound : registry.find? r.algebra with
  | none => exact absurd hfound hfind
  | some i => exact (List.prefix_append_right_inj _).2 (List.prefix_append [_] _)

end ComesTo

/-- A step that cannot be resolved cannot be unwrapped, or comes to a request that fails. -/
theorem exists_comesTo_of_resolve_error {last : σ} {f : Fault}
    (h : registry.resolve fuel env s rest world = some (.error f, last)) :
    s.unwrap env none world = (.error f, last) ∨
      ∃ binding r rest' world' acts,
        registry.ComesTo env s rest world binding r rest' world' acts ∧
          registry.dispatch r world' = (.error f, last) := by
  refine (resolve_eq_error h).imp_right ?_
  rintro ⟨binding, r, between, hunwrap, hfollow⟩
  obtain ⟨r', rest', world', acts, hcomes, hlast⟩ :=
    (ComesTo.unwrapped hunwrap).exists_last hfollow
  refine ⟨binding, r', rest', world', acts, hcomes, ?_⟩
  rcases follow_succ_cases hlast with
    ⟨g, hdispatch, hfault⟩ | ⟨_, _, _, -, -, hresult⟩ | ⟨next, _, _, -, hnext⟩
  · obtain rfl := Except.error.inj hfault
    exact hdispatch
  · simp at hresult
  · simp [follow] at hnext

end Registry

end EffectPrograms

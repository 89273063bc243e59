import EffectPrograms.Proofs.Acts

/-!
# Where an answer leads

An answer is either another request, which is followed in the place of the first, or it says at once
what the request comes to (`Answer.verdict?`). So one dispatch of a request that is followed goes in
one of three ways: it fails, its answer is the last, or another request takes over
(`Registry.follow_succ_cases`). What holds of a whole chain of requests follows by induction on the
fuel, as that more fuel makes no difference once it is enough (`Registry.follow_mono`).
-/

namespace EffectPrograms

variable {σ : Type}

/-! ## Answers and operations without an interpreter -/

/-- What an operation of a program comes to without an interpreter. -/
def Operation.verdict? : Operation σ → Option (Verdict σ)
  | .request _ => none
  | .io asked => some (.suspend asked)
  | .composite steps => some (.enter steps)
  | .returning v => some (.escape v)

/-- What an answer comes to, unless it is another request. In place of a request `returning` only
has a value. -/
def Answer.verdict? : Answer σ → Option (Verdict σ)
  | .unit => some (.value .null)
  | .value v | .operation (.returning v) => some (.value v)
  | .operation o => o.verdict?
  | .sequence steps => some (.enter steps)

/-- An operation that comes to nothing without an interpreter is a request. -/
theorem Operation.verdict?_cases (o : Operation σ) :
    (∃ verdict, o.verdict? = some verdict) ∨ ∃ r, o = .request r := by
  cases o with
  | request r => exact .inr ⟨r, rfl⟩
  | io _ | composite _ | returning _ => exact .inl ⟨_, rfl⟩

/-- An answer that does not say what the request comes to is another request. -/
theorem Answer.verdict?_cases (answer : Answer σ) :
    (∃ verdict, answer.verdict? = some verdict) ∨ ∃ next, answer = .operation (.request next) := by
  rcases answer with - | v | (next | io | steps | v) | steps
  case operation.request => exact .inr ⟨next, rfl⟩
  all_goals exact .inl ⟨_, rfl⟩

/-- An operation that comes to a composite is that composite. -/
theorem Operation.verdict?_eq_enter {o : Operation σ} {steps : List (Step σ)}
    (h : o.verdict? = some (.enter steps)) : o = .composite steps := by
  cases o with
  | composite steps' => simpa [Operation.verdict?] using h
  | request _ | io _ | returning _ => simp [Operation.verdict?] at h

/-- An answer that comes to a composite is a sequence, or it is the composite as an operation. -/
theorem Answer.verdict?_eq_enter {answer : Answer σ} {steps : List (Step σ)}
    (h : answer.verdict? = some (.enter steps)) :
    answer = .sequence steps ∨ answer = .operation (.composite steps) := by
  rcases answer with - | v | (next | io | steps' | v) | steps'
  case operation.composite => exact .inr (congrArg _ (Operation.verdict?_eq_enter h))
  case sequence => exact .inl (by simpa [Answer.verdict?] using h)
  all_goals simp [Answer.verdict?, Operation.verdict?] at h

/-- No answer leaves the composite. -/
theorem Answer.verdict?_ne_escape (answer : Answer σ) (v : Value) :
    answer.verdict? ≠ some (.escape v) := by
  rcases answer with - | v | (next | io | steps | v) | steps
  all_goals simp [Answer.verdict?, Operation.verdict?]

namespace Registry

variable {registry : Registry σ} {r : Request} {world world' : σ} {rest : List (Step σ)}
  {fuel : Nat}

/-- An operation that needs no interpreter leaves the rest of the composite as it is. -/
theorem resolveOperation_of_verdict {o : Operation σ} {verdict : Verdict σ}
    (hverdict : o.verdict? = some verdict) (fuel : Nat) (rest : List (Step σ)) (world : σ) :
    registry.resolveOperation fuel o rest world = some (.ok (verdict, rest), world) := by
  cases o with
  | request r => simp [Operation.verdict?] at hverdict
  | io _ | composite _ | returning _ =>
    obtain rfl := Option.some.inj hverdict
    rfl

/-- Nothing is done for it. -/
theorem operationActs_of_verdict {o : Operation σ} {verdict : Verdict σ}
    (hverdict : o.verdict? = some verdict) (fuel : Nat) (world : σ) :
    registry.operationActs fuel world o = [] := by
  cases o with
  | request r => simp [Operation.verdict?] at hverdict
  | io _ | composite _ | returning _ => rfl

/-! ## One dispatch -/

/-- Who answers a request is registered. -/
theorem find?_ne_none_of_dispatch {found : Answer σ × Option (List (Step σ))}
    (h : registry.dispatch r world = (.ok found, world')) : registry.find? r.algebra ≠ none := by
  intro hnone
  simp [dispatch, hnone] at h

/-- A fault was raised by the interpreter, unless there is none. -/
theorem raise_or_missing_of_dispatch {f : Fault}
    (h : registry.dispatch r world = (.error f, world')) :
    .raise f ∈ registry.acts 1 r world ∨ ∃ missing, f = .noInterpreter missing := by
  rw [acts, h]
  cases hfind : registry.find? r.algebra with
  | none =>
    have hmissing : registry.dispatch r world = (.error (.noInterpreter r), world) := by
      simp [dispatch, hfind]
    obtain ⟨hf, -⟩ := Prod.mk.inj (h.symm.trans hmissing)
    exact .inr ⟨r, Except.error.inj hf⟩
  | some i => exact .inl (by simp)

/-- A request that fails is not followed further. -/
theorem follow_of_dispatch_error {f : Fault}
    (hdispatch : registry.dispatch r world = (.error f, world')) (fuel : Nat)
    (rest : List (Step σ)) :
    registry.follow (fuel + 1) r rest world = some (.error f, world') ∧
      registry.acts (fuel + 1) r world = registry.acts 1 r world := by
  rw [follow, acts, acts, hdispatch]
  exact ⟨rfl, rfl⟩

/-- The last answer says what the request comes to. -/
theorem follow_of_verdict {answer : Answer σ} {replacement : Option (List (Step σ))}
    (hdispatch : registry.dispatch r world = (.ok (answer, replacement), world'))
    {verdict : Verdict σ} (hverdict : answer.verdict? = some verdict) (fuel : Nat)
    (rest : List (Step σ)) :
    registry.follow (fuel + 1) r rest world =
        some (.ok (verdict, replacement.getD rest), world') ∧
      registry.acts (fuel + 1) r world = [.dispatch r] := by
  obtain ⟨i, hfind⟩ := Option.ne_none_iff_exists'.1 (find?_ne_none_of_dispatch hdispatch)
  rw [follow, acts, hfind, hdispatch]
  rcases answer with - | v | (next | io | steps | v) | steps
  case operation.request => simp [Answer.verdict?, Operation.verdict?] at hverdict
  all_goals
    obtain rfl := Option.some.inj hverdict
    exact ⟨rfl, rfl⟩

/-- A request that is answered with another one is followed by following that one. -/
theorem follow_of_request {next : Request} {replacement : Option (List (Step σ))}
    (h : registry.dispatch r world = (.ok (.operation (.request next), replacement), world'))
    (fuel : Nat) (rest : List (Step σ)) :
    registry.follow (fuel + 1) r rest world =
        registry.follow fuel next (replacement.getD rest) world' ∧
      registry.acts (fuel + 1) r world = .dispatch r :: registry.acts fuel next world' := by
  obtain ⟨i, hfind⟩ := Option.ne_none_iff_exists'.1 (find?_ne_none_of_dispatch h)
  rw [follow, acts, hfind, h]
  exact ⟨rfl, rfl⟩

/-- An operation in the answer, other than `returning`, is resolved in the place of the request. -/
theorem follow_of_operation {o : Operation σ} {replacement : Option (List (Step σ))}
    (hdispatch : registry.dispatch r world = (.ok (.operation o, replacement), world'))
    (ho : ∀ v, o ≠ .returning v) (fuel : Nat) (rest : List (Step σ)) :
    registry.follow (fuel + 1) r rest world =
        registry.resolveOperation fuel o (replacement.getD rest) world' ∧
      registry.acts (fuel + 1) r world = .dispatch r :: registry.operationActs fuel world' o := by
  cases o with
  | request next => exact follow_of_request hdispatch fuel rest
  | io _ | composite _ => exact follow_of_verdict hdispatch rfl fuel rest
  | returning v => exact absurd rfl (ho v)

/-- A request that is followed is given to its interpreter. Either that fails, or it answers with
what the request comes to, or with another request that is followed in its place. -/
theorem follow_succ_cases {result : Except Fault (Verdict σ × List (Step σ))} {last : σ}
    (h : registry.follow (fuel + 1) r rest world = some (result, last)) :
    (∃ f, registry.dispatch r world = (.error f, last) ∧ result = .error f) ∨
    (∃ answer replacement verdict,
      registry.dispatch r world = (.ok (answer, replacement), last) ∧
        answer.verdict? = some verdict ∧ result = .ok (verdict, replacement.getD rest)) ∨
    ∃ next replacement world',
      registry.dispatch r world = (.ok (.operation (.request next), replacement), world') ∧
        registry.follow fuel next (replacement.getD rest) world' = some (result, last) := by
  rcases hdispatch : registry.dispatch r world with ⟨f | ⟨answer, replacement⟩, world'⟩
  · rw [(follow_of_dispatch_error hdispatch fuel rest).1] at h
    obtain ⟨rfl, rfl⟩ := Prod.mk.inj (Option.some.inj h)
    exact .inl ⟨f, rfl, rfl⟩
  · rcases answer.verdict?_cases with ⟨verdict, hverdict⟩ | ⟨next, rfl⟩
    · rw [(follow_of_verdict hdispatch hverdict fuel rest).1] at h
      obtain ⟨rfl, rfl⟩ := Prod.mk.inj (Option.some.inj h)
      exact .inr (.inl ⟨answer, replacement, verdict, rfl, hverdict, rfl⟩)
    · rw [(follow_of_request hdispatch fuel rest).1] at h
      exact .inr (.inr ⟨next, replacement, world', rfl, h⟩)

/-- The answer to a request either is an end, the same for every fuel, or another request that is
followed in its place. -/
theorem follow_cases (registry : Registry σ) (r : Request) (rest : List (Step σ)) (world : σ) :
    (∃ acts result world', ∀ fuel,
      registry.follow (fuel + 1) r rest world = some (result, world') ∧
        registry.acts (fuel + 1) r world = acts) ∨
    ∃ next rest' world', ∀ fuel,
      registry.follow (fuel + 1) r rest world = registry.follow fuel next rest' world' ∧
        registry.acts (fuel + 1) r world = .dispatch r :: registry.acts fuel next world' := by
  rcases hdispatch : registry.dispatch r world with ⟨f | ⟨answer, replacement⟩, world'⟩
  · exact .inl ⟨_, _, _, fun fuel => follow_of_dispatch_error hdispatch fuel rest⟩
  · rcases answer.verdict?_cases with ⟨verdict, hverdict⟩ | ⟨next, rfl⟩
    · exact .inl ⟨_, _, _, fun fuel => follow_of_verdict hdispatch hverdict fuel rest⟩
    · exact .inr ⟨_, _, _, fun fuel => follow_of_request hdispatch fuel rest⟩

/-! ## Chains of requests -/

/-- If a request cannot be followed to its end, the fault was raised on the way, or a request on the
way has no interpreter. -/
theorem raise_or_missing_of_follow {f : Fault}
    (h : registry.follow fuel r rest world = some (.error f, world')) :
    .raise f ∈ registry.acts fuel r world ∨ ∃ missing, f = .noInterpreter missing := by
  induction fuel generalizing r rest world with
  | zero => simp [follow] at h
  | succ fuel ih =>
    rcases follow_succ_cases h with
      ⟨found, hdispatch, hfault⟩ | ⟨_, _, _, -, -, hresult⟩ | ⟨next, _, _, hdispatch, hnext⟩
    · obtain rfl := Except.error.inj hfault
      rw [(follow_of_dispatch_error hdispatch fuel rest).2]
      exact raise_or_missing_of_dispatch hdispatch
    · simp at hresult
    · rw [(follow_of_request hdispatch fuel rest).2]
      exact (ih hnext).imp_left (List.mem_cons_of_mem _)

/-- If a request cannot be followed to its end, the fault was raised on the way or found. -/
theorem raise_or_own_of_follow (limit : Option Nat) {f : Fault}
    (h : registry.follow fuel r rest world = some (.error f, world')) :
    .raise f ∈ registry.acts fuel r world ∨ f.Own limit := by
  refine (raise_or_missing_of_follow h).imp_right ?_
  rintro ⟨missing, rfl⟩
  trivial

/-- If a request is followed to an end that is no fault, nothing was raised on the way. -/
theorem raise_notMem_of_follow (f : Fault) {x : Verdict σ × List (Step σ)}
    (h : registry.follow fuel r rest world = some (.ok x, world')) :
    .raise f ∉ registry.acts fuel r world := by
  induction fuel generalizing r rest world with
  | zero => simp [follow] at h
  | succ fuel ih =>
    rcases follow_succ_cases h with
      ⟨found, -, hresult⟩ | ⟨_, _, _, hdispatch, hverdict, -⟩ | ⟨next, _, _, hdispatch, hnext⟩
    · simp at hresult
    · rw [(follow_of_verdict hdispatch hverdict fuel rest).2]
      simp
    · rw [(follow_of_request hdispatch fuel rest).2]
      simpa using ih hnext

/-- A request that is followed leads to a value or to a composite, and never leaves one. -/
theorem follow_ne_escape {rest' : List (Step σ)} (v : Value) :
    registry.follow fuel r rest world ≠ some (.ok (.escape v, rest'), world') := by
  induction fuel generalizing r rest world with
  | zero => simp [follow]
  | succ fuel ih =>
    intro h
    rcases follow_succ_cases h with
      ⟨f, -, hresult⟩ | ⟨answer, _, verdict, -, hverdict, hresult⟩ | ⟨next, _, _, -, hnext⟩
    · simp at hresult
    · obtain ⟨rfl, -⟩ := Prod.mk.inj (Except.ok.inj hresult)
      exact answer.verdict?_ne_escape v hverdict
    · exact ih hnext

/-- More fuel does not change where a request leads, nor what is done on the way. -/
theorem follow_mono {more : Nat} (hle : fuel ≤ more)
    {result : Except Fault (Verdict σ × List (Step σ))}
    (h : registry.follow fuel r rest world = some (result, world')) :
    registry.follow more r rest world = some (result, world') ∧
      registry.acts more r world = registry.acts fuel r world := by
  induction fuel generalizing more r rest world with
  | zero => simp [follow] at h
  | succ fuel ih =>
    obtain ⟨more, rfl⟩ : ∃ n, more = n + 1 := ⟨more - 1, by omega⟩
    rcases registry.follow_cases r rest world with
      ⟨acts, result', world₁, hend⟩ | ⟨next, rest', world₁, hnext⟩
    · rw [(hend fuel).1] at h
      exact ⟨(hend more).1.trans h, (hend more).2.trans (hend fuel).2.symm⟩
    · rw [(hnext fuel).1] at h
      obtain ⟨hfollow, hacts⟩ := ih (Nat.le_of_succ_le_succ hle) h
      exact ⟨(hnext more).1.trans hfollow,
        by rw [(hnext more).2, (hnext fuel).2, hacts]⟩

/-- What is done with less fuel is done first with more. -/
theorem acts_prefix (registry : Registry σ) {more : Nat} (hle : fuel ≤ more) (r : Request)
    (world : σ) : registry.acts fuel r world <+: registry.acts more r world := by
  induction fuel generalizing more r world with
  | zero => exact List.nil_prefix
  | succ fuel ih =>
    obtain ⟨more, rfl⟩ : ∃ n, more = n + 1 := ⟨more - 1, by omega⟩
    rcases registry.follow_cases r [] world with
      ⟨acts, result, world₁, hend⟩ | ⟨next, rest', world₁, hnext⟩
    · have hsame : registry.acts (fuel + 1) r world = registry.acts (more + 1) r world :=
        (hend fuel).2.trans (hend more).2.symm
      exact hsame ▸ List.prefix_rfl
    · rw [(hnext fuel).2, (hnext more).2]
      exact (List.prefix_cons_inj _).2 (ih (Nat.le_of_succ_le_succ hle) next world₁)

/-- More fuel does not change what an operation comes to, nor what is done on the way. -/
theorem resolveOperation_mono {more : Nat} (hle : fuel ≤ more) {o : Operation σ}
    {result : Except Fault (Verdict σ × List (Step σ))}
    (h : registry.resolveOperation fuel o rest world = some (result, world')) :
    registry.resolveOperation more o rest world = some (result, world') ∧
      registry.operationActs more world o = registry.operationActs fuel world o := by
  cases o with
  | request r => exact follow_mono hle h
  | io _ | composite _ | returning _ => exact ⟨h, rfl⟩

/-- What is done with less fuel is done first with more. -/
theorem operationActs_prefix (registry : Registry σ) {more : Nat} (hle : fuel ≤ more)
    (o : Operation σ) (world : σ) :
    registry.operationActs fuel world o <+: registry.operationActs more world o := by
  cases o with
  | request r => exact registry.acts_prefix hle r world
  | io _ | composite _ | returning _ => exact List.prefix_rfl

end Registry

end EffectPrograms

import SqlScript.Grammar.Rule

/-!
# When rules match

For each way of building a rule or a step: exactly when the result matches and when it is absent,
said by what its parts do. Proofs about the grammar take rules apart, and put them together, with
these equivalences and never unfold `read`.
-/

namespace SqlScript

variable {σ α β : Type}

namespace Step

@[simp] theorem pure_ok {value result : α} {input rest : Input σ} :
    (pure value : Step σ α).read input = .ok (result, rest) ↔ value = result ∧ input = rest := by
  simp

/-- A step behind another goes on where that one has stopped. -/
@[simp] theorem bind_ok {step : Step σ α} {next : α → Step σ β} {input rest : Input σ}
    {result : β} :
    (step >>= next).read input = .ok (result, rest) ↔
      ∃ value middle, step.read input = .ok (value, middle) ∧
        (next value).read middle = .ok (result, rest) := by
  rw [read_bind]
  cases h : step.read input with
  | error failure => simp
  | ok found => simp [Prod.ext_iff, and_assoc]

/-- Either step can be the one that fails. -/
theorem bind_error {step : Step σ α} {next : α → Step σ β} {input : Input σ}
    {failure : Failure σ} :
    (step >>= next).read input = .error failure ↔
      step.read input = .error failure ∨
        ∃ value middle, step.read input = .ok (value, middle) ∧
          (next value).read middle = .error failure := by
  rw [read_bind]
  cases h : step.read input with
  | error _ => simp
  | ok found => simp [Prod.ext_iff, and_assoc]

@[simp] theorem peek_ok {found : Option (Kind × σ)} {input rest : Input σ} :
    peek.read input = .ok (found, rest) ↔ input.head? = found ∧ input = rest := by
  simp [peek]

end Step

namespace Rule

/-! ## One token -/

/-- A token is taken for what its kind is accepted as. -/
@[simp] theorem token_matched {accept : Kind → Option α} {input rest : Input σ}
    {value : Spanned (Span σ) α} :
    (token accept).read input = .matched value rest ↔
      ∃ kind mark, input = (kind, mark) :: rest ∧ accept kind = some value.node ∧
        value.span = .single mark := by
  obtain ⟨span, node⟩ := value
  cases input with
  | nil => simp [token]
  | cons first more =>
    obtain ⟨kind, mark⟩ := first
    cases h : accept kind with
    | none =>
      simp only [token, h, List.cons.injEq, Prod.mk.injEq, reduceCtorEq, false_iff]
      rintro ⟨_, _, ⟨⟨rfl, rfl⟩, rfl⟩, haccept, -⟩
      simp [h] at haccept
    | some found =>
      simp only [token, h, List.cons.injEq, Prod.mk.injEq, Outcome.matched.injEq,
        Spanned.mk.injEq]
      constructor
      · rintro ⟨⟨rfl, rfl⟩, rfl⟩
        exact ⟨kind, mark, ⟨⟨rfl, rfl⟩, rfl⟩, h, rfl⟩
      · rintro ⟨_, _, ⟨⟨rfl, rfl⟩, rfl⟩, haccept, rfl⟩
        simp_all

/-- At the end there is no token either. -/
@[simp] theorem token_absent {accept : Kind → Option α} {input : Input σ} :
    (token accept).read input = .absent ↔ ∀ first ∈ input.head?, accept first.1 = none := by
  cases input with
  | nil => simp [token]
  | cons first more =>
    obtain ⟨kind, mark⟩ := first
    cases h : accept kind <;> simp [token, h]

/-- Nothing that has begun can be missing of one token. -/
@[simp] theorem token_ne_malformed {accept : Kind → Option α} {I : Input σ} {f : Failure σ} :
    (token accept).read I ≠ .malformed f := by
  cases I with
  | nil => simp [token]
  | cons first more =>
    simp only [token]
    split <;> simp

/-- Of a fixed token only the place is of interest. -/
@[simp] theorem exactly_matched {kind : Kind} {input rest : Input σ}
    {value : Spanned (Span σ) Unit} :
    (exactly kind).read input = .matched value rest ↔
      ∃ mark, input = (kind, mark) :: rest ∧ value.span = .single mark := by
  simp only [exactly, token_matched, Option.ite_none_right_eq_some, and_true]
  constructor
  · rintro ⟨_, mark, rfl, rfl, hspan⟩
    exact ⟨mark, rfl, hspan⟩
  · rintro ⟨mark, rfl, hspan⟩
    exact ⟨kind, mark, rfl, rfl, hspan⟩

@[simp] theorem exactly_absent {kind : Kind} {input : Input σ} :
    (exactly kind : Rule σ _).read input = .absent ↔ ∀ first ∈ input.head?, first.1 ≠ kind := by
  simp [exactly]

@[simp] theorem keyword_matched {word : String} {input rest : Input σ}
    {value : Spanned (Span σ) Unit} :
    (keyword word).read input = .matched value rest ↔
      ∃ mark, input = (.keyword word, mark) :: rest ∧ value.span = .single mark :=
  exactly_matched

@[simp] theorem keyword_absent {word : String} {input : Input σ} :
    (keyword word : Rule σ _).read input = .absent ↔
      ∀ first ∈ input.head?, first.1 ≠ .keyword word :=
  exactly_absent

@[simp] theorem symbol_matched {text : String} {input rest : Input σ}
    {value : Spanned (Span σ) Unit} :
    (symbol text).read input = .matched value rest ↔
      ∃ mark, input = (.symbol text, mark) :: rest ∧ value.span = .single mark :=
  exactly_matched

@[simp] theorem symbol_absent {text : String} {input : Input σ} :
    (symbol text : Rule σ _).read input = .absent ↔
      ∀ first ∈ input.head?, first.1 ≠ .symbol text :=
  exactly_absent

/-- Bare and quoted names are told apart no more. -/
@[simp] theorem name_matched {input rest : Input σ} {value : Spanned (Span σ) String} :
    name.read input = .matched value rest ↔
      ∃ mark, input = (.name value.node, mark) :: rest ∧ value.span = .single mark := by
  simp only [name, token_matched]
  constructor
  · rintro ⟨kind, mark, rfl, hkind, hspan⟩
    split at hkind <;> cases hkind
    exact ⟨mark, rfl, hspan⟩
  · rintro ⟨mark, rfl, hspan⟩
    exact ⟨_, mark, rfl, rfl, hspan⟩

@[simp] theorem name_absent {input : Input σ} :
    (name : Rule σ _).read input = .absent ↔
      ∀ first ∈ input.head?, ∀ text, first.1 ≠ .name text := by
  simp only [name, token_absent]
  refine forall₂_congr fun first _ => ?_
  split <;> simp_all

/-! ## Rules from rules -/

@[simp] theorem map_matched {rule : Rule σ α} {f : α → β} {input rest : Input σ} {result : β} :
    (rule.map f).read input = .matched result rest ↔
      ∃ value, rule.read input = .matched value rest ∧ f value = result := by
  simp only [map]
  cases rule.read input with
  | absent => simp
  | malformed failure => simp
  | matched value middle =>
    simp only [Outcome.matched.injEq]
    constructor
    · rintro ⟨hresult, rfl⟩
      exact ⟨value, ⟨rfl, rfl⟩, hresult⟩
    · rintro ⟨_, ⟨rfl, rfl⟩, hresult⟩
      exact ⟨hresult, rfl⟩

@[simp] theorem map_absent {rule : Rule σ α} {f : α → β} {input : Input σ} :
    (rule.map f).read input = .absent ↔ rule.read input = .absent := by
  simp only [map]
  cases rule.read input <;> simp

/-- The second rule has its turn only where the first finds nothing. -/
@[simp] theorem orElse_matched {rule other : Rule σ α} {input rest : Input σ} {value : α} :
    (rule <|> other).read input = .matched value rest ↔
      rule.read input = .matched value rest ∨
        rule.read input = .absent ∧ other.read input = .matched value rest := by
  simp only [HOrElse.hOrElse, OrElse.orElse, Rule.orElse]
  cases rule.read input <;> simp

@[simp] theorem orElse_absent {rule other : Rule σ α} {input : Input σ} :
    (rule <|> other).read input = .absent ↔
      rule.read input = .absent ∧ other.read input = .absent := by
  simp only [HOrElse.hOrElse, OrElse.orElse, Rule.orElse]
  cases rule.read input <;> simp

/-- The choice, once it is known to fall on the second rule. -/
theorem orElse_of_absent {rule other : Rule σ α} {input : Input σ}
    (h : rule.read input = .absent) : (rule <|> other).read input = other.read input := by
  simp only [HOrElse.hOrElse, OrElse.orElse, Rule.orElse, h]

/-- The choice, once it is known to fall on the first rule. -/
theorem orElse_of_ne_absent {rule other : Rule σ α} {input : Input σ}
    (h : rule.read input ≠ .absent) : (rule <|> other).read input = rule.read input := by
  simp only [HOrElse.hOrElse, OrElse.orElse, Rule.orElse]

@[simp] theorem both_matched {rule : Rule σ α} {other : Rule σ β} {input rest : Input σ}
    {value : α × β} :
    (rule.both other).read input = .matched value rest ↔
      ∃ middle, rule.read input = .matched value.1 middle ∧
        other.read middle = .matched value.2 rest := by
  obtain ⟨first, second⟩ := value
  simp only [both]
  cases h : rule.read input with
  | absent => simp
  | malformed failure => simp
  | matched value middle => cases h' : other.read middle <;> simp_all [and_assoc]

/-- Both are absent if one is; the second one is looked for behind the first. -/
@[simp] theorem both_absent {rule : Rule σ α} {other : Rule σ β} {input : Input σ} :
    (rule.both other).read input = .absent ↔
      rule.read input = .absent ∨
        ∃ value middle, rule.read input = .matched value middle ∧ other.read middle = .absent := by
  simp only [both]
  cases h : rule.read input with
  | absent => simp
  | malformed failure => simp
  | matched value middle => cases h' : other.read middle <;> simp_all [and_assoc]

/-- A construct is there once all has followed that has to. -/
@[simp] theorem andThen_matched {rule : Rule σ α} {next : α → Step σ β} {input rest : Input σ}
    {result : β} :
    (rule.andThen next).read input = .matched result rest ↔
      ∃ value middle, rule.read input = .matched value middle ∧
        (next value).read middle = .ok (result, rest) := by
  simp only [andThen]
  cases h : rule.read input with
  | absent => simp
  | malformed failure => simp
  | matched value middle =>
    cases h' : (next value).read middle <;> simp_all [Prod.ext_iff, and_assoc]

/-- What has begun cannot be absent any more. -/
@[simp] theorem andThen_absent {rule : Rule σ α} {next : α → Step σ β} {input : Input σ} :
    (rule.andThen next).read input = .absent ↔ rule.read input = .absent := by
  simp only [andThen]
  cases h : rule.read input with
  | absent => simp
  | malformed failure => simp
  | matched value middle => cases h' : (next value).read middle <;> simp_all

@[simp] theorem refuse_ne_matched {cause : Cause} {input rest : Input σ} {value : α} :
    (refuse cause).read input ≠ .matched value rest := by
  simp [refuse]

/-- What is refused is not taken for absent, so no other rule has its turn. -/
@[simp] theorem refuse_ne_absent {cause : Cause} {input : Input σ} :
    (refuse cause : Rule σ α).read input ≠ .absent := by
  simp [refuse]

@[simp] theorem read_delay (rule : Unit → Rule σ α) (input : Input σ) :
    (delay rule).read input = (rule ()).read input := rfl

/-! ## Steps from rules -/

/-- What is required is there if and only if its rule finds it. -/
@[simp] theorem requireOr_ok {rule : Rule σ α} {failure : Input σ → Failure σ}
    {input rest : Input σ} {value : α} :
    (rule.requireOr failure).read input = .ok (value, rest) ↔
      rule.read input = .matched value rest := by
  simp only [requireOr]
  cases rule.read input <;> simp

@[simp] theorem require_ok {rule : Rule σ α} {cause : Cause} {input rest : Input σ} {value : α} :
    (rule.require cause).read input = .ok (value, rest) ↔
      rule.read input = .matched value rest :=
  requireOr_ok

/-- What is optional takes nothing where it is absent. -/
@[simp] theorem optional_ok {rule : Rule σ α} {input rest : Input σ} {found : Option α} :
    rule.optional.read input = .ok (found, rest) ↔
      found = none ∧ rest = input ∧ rule.read input = .absent ∨
        ∃ value, found = some value ∧ rule.read input = .matched value rest := by
  simp only [optional]
  cases rule.read input with
  | absent => simp [eq_comm]
  | malformed failure => simp
  | matched value middle =>
    simp only [Except.ok.injEq, Prod.mk.injEq, Outcome.matched.injEq, reduceCtorEq, and_false,
      false_or]
    constructor
    · rintro ⟨rfl, rfl⟩
      exact ⟨value, rfl, rfl, rfl⟩
    · rintro ⟨_, rfl, rfl, rfl⟩
      exact ⟨rfl, rfl⟩

/-- One step of the recursion, with the cases it is by. -/
theorem readLinks_eq (item : Rule σ α) (separator : Rule σ β) (missing : β → Cause)
    (input : Input σ) :
    readLinks item separator missing input =
      match separator.read input with
      | .absent => .ok ([], input)
      | .malformed failure => .error failure
      | .matched link middle =>
        match (item.require (missing link)).read middle with
        | .error failure => .error failure
        | .ok (value, rest) =>
          match readLinks item separator missing rest with
          | .error failure => .error failure
          | .ok (links, stop) => .ok ((link, value) :: links, stop) := by
  rw [readLinks]
  split
  · next hlink => simp only [hlink]
  · next hlink => simp only [hlink]
  · next hlink =>
    simp only [hlink]
    split
    · next hvalue => simp only [hvalue]
    · next value rest hvalue =>
      cases hmore : readLinks item separator missing rest <;> simp only [hvalue, hmore]

/-- One link after another, up to where the separator is absent. -/
theorem links_ok {item : Rule σ α} {separator : Rule σ β} {missing : β → Cause}
    {input rest : Input σ} {found : List (β × α)} :
    (item.links separator missing).read input = .ok (found, rest) ↔
      found = [] ∧ rest = input ∧ separator.read input = .absent ∨
        ∃ link middle value after more, found = (link, value) :: more ∧
          separator.read input = .matched link middle ∧ item.read middle = .matched value after ∧
          (item.links separator missing).read after = .ok (more, rest) := by
  -- `links` is a rule around the recursion, which only shows in the functions themselves
  show readLinks item separator missing input = _ ↔ _
  rw [readLinks]
  split
  · next hlink => simp [hlink, eq_comm]
  · next hlink => simp [hlink]
  · next link middle hlink =>
    split
    · next hitem =>
      simp only [reduceCtorEq, hlink, and_false, false_or, false_iff, Outcome.matched.injEq]
      rintro ⟨_, _, value, after, more, -, ⟨rfl, rfl⟩, hvalue, -⟩
      rw [require_ok.mpr hvalue] at hitem
      cases hitem
    · next value after hitem =>
      rw [require_ok] at hitem
      show _ ↔ _ ∨ ∃ link middle value after more, _ ∧ _ ∧ _ ∧
        readLinks item separator missing after = _
      constructor
      · intro h
        split at h
        · cases h
        · next more stop hmore =>
          cases h
          exact .inr ⟨link, middle, value, after, more, rfl, hlink, hitem, hmore⟩
      · rintro (⟨-, -, habsent⟩ | ⟨_, _, _, _, more, rfl, hlink', hitem', hmore⟩)
        · simp [hlink] at habsent
        · cases hlink.symm.trans hlink'
          cases hitem.symm.trans hitem'
          rw [hmore]

/-- A chain is an item and its links. -/
theorem chain_matched {item : Rule σ α} {separator : Rule σ β} {missing : β → Cause}
    {input rest : Input σ} {first : α} {more : List (β × α)} :
    (item.chain separator missing).read input = .matched (first, more) rest ↔
      ∃ middle, item.read input = .matched first middle ∧
        (item.links separator missing).read middle = .ok (more, rest) := by
  simp only [chain, andThen_matched, Step.bind_ok, Step.pure_ok, Prod.mk.injEq]
  constructor
  · rintro ⟨_, middle, hfirst, _, _, hmore, ⟨rfl, rfl⟩, rfl⟩
    exact ⟨middle, hfirst, hmore⟩
  · rintro ⟨middle, hfirst, hmore⟩
    exact ⟨first, middle, hfirst, more, rest, hmore, ⟨rfl, rfl⟩, rfl⟩

/-- A chain begins where its first item does. -/
@[simp] theorem chain_absent {item : Rule σ α} {separator : Rule σ β} {missing : β → Cause}
    {input : Input σ} :
    (item.chain separator missing).read input = .absent ↔ item.read input = .absent := by
  simp [chain]

@[simp] theorem commaList_absent {item : Rule σ α} {kind : Listed} {input : Input σ} :
    (item.commaList kind).read input = .absent ↔ item.read input = .absent := by
  simp [commaList]

/-! ## Failures -/

section Failure

variable {rule other : Rule σ α} {input : Input σ} {failure : Failure σ}

/-- Only what was found is mapped. -/
theorem map_malformed {f : α → β} :
    (rule.map f).read input = .malformed failure ↔ rule.read input = .malformed failure := by
  simp only [map]
  cases rule.read input <;> simp

/-- A failure of the first rule is final. -/
theorem orElse_malformed :
    (rule <|> other).read input = .malformed failure ↔
      rule.read input = .malformed failure ∨
        rule.read input = .absent ∧ other.read input = .malformed failure := by
  simp only [HOrElse.hOrElse, OrElse.orElse, Rule.orElse]
  cases rule.read input <;> simp

/-- Either the construct is broken or what has to follow it. -/
theorem andThen_malformed {next : α → Step σ β} :
    (rule.andThen next).read input = .malformed failure ↔
      rule.read input = .malformed failure ∨
        ∃ value middle, rule.read input = .matched value middle ∧
          (next value).read middle = .error failure := by
  simp only [andThen]
  cases h : rule.read input with
  | absent => simp
  | malformed _ => simp
  | matched value middle =>
    cases h' : (next value).read middle <;> simp [h', and_assoc]

/-- What is required can be broken or absent. -/
theorem requireOr_error {absent : Input σ → Failure σ} :
    (rule.requireOr absent).read input = .error failure ↔
      rule.read input = .malformed failure ∨
        rule.read input = .absent ∧ absent input = failure := by
  simp only [requireOr]
  cases rule.read input <;> simp

/-- What is optional can be broken, and then reading fails. -/
theorem optional_error :
    rule.optional.read input = .error failure ↔ rule.read input = .malformed failure := by
  simp only [optional]
  cases rule.read input <;> simp

/-- A chain can be broken in its first item or behind it. -/
theorem chain_malformed {separator : Rule σ β} {missing : β → Cause} :
    (rule.chain separator missing).read input = .malformed failure ↔
      rule.read input = .malformed failure ∨
        ∃ value middle, rule.read input = .matched value middle ∧
          (rule.links separator missing).read middle = .error failure := by
  rw [chain, andThen_malformed]
  simp only [Step.bind_error, Step.read_pure, reduceCtorEq, and_false, exists_false, or_false]

/-- Links are a separator before a chain, unless there are none. -/
theorem links_error {separator : Rule σ β} {missing : β → Cause} {link : β} {middle : Input σ}
    (hlink : separator.read input = .matched link middle)
    (hchain : (rule.chain separator missing).read middle = .malformed failure) :
    (rule.links separator missing).read input = .error failure := by
  show readLinks rule separator missing input = _
  rw [readLinks_eq, hlink]
  rcases chain_malformed.mp hchain with hitem | ⟨value, rest, hitem, hmore⟩
  · simp only [require, requireOr_error.mpr (.inl hitem)]
  · have hmore : readLinks rule separator missing rest = .error failure := hmore
    simp only [require_ok.mpr hitem, hmore]

end Failure

end Rule

end SqlScript

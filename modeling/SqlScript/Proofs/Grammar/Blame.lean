import SqlScript.Proofs.Grammar.Greedy
import SqlScript.Proofs.Grammar.Lookahead

/-!
# Which token is to blame

Where a rule fails, what it took so far begins a phrase, and it fails in the same way whatever
follows the next token (`Rule.Blames`, `Step.Blames`). The failure points at that token, except that
two keywords are blamed themselves if what they ask for does not follow (`Failure.Points`). Being
too deep is left out: that depends on more than what was read.

There is one lemma for each way of building rules and steps.
-/

namespace SqlScript

variable {σ α β : Type}

/-- NOT without an operand behind it, or ORDER without BY. -/
def Kind.Dangles (kind : Kind) (next : Option Kind) : Prop :=
  kind = .keyword "NOT" ∧ (∀ k ∈ next, k.startsOperand = false) ∨
    kind = .keyword "ORDER" ∧ next ≠ some (.keyword "BY")

/-- The failure is at the next token, or at the last one that was read if that one dangles. -/
def Failure.Points (f : Failure σ) (used rest : Input σ) : Prop :=
  ∃ last ∈ used.getLast?,
    last.1.Dangles (rest.head?.map Prod.fst) ∧ f.mark = some last.2 ∨
      ¬ last.1.Dangles (rest.head?.map Prod.fst) ∧ f.mark = rest.head?.map Prod.snd

/-- The last token is none that could dangle. -/
def Solid (I : Input σ) : Prop :=
  ∃ last ∈ I.getLast?, last.1 ≠ .keyword "NOT" ∧ last.1 ≠ .keyword "ORDER"

theorem getLast?_behind {t : α} {I : List α} (before : List α) (h : t ∈ I.getLast?) :
    t ∈ (before ++ I).getLast? := by
  rw [List.getLast?_append, Option.mem_def.mp h]
  rfl

theorem Solid.behind {I : Input σ} (h : Solid I) (before : Input σ) : Solid (before ++ I) := by
  obtain ⟨last, hlast, hkind⟩ := h
  exact ⟨last, getLast?_behind before hlast, hkind⟩

theorem Solid.token {kind : Kind} {m : σ} (before : Input σ) (hnot : kind ≠ .keyword "NOT")
    (horder : kind ≠ .keyword "ORDER") : Solid (before ++ [(kind, m)]) :=
  ⟨(kind, m), by simp, hnot, horder⟩

namespace Failure.Points

variable {f : Failure σ} {used rest : Input σ}

theorem behind (h : f.Points used rest) (before : Input σ) : f.Points (before ++ used) rest := by
  obtain ⟨last, hlast, hpoints⟩ := h
  exact ⟨last, getLast?_behind before hlast, hpoints⟩

theorem ne_nil (h : f.Points used rest) : used ≠ [] := by
  rintro rfl
  obtain ⟨last, hlast, -⟩ := h
  cases hlast

theorem of_solid (h : Solid used) (hmark : f.mark = rest.head?.map Prod.snd) :
    f.Points used rest := by
  obtain ⟨last, hlast, hnot, horder⟩ := h
  exact ⟨last, hlast, .inr ⟨by simp [Kind.Dangles, hnot, horder], hmark⟩⟩

end Failure.Points

/-- A failure comes behind what `starts` says is a start, and stays while the next token does. -/
structure Rule.Blames (rule : Rule σ α) (starts : Input σ → Prop) : Prop where
  breaks : ∀ {I f}, rule.read I = .malformed f → f.cause ≠ .tooDeep →
    ∃ used rest, I = used ++ rest ∧ starts used ∧ f.Points used rest ∧
      ∀ {J}, SameNext rest J → rule.read (used ++ J) = .malformed f

/-- For a step, `before` has been read already. -/
structure Step.Blames (step : Step σ α) (before : Input σ) (starts : Input σ → Prop) : Prop where
  breaks : ∀ {I f}, step.read I = .error f → f.cause ≠ .tooDeep →
    ∃ used rest, I = used ++ rest ∧ starts (before ++ used) ∧ f.Points (before ++ used) rest ∧
      ∀ {J}, SameNext rest J → step.read (used ++ J) = .error f

section Viable

variable {phrase : Input σ → α → Prop} {phrase' : Input σ → β → Prop} {I J : Input σ}

theorem Viable.of_isPrefix (h : Viable phrase J) (hI : I <+: J) : Viable phrase I := by
  obtain ⟨more, rfl⟩ := hI
  exact h.of_append

theorem Viable.mono (h : Viable phrase I) (hphrase : ∀ {K x}, phrase K x → Viable phrase' K) :
    Viable phrase' I := by
  obtain ⟨more, x, hx⟩ := h
  exact (hphrase hx).of_append

/-- A start of one phrase is a start of another where whole phrases are. -/
theorem Viable.within {before : Input σ} (h : Viable phrase I)
    (hphrase : ∀ {K x}, phrase K x → Viable phrase' (before ++ K)) :
    Viable phrase' (before ++ I) := by
  obtain ⟨more, x, hx⟩ := h
  exact (hphrase hx).of_isPrefix (by simp)

theorem Viable.cons {t : Kind × σ} (h : Viable phrase I)
    (hphrase : ∀ {K x}, phrase K x → Viable phrase' (t :: K)) : Viable phrase' (t :: I) := by
  obtain ⟨more, x, hx⟩ := h
  exact (hphrase hx).of_isPrefix (by simp)

end Viable

/-- A rule whose phrases end, and fail, where one token of lookahead tells. -/
structure Rule.Localizes (rule : Rule σ α) (phrase : Input σ → α → Prop)
    (continues : Kind → Bool) : Prop extends rule.Predictive where
  reads : rule.Reads phrase continues
  blames : rule.Blames (Viable phrase)

/-! ## Steps -/

namespace Step.Blames

variable {before : Input σ} {starts : Input σ → Prop}

theorem pure (value : α) : (Pure.pure value : Step σ α).Blames before starts := ⟨nofun⟩

theorem peek : (Step.peek : Step σ _).Blames before starts := ⟨nofun⟩

theorem bind {step : Step σ α} {next : α → Step σ β} (hstep : step.Blames before starts)
    (hends : step.Ends) (hnext : ∀ {x used rest}, step.read (used ++ rest) = .ok (x, rest) →
      (next x).Blames (before ++ used) starts) : (step >>= next).Blames before starts := by
  refine ⟨fun {I f} herror hcause => ?_⟩
  rcases Step.bind_error.mp herror with herror | ⟨value, middle, hvalue, hbroken⟩
  · obtain ⟨used, rest, rfl, hstarts, hpoints, hread⟩ := hstep.breaks herror hcause
    exact ⟨used, rest, rfl, hstarts, hpoints, fun hJ => Step.bind_error.mpr (.inl (hread hJ))⟩
  · obtain ⟨used, rfl, hread⟩ := hends.takes hvalue
    obtain ⟨used', rest, rfl, hstarts, hpoints, hread'⟩ := (hnext hvalue).breaks hbroken hcause
    rw [List.append_assoc] at hstarts hpoints
    refine ⟨used ++ used', rest, by simp, hstarts, hpoints, fun hJ => ?_⟩
    rw [List.append_assoc]
    exact Step.bind_error.mpr (.inr ⟨value, _, hread (hJ.append used'), hread' hJ⟩)

/-- Nothing fails behind the last step. -/
theorem last {step : Step σ α} {next : α → Step σ β} (h : step.Blames before starts)
    (hnext : ∀ x, ∃ y, next x = Pure.pure y) : (step >>= next).Blames before starts := by
  refine ⟨fun herror hcause => ?_⟩
  rcases Step.bind_error.mp herror with herror | ⟨value, middle, -, hbroken⟩
  · obtain ⟨used, rest, rfl, hstarts, hpoints, hread⟩ := h.breaks herror hcause
    exact ⟨used, rest, rfl, hstarts, hpoints, fun hJ => Step.bind_error.mpr (.inl (hread hJ))⟩
  · obtain ⟨y, hy⟩ := hnext value
    rw [hy] at hbroken
    cases hbroken

/-- What follows is read as it would be without what was read before. -/
theorem behind {step : Step σ α} {starts' : Input σ → Prop} (h : step.Blames [] starts')
    (hstarts : ∀ {u}, starts' u → starts (before ++ u)) : step.Blames before starts := by
  refine ⟨fun {I f} herror hcause => ?_⟩
  obtain ⟨used, rest, rfl, hused, hpoints, hread⟩ := h.breaks herror hcause
  exact ⟨used, rest, rfl, hstarts hused, hpoints.behind before, hread⟩

end Step.Blames

/-! ## Rules -/

namespace Rule

theorem exactly_used {kind : Kind} {used rest : Input σ} {x}
    (h : (exactly kind).read (used ++ rest) = .matched x rest) : ∃ m, used = [(kind, m)] := by
  obtain ⟨m, heq, -⟩ := exactly_matched.mp h
  exact ⟨m, List.append_cancel_right heq⟩

section Reads

variable {rule : Rule σ α} {phrase : Input σ → α → Prop} {continues : Kind → Bool}
  (h : rule.Reads phrase continues)
include h

/-- What is taken for a phrase is the phrase. -/
theorem Reads.used {used rest : Input σ} {x} (hread : rule.read (used ++ rest) = .matched x rest) :
    phrase used x := by
  obtain ⟨used', heq, hphrase⟩ := h.sound hread
  rwa [List.append_cancel_right heq]

theorem Reads.optional_used {used rest : Input σ} {found}
    (hread : rule.optional.read (used ++ rest) = .ok (found, rest)) :
    Grammar.OptionalPhrase phrase used found := by
  obtain ⟨used', heq, hphrase⟩ := Grammar.optional_sound h hread
  rwa [List.append_cancel_right heq]

end Reads

namespace Blames

variable {starts : Input σ → Prop} {rule : Rule σ α}

theorem token {accept : Kind → Option α} : (token accept : Rule σ _).Blames starts :=
  ⟨fun h => (token_ne_malformed h).elim⟩

theorem mono {starts' : Input σ → Prop} (h : rule.Blames starts')
    (hstarts : ∀ {u}, starts' u → starts u) : rule.Blames starts := by
  refine ⟨fun hread hcause => ?_⟩
  obtain ⟨used, rest, rfl, hused, hrest⟩ := h.breaks hread hcause
  exact ⟨used, rest, rfl, hstarts hused, hrest⟩

theorem map {f : α → β} (h : rule.Blames starts) : (rule.map f).Blames starts := by
  refine ⟨fun hread hcause => ?_⟩
  obtain ⟨used, rest, rfl, hstarts, hpoints, hfails⟩ := h.breaks (map_malformed.mp hread) hcause
  exact ⟨used, rest, rfl, hstarts, hpoints, fun hJ => map_malformed.mpr (hfails hJ)⟩

/-- That the first rule finds nothing has to show in what the other one takes and the next token. -/
theorem orElse {other : Rule σ α} (h : rule.Blames starts)
    (habsent : ∀ {used rest J}, used ≠ [] → SameNext rest J →
      rule.read (used ++ rest) = .absent → rule.read (used ++ J) = .absent)
    (hother : other.Blames starts) : (rule <|> other).Blames starts := by
  refine ⟨fun hread hcause => ?_⟩
  rcases orElse_malformed.mp hread with hread | ⟨hnot, hread⟩
  · obtain ⟨used, rest, rfl, hstarts, hpoints, hfails⟩ := h.breaks hread hcause
    exact ⟨used, rest, rfl, hstarts, hpoints, fun hJ => orElse_malformed.mpr (.inl (hfails hJ))⟩
  · obtain ⟨used, rest, rfl, hstarts, hpoints, hfails⟩ := hother.breaks hread hcause
    exact ⟨used, rest, rfl, hstarts, hpoints, fun hJ =>
      orElse_malformed.mpr (.inr ⟨habsent hpoints.ne_nil hJ hnot, hfails hJ⟩)⟩

theorem andThen {next : α → Step σ β} (hrule : rule.Blames starts) (hends : rule.Ends)
    (hnext : ∀ {x used rest}, rule.read (used ++ rest) = .matched x rest →
      (next x).Blames used starts) : (rule.andThen next).Blames starts := by
  refine ⟨fun hread hcause => ?_⟩
  rcases andThen_malformed.mp hread with h | ⟨value, middle, hvalue, h⟩
  · obtain ⟨used, rest, rfl, hstarts, hpoints, hfails⟩ := hrule.breaks h hcause
    exact ⟨used, rest, rfl, hstarts, hpoints, fun hJ => andThen_malformed.mpr (.inl (hfails hJ))⟩
  · obtain ⟨used, rfl, htakes⟩ := hends.takes hvalue
    obtain ⟨used', rest, rfl, hstarts, hpoints, hfails⟩ := (hnext hvalue).breaks h hcause
    refine ⟨used ++ used', rest, by simp, hstarts, hpoints, fun hJ => ?_⟩
    rw [List.append_assoc]
    exact andThen_malformed.mpr (.inr ⟨value, _, htakes (hJ.append used'), hfails hJ⟩)

theorem andThen_exactly {kind : Kind} {next : _ → Step σ β}
    (hnext : ∀ x m, x.span = .single m → (next x).Blames [(kind, m)] starts) :
    ((exactly kind).andThen next).Blames starts :=
  Blames.token.andThen predictive_token.toEnds fun hread => by
    obtain ⟨m, heq, hspan⟩ := exactly_matched.mp hread
    obtain rfl : _ = [(kind, m)] := List.append_cancel_right heq
    exact hnext _ m hspan

/-- Two fixed tokens that begin a construct together. -/
theorem andThen_both {γ : Type} {first : Kind → Option α} {second : Kind → Option γ}
    {next : _ → Step σ β}
    (hnext : ∀ x {k₁ m₁ k₂ m₂}, first k₁ = some x.1.node → second k₂ = some x.2.node →
      (next x).Blames [(k₁, m₁), (k₂, m₂)] starts) :
    (((Rule.token first).both (Rule.token second)).andThen next).Blames starts := by
  have hends : (Rule.token first : Rule σ _).Ends := predictive_token.toEnds
  refine Blames.andThen ⟨fun hread => ?_⟩ (hends.both predictive_token.toEnds) fun hread => ?_
  · simp only [both] at hread
    split at hread
    · cases hread
    · next h => exact (token_ne_malformed h).elim
    · split at hread
      · cases hread
      · next h => exact (token_ne_malformed h).elim
      · cases hread
  · obtain ⟨middle, hfirst, hsecond⟩ := both_matched.mp hread
    obtain ⟨k₁, m₁, heq, haccept, -⟩ := token_matched.mp hfirst
    obtain ⟨k₂, m₂, rfl, haccept', -⟩ := token_matched.mp hsecond
    obtain rfl : _ = [(k₁, m₁), (k₂, m₂)] := List.append_cancel_right heq
    exact hnext _ haccept haccept'

section Step

variable {before : Input σ} {starts' : Input σ → Prop}

theorem optional (h : rule.Blames starts') (hstarts : ∀ {u}, starts' u → starts (before ++ u)) :
    rule.optional.Blames before starts := by
  refine ⟨fun herror hcause => ?_⟩
  obtain ⟨used, rest, rfl, hused, hpoints, hfails⟩ := h.breaks (optional_error.mp herror) hcause
  exact ⟨used, rest, rfl, hstarts hused, hpoints.behind before, fun hJ =>
    optional_error.mpr (hfails hJ)⟩

theorem require {cause : Cause} (h : rule.Blames starts') (hpredictive : rule.Predictive)
    (hstarts : ∀ {u}, starts' u → starts (before ++ u)) (hsolid : Solid before)
    (hbefore : ∀ {rest}, rule.read rest = .absent → starts before) :
    (rule.require cause).Blames before starts := by
  refine ⟨fun {I f} herror hcause => ?_⟩
  rcases requireOr_error.mp herror with hread | ⟨habsent, rfl⟩
  · obtain ⟨used, rest, rfl, hused, hpoints, hfails⟩ := h.breaks hread hcause
    exact ⟨used, rest, rfl, hstarts hused, hpoints.behind before, fun hJ =>
      requireOr_error.mpr (.inl (hfails hJ))⟩
  · refine ⟨[], I, rfl, ?_, ?_, fun {J} hJ => requireOr_error.mpr (.inr ?_)⟩
    · rw [List.append_nil]
      exact hbefore habsent
    · rw [List.append_nil]
      exact .of_solid hsolid rfl
    · refine ⟨hpredictive.absent hJ habsent, ?_⟩
      rw [List.nil_append, Failure.atFront, Failure.atFront, hJ]

end Step

end Blames

end Rule

namespace Step.Blames

variable {before : Input σ} {starts : Input σ → Prop}

theorem token {accept : Kind → Option α} {cause : Cause} (hbefore : starts before)
    (hsolid : Solid before) : ((Rule.token accept).require cause).Blames before starts := by
  have hnone : (Rule.token accept : Rule σ _).Blames fun _ => False := .token
  exact hnone.require Rule.predictive_token nofun hsolid fun _ => hbefore

theorem token_optional {accept : Kind → Option α} :
    (Rule.token accept).optional.Blames before starts :=
  ⟨fun h => (Rule.token_ne_malformed (Rule.optional_error.mp h)).elim⟩

theorem bind_exactly {kind : Kind} {cause : Cause} {next : _ → Step σ β} (hbefore : starts before)
    (hsolid : Solid before) (hnext : ∀ x m, (next x).Blames (before ++ [(kind, m)]) starts) :
    ((Rule.exactly kind).require cause >>= next).Blames before starts :=
  (Step.Blames.token hbefore hsolid).bind Rule.predictive_token.toEnds.require fun hread => by
    obtain ⟨m, rfl⟩ := Rule.exactly_used (Rule.require_ok.mp hread)
    exact hnext _ m

section Localizes

variable {rule : Rule σ α} {phrase : Input σ → α → Prop} {continues : Kind → Bool}
  (h : rule.Localizes phrase continues)
  (hinside : ∀ {I}, Viable phrase I → starts (before ++ I))
include h hinside

/-- A phrase that has to follow. If it does not, there could have been one. -/
theorem bind_require {cause : Cause} {next : α → Step σ β} (hsolid : Solid before)
    (hempty : ∀ {rest}, rule.read rest = .absent → σ → Viable phrase [])
    (hnext : ∀ {x I}, phrase I x → (next x).Blames (before ++ I) starts) :
    (rule.require cause >>= next).Blames before starts := by
  have hrequire : (rule.require cause).Blames before starts :=
    h.blames.require h.toPredictive hinside hsolid fun habsent => by
      obtain ⟨last, -⟩ := hsolid
      simpa using hinside (hempty habsent last.2)
  exact hrequire.bind h.toEnds.require fun hread =>
    hnext (h.reads.used (Rule.require_ok.mp hread))

/-- A phrase that may follow. -/
theorem bind_optional {next : Option α → Step σ β}
    (hnext : ∀ {found I}, Grammar.OptionalPhrase phrase I found →
      (found = none → ∃ rest, rule.read rest = .absent) →
        (next found).Blames (before ++ I) starts) :
    (rule.optional >>= next).Blames before starts := by
  refine (h.blames.optional hinside).bind h.toPredictive.optional fun hread =>
    hnext (h.reads.optional_used hread) fun hnone => ?_
  rcases Rule.optional_ok.mp hread with ⟨-, -, habsent⟩ | ⟨_, hsome, -⟩
  · exact ⟨_, habsent⟩
  · cases hnone.symm.trans hsome

end Localizes

end Step.Blames

/-! ## Chains -/

/-- How items and separators make up chains, and what these are parts of. -/
structure Chained {γ : Type} (accept : Kind → Option β) (phrase : Input σ → α → Prop)
    (chain : Input σ → Prop) (phrase' : Input σ → γ → Prop) : Prop where
  solid : ∀ {kind o}, accept kind = some o → kind ≠ .keyword "NOT" ∧ kind ≠ .keyword "ORDER"
  single : ∀ {I x}, phrase I x → chain I
  link : ∀ {I kind m o J x}, chain I → accept kind = some o → phrase J x →
    chain (I ++ (kind, m) :: J)
  viable : ∀ {I}, chain I → Viable phrase' I

namespace Chained

variable {γ : Type} {accept : Kind → Option β} {phrase : Input σ → α → Prop}
  {chain : Input σ → Prop} {phrase' : Input σ → γ → Prop}
  (h : Chained accept phrase chain phrase')
include h

theorem begins {I : Input σ} (hI : Viable phrase I) : Viable phrase' I :=
  hI.mono fun hx => h.viable (h.single hx)

theorem inside {I J : Input σ} {kind o} (m : σ) (hI : chain I) (ho : accept kind = some o)
    (hJ : Viable phrase J) : Viable phrase' (I ++ (kind, m) :: J) := by
  obtain ⟨more, x, hx⟩ := hJ
  exact (h.viable (h.link (m := m) hI ho hx)).of_isPrefix (by simp)

variable {item : Rule σ α} {continues : Kind → Bool} {missing : Spanned (Span σ) β → Cause}
  (hitem : item.Localizes phrase continues)
  (hempty : ∀ {rest}, item.read rest = .absent → σ → Viable phrase [])
include hitem hempty

theorem links {before : Input σ} (hbefore : chain before) :
    (item.links (Rule.token accept) missing).Blames before (Viable phrase') := by
  refine ⟨fun {I f} herror hcause => ?_⟩
  change Rule.readLinks item (Rule.token accept) missing I = .error f at herror
  show ∃ used rest, _ ∧ _ ∧ _ ∧ ∀ {J}, SameNext rest J →
    Rule.readLinks item (Rule.token accept) missing (used ++ J) = _
  -- on the links, with all that was read before a link as the chain before it
  fun_induction Rule.readLinks item (Rule.token accept) missing I generalizing before with
  | case1 => cases herror
  | case2 I failure hfailure => exact (Rule.token_ne_malformed hfailure).elim
  | case3 I link middle hlink failure hvalue =>
    cases herror
    obtain ⟨kind, m, rfl, haccept, hspan⟩ := Rule.token_matched.mp hlink
    obtain ⟨hnot, horder⟩ := h.solid haccept
    have hrequire : (item.require (missing link)).Blames (before ++ [(kind, m)])
        (Viable phrase') :=
      hitem.blames.require hitem.toPredictive
        (fun hJ => by simpa using h.inside m hbefore haccept hJ)
        (.token before hnot horder) fun habsent => h.inside m hbefore haccept (hempty habsent m)
    obtain ⟨used, rest, rfl, hstarts, hpoints, hfails⟩ := hrequire.breaks hvalue hcause
    rw [List.append_assoc] at hstarts hpoints
    refine ⟨(kind, m) :: used, rest, rfl, hstarts, hpoints, fun {J} hJ => ?_⟩
    have hlink' : (Rule.token accept).read ((kind, m) :: used ++ J) = .matched link (used ++ J) :=
      Rule.token_matched.mpr ⟨kind, m, rfl, haccept, hspan⟩
    rw [Rule.readLinks_eq, hlink']
    simp only [hfails hJ]
  | case4 I link middle hlink value rest hvalue failure hmore ih =>
    cases herror
    obtain ⟨kind, m, rfl, haccept, hspan⟩ := Rule.token_matched.mp hlink
    obtain ⟨used, rfl, htakes⟩ := hitem.takes (Rule.require_ok.mp hvalue)
    have hx := hitem.reads.used (Rule.require_ok.mp hvalue)
    obtain ⟨used', rest', rfl, hstarts, hpoints, hfails⟩ :=
      ih (h.link (m := m) hbefore haccept hx) hmore
    rw [List.append_assoc] at hstarts hpoints
    refine ⟨(kind, m) :: (used ++ used'), rest', by simp, hstarts, hpoints, fun {J} hJ => ?_⟩
    have hlink' : (Rule.token accept).read ((kind, m) :: (used ++ used') ++ J) =
        .matched link (used ++ (used' ++ J)) :=
      Rule.token_matched.mpr ⟨kind, m, by simp, haccept, hspan⟩
    have hvalue' : (item.require (missing link)).read (used ++ (used' ++ J)) =
        .ok (value, used' ++ J) := Rule.require_ok.mpr (htakes (hJ.append used'))
    rw [Rule.readLinks_eq, hlink']
    simp only [hvalue', hfails hJ]
  | case5 => cases herror

theorem blames : (item.chain (Rule.token accept) missing).Blames (Viable phrase') :=
  (hitem.blames.mono h.begins).andThen hitem.toEnds fun hread =>
    (h.links hitem hempty (h.single (hitem.reads.used hread))).last fun _ => ⟨_, rfl⟩

end Chained

end SqlScript

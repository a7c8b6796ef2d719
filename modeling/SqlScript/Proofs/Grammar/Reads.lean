import SqlScript.Proofs.Grammar.Laws
import SqlScript.Proofs.Grammar.Phrase

/-!
# Rules read phrases

`Rule.Reads` relates a rule to a kind of phrase. What the rule takes is such a phrase, and it takes
a whole phrase wherever the next token could not continue one. Here for names and for lists with
commas.
-/

namespace SqlScript

variable {σ α β : Type}

/-- The next token, if there is one, does not continue what stands before it. -/
def Stops (continues : Kind → Bool) (rest : Input σ) : Prop :=
  ∀ first ∈ rest.head?, continues first.1 = false

theorem Stops.nil {continues : Kind → Bool} : Stops continues ([] : Input σ) := by
  simp [Stops]

@[simp] theorem stops_cons {continues : Kind → Bool} {kind : Kind} {mark : σ} {rest : Input σ} :
    Stops continues ((kind, mark) :: rest) ↔ continues kind = false := by
  simp [Stops]

theorem Stops.mono {c d : Kind → Bool} (h : ∀ kind, c kind = true → d kind = true)
    {rest : Input σ} (hd : Stops d rest) : Stops c rest := by
  intro first hfirst
  have := hd first hfirst
  have := h first.1
  cases hc : c first.1 <;> simp_all

structure Rule.Reads (rule : Rule σ α) (phrase : Input σ → α → Prop) (continues : Kind → Bool) :
    Prop where
  sound : ∀ {I x rest}, rule.read I = .matched x rest → ∃ used, I = used ++ rest ∧ phrase used x
  complete : ∀ {I x rest}, phrase I x → Stops continues rest →
    rule.read (I ++ rest) = .matched x rest

/-! ## What can continue a phrase -/

namespace Kind

def continuesName (kind : Kind) : Bool := kind = .symbol "."

def continuesOperand (kind : Kind) : Bool := kind.continuesName || kind = .symbol "("

def continuesExpression (kind : Kind) : Bool :=
  kind.continuesOperand || (Operator.ofKind? kind).isSome

/-- A comma continues a list, and so does what continues its last item. -/
def continuesList (continues : Kind → Bool) (kind : Kind) : Bool :=
  continues kind || kind = .symbol ","

/-- An operand begins with NOT, a name or a literal. -/
def startsOperand : Kind → Bool
  | .name _ => true
  | kind => kind = .keyword "NOT" || (Grammar.literalOf kind).isSome

/-- An operator begins the next link of a chain; it does not belong to the operand before it. -/
theorem continuesOperand_of_operator {kind : Kind} {o : Operator}
    (h : Operator.ofKind? kind = some o) : kind.continuesOperand = false := by
  cases hc : kind.continuesOperand with
  | false => rfl
  | true =>
    simp only [continuesOperand, continuesName, Bool.or_eq_true, decide_eq_true_eq] at hc
    rcases hc with rfl | rfl <;> cases h

end Kind

theorem Stops.name {rest : Input σ} (h : Stops Kind.continuesOperand rest) :
    Stops Kind.continuesName rest :=
  h.mono fun kind hkind => by simp [Kind.continuesOperand, hkind]

theorem Stops.operand {rest : Input σ} (h : Stops Kind.continuesExpression rest) :
    Stops Kind.continuesOperand rest :=
  h.mono fun kind hkind => by simp [Kind.continuesExpression, hkind]

theorem Stops.operator {rest : Input σ} (h : Stops Kind.continuesExpression rest) :
    Stops (fun kind => (Operator.ofKind? kind).isSome) rest :=
  h.mono fun kind hkind => by simp [Kind.continuesExpression, hkind]

theorem Stops.item {continues : Kind → Bool} {rest : Input σ}
    (h : Stops (Kind.continuesList continues) rest) : Stops continues rest :=
  h.mono fun kind hkind => by simp [Kind.continuesList, hkind]

namespace Grammar

/-! ## Names and lists -/

/-- Nothing can follow two names that would belong to them. -/
theorem qualified_dotted (missing : Cause) {qualifier name : String} {m₁ m₂ m₃ : σ}
    {rest : Input σ} :
    (qualified missing).read
        ((.name qualifier, m₁) :: (.symbol ".", m₂) :: (.name name, m₃) :: rest) =
      .matched ⟨⟨m₁, m₃⟩, some qualifier, name⟩ rest := by
  simp only [qualified, Rule.andThen_matched, Rule.name_matched, Step.bind_ok, Rule.optional_ok]
  refine ⟨⟨.single m₁, qualifier⟩, _, ⟨m₁, rfl, rfl⟩, some ⟨.single m₂, ()⟩, _,
    .inr ⟨_, rfl, Rule.symbol_matched.mpr ⟨m₂, rfl, rfl⟩⟩, ?_⟩
  simp only [Step.bind_ok, Rule.require_ok, Rule.name_matched, Step.pure_ok]
  exact ⟨⟨.single m₃, name⟩, _, ⟨m₃, rfl, rfl⟩, rfl, rfl⟩

theorem reads_qualified (missing : Cause) :
    (qualified missing : Rule σ _).Reads QualifiedPhrase Kind.continuesName where
  sound {I x rest} h := by
    simp only [qualified, Rule.andThen_matched, Rule.name_matched, Step.bind_ok,
      Rule.optional_ok] at h
    obtain ⟨first, middle, ⟨m₁, rfl, hspan⟩, found, behind, hdot, h⟩ := h
    rcases hdot with ⟨rfl, rfl, -⟩ | ⟨dot, rfl, hdot⟩
    · obtain ⟨rfl, rfl⟩ := Step.pure_ok.mp h
      exact ⟨[_], rfl, hspan ▸ .plain⟩
    · obtain ⟨m₂, rfl, -⟩ := Rule.symbol_matched.mp hdot
      simp only [Step.bind_ok, Rule.require_ok, Rule.name_matched, Step.pure_ok] at h
      obtain ⟨second, _, ⟨m₃, rfl, hspan'⟩, rfl, rfl⟩ := h
      refine ⟨[_, _, _], rfl, ?_⟩
      rw [hspan, hspan']
      exact .dotted
  complete {I x rest} h hstop := by
    cases h with
    | @plain name m =>
      simp only [qualified, Rule.andThen_matched, Rule.name_matched, Step.bind_ok,
        Rule.optional_ok]
      refine ⟨⟨.single m, name⟩, rest, ⟨m, rfl, rfl⟩, none, rest, .inl ⟨rfl, rfl, ?_⟩, by simp⟩
      rw [Rule.symbol_absent]
      intro first hfirst
      simpa [Kind.continuesName] using hstop first hfirst
    | dotted => exact qualified_dotted missing

theorem reads_tableRef : (tableRef : Rule σ _).Reads TablePhrase Kind.continuesName where
  sound {I x rest} h := by
    obtain ⟨q, hq, rfl⟩ := Rule.map_matched.mp h
    exact (reads_qualified _).sound hq
  complete {I x rest} h hstop :=
    Rule.map_matched.mpr ⟨_, (reads_qualified _).complete h hstop, rfl⟩

theorem reads_columnRef : (columnRef : Rule σ _).Reads ColumnPhrase Kind.continuesName where
  sound {I x rest} h := by
    obtain ⟨q, hq, rfl⟩ := Rule.map_matched.mp h
    exact (reads_qualified _).sound hq
  complete {I x rest} h hstop :=
    Rule.map_matched.mpr ⟨_, (reads_qualified _).complete h hstop, rfl⟩

section CommaList

variable {item : Rule σ α} {phrase : Input σ → α → Prop} {continues : Kind → Bool}

theorem commaLinks_sound (hitem : item.Reads phrase continues)
    {missing : Spanned (Span σ) Unit → Cause} {found : List (Spanned (Span σ) Unit × α)}
    {before I rest : Input σ} {first : α} (hfirst : phrase before first)
    (h : (item.links (Rule.symbol ",") missing).read I = .ok (found, rest)) :
    ∃ used, I = used ++ rest ∧
      CommaPhrase phrase (before ++ used) (first :: found.map Prod.snd) := by
  -- on the links that were found, whose item is the first one of what is left
  induction found generalizing before I first with
  | nil =>
    rcases Rule.links_ok.mp h with ⟨-, rfl, -⟩ | ⟨_, _, _, _, _, heq, -⟩
    · exact ⟨[], rfl, by simpa using .single hfirst⟩
    · cases heq
  | cons link found ih =>
    rcases Rule.links_ok.mp h with ⟨heq, -⟩ | ⟨comma, middle, value, after, more, heq, hcomma,
      hvalue, hmore⟩
    · cases heq
    · cases heq
      obtain ⟨m, rfl, -⟩ := Rule.symbol_matched.mp hcomma
      obtain ⟨used, rfl, hphrase⟩ := hitem.sound hvalue
      obtain ⟨used', rfl, hcommas⟩ := ih hphrase hmore
      exact ⟨(.symbol ",", m) :: (used ++ used'), by simp, .cons hfirst hcommas⟩

theorem commaLinks_complete (hitem : item.Reads phrase continues)
    (hcomma : continues (.symbol ",") = false) (missing : Spanned (Span σ) Unit → Cause)
    {I rest : Input σ} {xs : List α} (h : CommaPhrase phrase I xs)
    (hstop : Stops (Kind.continuesList continues) rest) :
    ∃ first found middle, xs = first :: found.map Prod.snd ∧
      item.read (I ++ rest) = .matched first middle ∧
      (item.links (Rule.symbol ",") missing).read middle = .ok (found, rest) := by
  induction h with
  | @single I x hfirst =>
    refine ⟨x, [], rest, rfl, hitem.complete hfirst (hstop.item), ?_⟩
    refine Rule.links_ok.mpr (.inl ⟨rfl, rfl, Rule.symbol_absent.mpr fun first hmem => ?_⟩)
    have := hstop first hmem
    simp_all [Kind.continuesList]
  | @cons I m J x xs hfirst _ ih =>
    obtain ⟨second, found, middle, rfl, hsecond, hfound⟩ := ih
    refine ⟨x, (⟨.single m, ()⟩, second) :: found, (.symbol ",", m) :: (J ++ rest), rfl, ?_, ?_⟩
    · rw [List.append_assoc]
      exact hitem.complete hfirst (stops_cons.mpr hcomma)
    · exact Rule.links_ok.mpr (.inr ⟨_, _, _, _, _, rfl,
        Rule.symbol_matched.mpr ⟨m, rfl, rfl⟩, hsecond, hfound⟩)

theorem reads_commaList (hitem : item.Reads phrase continues)
    (hcomma : continues (.symbol ",") = false) (kind : Listed) :
    (item.commaList kind).Reads (fun I xs => CommaPhrase phrase I (xs.1 :: xs.2))
      (Kind.continuesList continues) where
  sound {I xs rest} h := by
    obtain ⟨⟨first, found⟩, hchain, rfl⟩ := Rule.map_matched.mp h
    obtain ⟨middle, hfirst, hlinks⟩ := Rule.chain_matched.mp hchain
    obtain ⟨used, rfl, hphrase⟩ := hitem.sound hfirst
    obtain ⟨used', rfl, hcommas⟩ := commaLinks_sound hitem hphrase hlinks
    exact ⟨used ++ used', by simp, hcommas⟩
  complete {I xs rest} h hstop := by
    obtain ⟨first, more⟩ := xs
    obtain ⟨_, found, middle, heq, hfirst, hlinks⟩ :=
      commaLinks_complete hitem hcomma (fun _ => .listed kind) h hstop
    cases heq
    exact Rule.map_matched.mpr ⟨(_, found), Rule.chain_matched.mpr ⟨middle, hfirst, hlinks⟩, rfl⟩

end CommaList

end Grammar

end SqlScript

import SqlScript.Proofs.Script.Faithful
import SqlScript.Proofs.Tree.Postfix

/-!
# Postfix text is a faithful image

Where no name is written between double quotes, all names are bare, and the expressions of scripts
can be told by their postfix text (`text_eq_iff_same`).
-/

namespace SqlScript

open Grammar

/-! ## Sources without double quotes -/

/-- No token is a name between double quotes. -/
def Source.Unquoted (source : Source) : Prop :=
  ∀ ts, source.tokens = .ok ts → ∀ t ∈ ts, t.raw.toList.head? ≠ some '"'

/-- All names among the tokens are bare. -/
def BareNames {σ : Type} (I : Input σ) : Prop := ∀ t ∈ I, ∀ name, t.1 = .name name → Bare name

theorem Source.Unquoted.bareNames {source : Source} (h : source.Unquoted) {ts : List Token}
    (hts : source.tokens = .ok ts) : BareNames (marked ts) := by
  refine List.forall_mem_map.mpr fun t ht name hname => ?_
  obtain ⟨-, before, after, -, -, hspelled⟩ := Source.token_spelled hts ht
  rw [show t.kind = _ from hname] at hspelled
  exact hspelled.bare (h ts hts t ht)

section Phrases

variable {σ : Type} {I J : Input σ}

theorem BareNames.cons_name {name : String} {m : σ} (h : BareNames ((.name name, m) :: I)) :
    Bare name :=
  h _ List.mem_cons_self name rfl

theorem Grammar.QualifiedPhrase.bare {q} (h : QualifiedPhrase I q) (hI : BareNames I) :
    (∀ qualifier ∈ q.node.1, Bare qualifier) ∧ Bare q.node.2 := by
  cases h with
  | plain => exact ⟨nofun, hI.cons_name⟩
  | dotted =>
    refine ⟨?_, hI _ (List.mem_of_getElem? (i := 2) rfl) _ rfl⟩
    rintro _ ⟨⟩
    exact hI.cons_name

theorem Grammar.NodePhrase.bare {n} (h : NodePhrase I n) (hI : BareNames I) : n.Bare := by
  cases h with
  | column h => exact h.bare hI
  | operand h =>
    cases h with
    | call | callWith => exact hI.cons_name
    | not | column | literal => trivial
  | _ => trivial

end Phrases

/-- An expression in a script that some source without names between double quotes is read as. -/
def Expr.FromUnquoted (e : Expr (Span Token)) : Prop :=
  ∃ depth source ss, source.Unquoted ∧ readSource depth source = .ok ss ∧
    ∃ s ∈ ss, (Node.statement s).Within (.expression e)

theorem Expr.FromUnquoted.displayable {e : Expr (Span Token)} (h : e.FromUnquoted) :
    (Node.expression e).Displayable := by
  obtain ⟨depth, source, ss, hunquoted, hread, s, hs, he⟩ := h
  obtain ⟨ts, hts, hphrases⟩ := readSource_within hread
  have hsound : (Node.expression e).Sound :=
    Node.FromSource.sound ⟨ss, ⟨depth, source, hread⟩, s, hs, he⟩
  intro m hm
  obtain ⟨K, hK, hphrase⟩ := hphrases s hs m (he.trans hm)
  exact ⟨hsound m hm, hphrase.bare fun t ht => hunquoted.bareNames hts t (hK.subset ht)⟩

/-- Two expressions have the same postfix text if and only if they are equal, wherever they come
from, as long as no names are written between double quotes there. Nor does the text of one begin
with the text of another one and what may stand behind an argument. -/
theorem postfix_faithful :
    ∀ e f : Expr (Span Token), e.FromUnquoted → f.FromUnquoted →
      (e.text = f.text ↔ e.same f = true) ∧
      ∀ r s, (∀ c ∈ r.head?, c = ',' ∨ c = ')') → (∀ c ∈ s.head?, c = ',' ∨ c = ')') →
        (e.text.toList ++ r = f.text.toList ++ s ↔ e.same f = true ∧ r = s) := by
  intro e f he hf
  refine ⟨?_, fun r s hr hs => ?_⟩
  · have hinj := e.text_append_inj f he.displayable hf.displayable ends_nil ends_nil
    simpa [String.toList_inj] using hinj
  · refine e.text_append_inj f he.displayable hf.displayable (fun c hc => ?_) fun c hc => ?_
    · simpa [or_iff_not_imp_left] using hr c hc
    · simpa [or_iff_not_imp_left] using hs c hc

/-- A call in two layouts: with a comma and a parenthesis inside a string. -/
theorem postfix_faithful_call :
    let source : Source := ⟨"", "select f('x, y)'), F ( 'x, y)')"⟩
    ∃ s e f, readSource 2 source = .ok [.select s [e, f] none] ∧ e.text = "F('x, y)')" ∧
      e.same f = true := by
  intro source
  let token (kind : Kind) (raw : String) (position : Nat) : Token := ⟨kind, raw, position, source⟩
  let select := token (.keyword "SELECT") "select" 0
  let f₁ := token (.name "F") "f" 7
  let open₁ := token (.symbol "(") "(" 8
  let string₁ := token (.string "x, y)") "'x, y)'" 9
  let close₁ := token (.symbol ")") ")" 16
  let comma := token (.symbol ",") "," 17
  let f₂ := token (.name "F") "F" 19
  let open₂ := token (.symbol "(") "(" 21
  let string₂ := token (.string "x, y)") "'x, y)'" 23
  let close₂ := token (.symbol ")") ")" 30
  let tokens :=
    [select, f₁, open₁, string₁, close₁, comma, f₂, open₂, string₂, close₂]
  let call (m₁ m₃ m₄ : Token) : Expr (Span Token) :=
    .postfixed ⟨m₁, m₄⟩ [.operand (.call ⟨m₁, m₄⟩ "F"
      [.postfixed (.single m₃) [.operand (.atom (.single m₃) (.string "x, y)"))]])]
  let e := call f₁ string₁ close₁
  let f := call f₂ string₂ close₂
  have hcall (m₁ m₂ m₃ m₄ : Token) : ExpressionPhrase
      [(.name "F", m₁), (.symbol "(", m₂), (.string "x, y)", m₃), (.symbol ")", m₄)]
      (call m₁ m₃ m₄) :=
    .intro (t := .leaf _) (.single (.callWith (.single (.intro (t := .leaf _)
      (.single (.literal rfl)) (.single _ _) trivial rfl)))) ⟨rfl, rfl⟩ trivial rfl
  have hselect : StatementPhrase (marked tokens) (.select ⟨select, close₂⟩ [e, f] none) :=
    .selectList (.cons (hcall f₁ open₁ string₁ close₁) (.single (hcall f₂ open₂ string₂ close₂)))
      (.intro .absent .absent .absent) (by simp [Selective]) ⟨rfl, rfl⟩
  have hphrase : ScriptPhrase (marked tokens) [.select ⟨select, close₂⟩ [e, f] none] :=
    .cons hselect .nil
  have htokens : source.tokens.toOption = some tokens := by decide +kernel
  have hread := readSource_of_phrase htokens hphrase (Nat.le_refl 2)
  have hunquoted : source.Unquoted := by
    intro ts hts
    rw [hts] at htokens
    obtain rfl := Option.some.inj htokens
    decide
  have he : e.FromUnquoted := ⟨2, source, _, hunquoted, hread, _, List.mem_cons_self,
    .child .self (by simp [Node.children])⟩
  have hf : f.FromUnquoted := ⟨2, source, _, hunquoted, hread, _, List.mem_cons_self,
    .child .self (by simp [Node.children])⟩
  exact ⟨_, e, f, hread, by decide +kernel, (postfix_faithful e f he hf).1.mp rfl⟩

end SqlScript

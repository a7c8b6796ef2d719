import SqlScript.Proofs.Scan.Displayed
import SqlScript.Proofs.Script.Compose

/-!
# Strings are written as they are read

A string between quotes, with every quote in it written twice, is a lexeme in front of anything but
another quote, and no other lexeme stands for this string. So the postfix text of a string that was
read is the text it was read from (`strings_round_trip`).
-/

namespace SqlScript

open Scanner Grammar

/-! ## Tokens -/

namespace Source

/-- What stands behind a string is scanned from the end of the string on. -/
theorem tokens_string {file v t : String} (h : Ends (· = '\'') t.toList) :
    let raw := (Atom.string v).text
    let source : Source := ⟨file, raw ++ t⟩
    source.tokens = (tokenize ⟨source, byteLength raw.toList, t.toList⟩).1.map
      (⟨.string v, raw, 0, source⟩ :: ·) := by
  intro raw source
  have hblank : Blank [] := by simp [Blank]
  have hfirst : tokenize ⟨source, 0, [] ++ _⟩ = _ :=
    tokenize_lexeme hblank (Atom.spelled_string h v)
  rw [List.nil_append, ← String.toList_append, byteLength_nil, Nat.zero_add, Nat.zero_add,
    String.ofList_toList] at hfirst
  rw [tokens, ofSource, hfirst]
  rfl

theorem raw_of_string {source : Source} {ts : List Token} (h : source.tokens = .ok ts) {t : Token}
    (ht : t ∈ ts) {v : String} (hv : t.kind = .string v) : t.raw = (Atom.string v).text := by
  obtain ⟨-, before, after, -, -, hspelled⟩ := token_spelled h ht
  rw [hv] at hspelled
  exact String.toList_inj.mp hspelled.raw_of_string

end Source

/-! ## Operands -/

theorem Grammar.literalOf_string {kind : Kind} {v : String}
    (h : literalOf kind = some (.string v)) : kind = .string v := by
  unfold literalOf at h
  split at h <;> cases h
  rfl

/-- A string operand is a string token. -/
theorem Grammar.NodePhrase.string_token {σ : Type} {K : Input σ} {span : Span σ} {v : String}
    (h : NodePhrase K (.operand (.atom span (.string v)))) :
    ∃ m, K = [(.string v, m)] ∧ span = .single m := by
  cases h with
  | operand h =>
    cases h with
    | @literal kind m value hvalue =>
      rw [literalOf_string hvalue]
      exact ⟨m, rfl, rfl⟩

/-- Doubling the quotes of any string and putting it between quotes makes a lexeme that is read as
this string, wherever no further quote follows it; what does follow is scanned as it would be
without it. Every string token of a source is written in this way, and every string of a script is
displayed as its one token is written. -/
theorem strings_round_trip :
    (∀ v : String, (Atom.string v).text.toList =
      '\'' :: v.toList.flatMap (fun c => if c = '\'' then ['\'', '\''] else [c]) ++ ['\'']) ∧
    (∀ file v t : String, (∀ c ∈ t.toList.head?, c ≠ '\'') →
      let raw := (Atom.string v).text
      let source : Source := ⟨file, raw ++ t⟩
      source.tokens = (tokenize ⟨source, byteLength raw.toList, t.toList⟩).1.map
        (⟨.string v, raw, 0, source⟩ :: ·)) ∧
    (∀ (source : Source) (ts : List Token), source.tokens = .ok ts →
      ∀ t ∈ ts, ∀ v, t.kind = .string v → t.raw = (Atom.string v).text) ∧
    ∀ depth source ss, readSource depth source = .ok ss →
      ∀ s ∈ ss, ∀ span v, (Node.statement s).Within (.operand (.atom span (.string v))) →
        span.first = span.last ∧ span.first.raw = (Atom.string v).text := by
  refine ⟨Atom.toList_text_string, fun file v t h => ?_, fun source ts h t ht v => ?_, ?_⟩
  · exact Source.tokens_string fun c hc => decide_eq_false (h c hc)
  · exact Source.raw_of_string h ht
  · intro depth source ss h s hs span v hwithin
    obtain ⟨ts, hts, hphrases⟩ := readSource_within h
    obtain ⟨K, hK, hphrase⟩ := hphrases s hs _ hwithin
    obtain ⟨t, rfl, rfl⟩ := hphrase.string_token
    obtain ⟨u, hu, heq⟩ := List.mem_map.mp (hK.subset List.mem_cons_self)
    obtain ⟨hkind, rfl⟩ := Prod.mk.inj heq
    exact ⟨rfl, Source.raw_of_string hts hu hkind⟩

/-- Two quotes are written as six: what follows is scanned from the sixth byte on, and where they
are read they were six. -/
theorem strings_round_trip_quotes :
    let source : Source := ⟨"", "''''''" ++ "#"⟩
    let source' : Source := ⟨"", "select ''''''"⟩
    source.tokens = (tokenize ⟨source, 6, ['#']⟩).1.map (⟨.string "''", "''''''", 0, source⟩ :: ·) ∧
      ∃ s e span, readSource 1 source' =
          .ok [.select s [.postfixed e [.operand (.atom span (.string "''"))]] none] ∧
        span.first.raw = "''''''" := by
  intro source source'
  obtain ⟨-, hscanned, -, hread⟩ := strings_round_trip
  refine ⟨hscanned "" "''" "#" (by simp), ?_⟩
  let select : Token := ⟨.keyword "SELECT", "select", 0, source'⟩
  let string : Token := ⟨.string "''", "''''''", 7, source'⟩
  let value : Operand (Span Token) := .atom (.single string) (.string "''")
  let tree : Statement (Span Token) :=
    .select ⟨select, string⟩ [.postfixed (.single string) [.operand value]] none
  have hlist : ExpressionPhrase [(string.kind, string)] _ :=
    .intro (t := .leaf value) (.single (.literal rfl)) (.single _ _) trivial rfl
  have htree : StatementPhrase (marked [select, string]) tree :=
    .selectList (.single hlist) (.intro .absent .absent .absent) (by simp [Selective]) ⟨rfl, rfl⟩
  have hphrase : ScriptPhrase (marked [select, string]) [tree] := .cons htree .nil
  have hss : readSource 1 source' = .ok [tree] :=
    readSource_of_phrase (by decide +kernel) hphrase (Nat.le_refl 1)
  -- the statement, its expression, and the only entry of this
  have hwithin : (Node.statement tree).Within (.operand value) :=
    (Node.Within.self.child List.mem_cons_self).child List.mem_cons_self
  exact ⟨_, _, _, hss, (hread 1 source' _ hss _ List.mem_cons_self _ _ hwithin).2⟩

end SqlScript

import SqlScript.Event
import SqlScript.Proofs.Grammar.Marks
import SqlScript.Proofs.Grammar.Need
import SqlScript.Proofs.Grammar.Statement

/-!
# Tokens are a script exactly if the grammar says so

Where a token stands and how it was written play no part in it, so here the grammar reads kinds
alone and its trees are without spans.
-/

namespace SqlScript

variable {σ : Type}

/-- What the grammar sees of tokens. -/
def kinds (tokens : List Token) : Input Unit := tokens.map fun t => (t.kind, ())

/-- Tokens for the grammar, each with itself as its mark. -/
def marked (tokens : List Token) : Input Token := tokens.map fun t => (t.kind, t)

/-- The tree without its spans. -/
def Statement.erase (s : Statement (Span σ)) : Statement (Span Unit) := s.map (.map fun _ => ())

namespace Grammar

/-- No input is two scripts. -/
theorem ScriptPhrase.unique {I : Input σ} {ss ss'} (h : ScriptPhrase I ss)
    (h' : ScriptPhrase I ss') : ss = ss' := by
  -- with enough room the reader finds both, and it gives one result
  have hread : (script I.length I).result = .ok ss := script_ok_iff.mpr ⟨h, h.need_le⟩
  have hread' : (script I.length I).result = .ok ss' := script_ok_iff.mpr ⟨h', h'.need_le⟩
  exact Except.ok.inj (hread.symm.trans hread')

theorem script_ok_iff_phrase {depth : Nat} {I : Input σ} {ss} (h : I.length ≤ depth) :
    (script depth I).result = .ok ss ↔ ScriptPhrase I ss := by
  rw [script_ok_iff]
  exact ⟨And.left, fun hphrase => ⟨hphrase, Nat.le_trans hphrase.need_le h⟩⟩

/-- Erasing marks before reading or spans behind it comes to the same. -/
theorem script_erase_ok_iff {depth : Nat} {I : Input σ} {trees} :
    (script depth (I.remark fun _ => ())).result = .ok trees ↔
      ∃ ss, (script depth I).result = .ok ss ∧ ss.map Statement.erase = trees := by
  rw [script_remark, Reading.map_ok]
  rfl

end Grammar

open Grammar

theorem readTokens_ok_iff {depth : Nat} {tokens : List Token} {ss} :
    (readTokens depth tokens).2 = .ok ss ↔ (script depth (marked tokens)).result = .ok ss := by
  cases tokens with
  | nil =>
    rw [marked, List.map_nil, script_nil]
    exact ⟨fun h => by cases h; rfl, fun h => by cases h; rfl⟩
  | cons first more =>
    have hread : (readTokens depth (first :: more)).2 =
        (script depth (marked (first :: more))).result.mapError
          (Reader.resolve ⟨first, more, depth⟩) := rfl
    rw [hread]
    cases (script depth (marked (first :: more))).result with
    | error failure => exact ⟨nofun, nofun⟩
    | ok statements => exact ⟨fun h => by cases h; rfl, fun h => by cases h; rfl⟩

/-- Past the end a failure points at the last token. -/
theorem readTokens_error {depth : Nat} {ts : List Token} {failure : Failure Token}
    (h : (script depth (marked ts)).result = .error failure) :
    ∃ last, ts.getLast? = some last ∧
      (readTokens depth ts).2 = .error ⟨failure.mark.getD last, failure.cause⟩ := by
  cases ts with
  | nil =>
    rw [marked, List.map_nil, script_nil] at h
    cases h
  | cons first more =>
    refine ⟨(first :: more).getLast (List.cons_ne_nil _ _), List.getLast?_eq_some_getLast _, ?_⟩
    have hread : (readTokens depth (first :: more)).2 =
        (script depth (marked (first :: more))).result.mapError
          (Reader.resolve ⟨first, more, depth⟩) := rfl
    rw [hread, h]
    rfl

theorem remark_marked (tokens : List Token) :
    (marked tokens).remark (fun _ => ()) = kinds tokens := by
  simp [Input.remark, kinds, marked]

/-- With a depth limit above the number of tokens, tokens can be read if and only if they are a
script, and the tree is then the only one that they are. -/
theorem readTokens_exact {depth : Nat} {tokens : List Token} (h : tokens.length < depth) :
    ((∃ ss, (readTokens depth tokens).2 = .ok ss) ↔ ∃ trees, ScriptPhrase (kinds tokens) trees) ∧
    (∀ ss, (readTokens depth tokens).2 = .ok ss →
      ∀ trees, ScriptPhrase (kinds tokens) trees ↔ trees = ss.map Statement.erase) ∧
    (∀ trees trees', ScriptPhrase (kinds tokens) trees → ScriptPhrase (kinds tokens) trees' →
      trees = trees') := by
  have hlength : (kinds tokens).length ≤ depth := by
    rw [kinds, List.length_map]
    exact Nat.le_of_lt h
  have hiff : ∀ trees, ScriptPhrase (kinds tokens) trees ↔
      ∃ ss, (readTokens depth tokens).2 = .ok ss ∧ ss.map Statement.erase = trees := by
    intro trees
    rw [← script_ok_iff_phrase hlength, ← remark_marked, script_erase_ok_iff]
    simp only [readTokens_ok_iff]
  refine ⟨⟨fun ⟨ss, hss⟩ => ⟨_, (hiff _).mpr ⟨ss, hss, rfl⟩⟩, fun ⟨trees, hphrase⟩ => ?_⟩,
    fun ss hss trees => ?_, fun trees trees' => ScriptPhrase.unique⟩
  · obtain ⟨ss, hss, -⟩ := (hiff trees).mp hphrase
    exact ⟨ss, hss⟩
  · have hown : ScriptPhrase (kinds tokens) (ss.map Statement.erase) := (hiff _).mpr ⟨ss, hss, rfl⟩
    exact ⟨fun hphrase => hphrase.unique hown, fun heq => heq ▸ hown⟩

theorem readTokens_exact_use :
    let tokens : List Token := [⟨.keyword "USE", "use", 0, ⟨"", "use db"⟩⟩,
      ⟨.name "DB", "db", 4, ⟨"", "use db"⟩⟩]
    tokens.length < 3 ∧
      ∃ ss, (readTokens 3 tokens).2 = .ok ss ∧ [.use ⟨(), ()⟩ "DB"] = ss.map Statement.erase := by
  intro tokens
  have h : tokens.length < 3 := by decide
  have hphrase : ScriptPhrase (kinds tokens) [.use ⟨(), ()⟩ "DB"] := .cons .use .nil
  obtain ⟨ss, hss⟩ := (readTokens_exact h).1.mpr ⟨_, hphrase⟩
  exact ⟨h, ss, hss, ((readTokens_exact h).2.1 ss hss _).mp hphrase⟩

end SqlScript

import SqlScript.Proofs.Grammar.Numbered
import SqlScript.Proofs.Grammar.SelfEqual
import SqlScript.Proofs.Scan.Respelled
import SqlScript.Proofs.Script.Compose
import SqlScript.Proofs.Tree.Unmarked

/-!
# How a script is laid out does not matter

Capitals of bare words, the symbol for inequality and the blanks around lexemes change neither the
tree of a script nor its JSON, nor what is wrong with it and at which token.
-/

namespace SqlScript

open Grammar

/-- Readings of two sources that differ in where their tokens stand and how they are written: equal
trees with the same JSON, or the same failure at tokens of the same index. -/
def SameReading (ts us : List Token) :
    Except Error (List (Statement (Span Token))) → Except Error (List (Statement (Span Token))) →
      Prop
  | .ok xs, .ok ys => sameList Statement.same xs ys = true ∧ scriptJson xs = scriptJson ys
  | .error (.read d), .error (.read e) =>
    d.message = e.message ∧ ∃ i : Nat, ts[i]? = some d.token ∧ us[i]? = some e.token
  | _, _ => False

variable {source source' : Source} {ts us : List Token}

theorem sameReading_of_kinds (depth : Nat) (hts : source.tokens = .ok ts)
    (hus : source'.tokens = .ok us) (h : us.map Token.kind = ts.map Token.kind) :
    SameReading ts us (readSource depth source) (readSource depth source') := by
  have hlength := length_eq_of_kinds h
  rw [readSource_of_tokens hts, readSource_of_tokens hus]
  rcases readTokens_of_kinds depth hlength h with ⟨trees, hleft, hright⟩ |
    ⟨i, t, u, cause, ht, hu, hleft, hright⟩
  · rw [hleft, hright]
    -- both are the tree of the numbered tokens, and numbers of a source equal themselves
    have hphrase := (script_ok_iff.mp (readTokens_ok_iff.mp hleft)).1
    have hself : sameList Statement.same (trees.map (Statement.map (Span.map ts.get)))
        (trees.map (Statement.map (Span.map ts.get))) = true := by
      refine sameList_self.mpr (hphrase.same fun marked hmarked => ?_)
      obtain ⟨t, ht, rfl⟩ := List.mem_map.mp hmarked
      exact Source.kind_same hts t ht
    rw [sameList_map (Statement.same_map _ _)] at hself
    refine ⟨?_, ?_⟩
    · rwa [sameList_map (Statement.same_map _ _)]
    · rw [scriptJson_map, scriptJson_map]
  · rw [hleft, hright]
    exact ⟨rfl, i, ht, hu⟩

/-- A source with tokens, laid out in another way, has tokens of the same kinds and reads alike. -/
theorem readSource_relaid (depth : Nat) (hts : source.tokens = .ok ts)
    (hlaid : Relaid ts source'.text.toList) :
    ∃ us, source'.tokens = .ok us ∧ us.map Token.kind = ts.map Token.kind ∧
      SameReading ts us (readSource depth source) (readSource depth source') := by
  obtain ⟨us, hus, hkinds⟩ := Source.tokens_relaid hts hlaid
  exact ⟨us, hus, hkinds, sameReading_of_kinds depth hts hus hkinds⟩

theorem readSource_relaid_unequal :
    let source : Source := ⟨"", "select a<>b"⟩
    let source' : Source := ⟨"", " Select a  != B"⟩
    ∃ ts us, source.tokens = .ok ts ∧ Relaid ts source'.text.toList ∧ source'.tokens = .ok us ∧
      SameReading ts us (readSource 1 source) (readSource 1 source') := by
  intro source source'
  let ts : List Token := [⟨.keyword "SELECT", "select", 0, source⟩, ⟨.name "A", "a", 7, source⟩,
    ⟨.symbol "!=", "<>", 8, source⟩, ⟨.name "B", "b", 10, source⟩]
  have hoption : source.tokens.toOption = some ts := by decide +kernel
  have hts : source.tokens = .ok ts := by
    cases h : source.tokens with
    | error failure =>
      rw [h] at hoption
      cases hoption
    | ok us =>
      rw [h] at hoption
      exact congrArg _ (Option.some.inj hoption)
  have hblanks : ∀ n, Blank (List.replicate n ' ') := fun n c hc => by
    rw [List.eq_of_mem_replicate hc]
    decide
  have hselect : Respelled "select".toList "Select".toList :=
    @Respelled.capitals 's' "elect".toList _ (by decide) (List.all_eq_true.mp (by decide))
      (by decide)
  have hunequal : Respelled "<>".toList "!=".toList := .notEqual
  have hb : Respelled "b".toList "B".toList :=
    @Respelled.capitals 'b' [] _ (by decide) (List.forall_mem_nil _) (by decide)
  have hbody : Respaced ts ("Select".toList ++ (List.replicate 1 ' ' ++ ("a".toList ++
      (List.replicate 2 ' ' ++ ("!=".toList ++ (List.replicate 1 ' ' ++ ("B".toList ++
        (List.replicate 0 ' ' ++ [])))))))) :=
    .cons hselect (hblanks 1) (by simp) <| .cons .same (hblanks 2) (by simp) <|
      .cons hunequal (hblanks 1) (by simp) <| .cons hb (hblanks 0) (by simp) .nil
  have hlaid : Relaid ts source'.text.toList := ⟨[' '], _, hblanks 1, by decide, hbody⟩
  obtain ⟨us, hus, -, hsame⟩ := @readSource_relaid source source' ts 1 hts hlaid
  exact ⟨ts, us, hts, hlaid, hus, hsame⟩

end SqlScript

import SqlScript.Error
import SqlScript.Proofs.Grammar.Exact
import SqlScript.Proofs.Grammar.Nodes
import SqlScript.Proofs.Grammar.Semicolon
import SqlScript.Proofs.Scan.Seam

/-!
# Scripts one after another

A script with another one behind it is both of them, in this order. Between them stands a semicolon
or, if the second one begins like a statement, a blank.
-/

namespace SqlScript

open Grammar Scanner

/-! ## Elsewhere -/

/-- The same statement in another source, `n` bytes further on. -/
def Statement.moved (n : Nat) (source : Source) (s : Statement (Span Token)) :
    Statement (Span Token) :=
  s.map (.map (Token.moved n source))

def SyntaxError.moved (n : Nat) (source : Source) (e : SyntaxError) : SyntaxError :=
  ⟨e.token.moved n source, e.cause⟩

def Error.moved (n : Nat) (source : Source) : Error → Error
  | scan e => scan (e.moved n)
  | read d => read ⟨d.token.moved n source, d.message⟩
  | e => e

/-- What a source comes to when it begins with a script and something else stands `n` bytes behind
its beginning. -/
def followed {ε : Type} (move : ε → ε) (n : Nat) (whole : Source)
    (xs : List (Statement (Span Token))) :
    Except ε (List (Statement (Span Token))) → Except ε (List (Statement (Span Token)))
  | .ok ys => .ok (xs.map (.moved 0 whole) ++ ys.map (.moved n whole))
  | .error e => .error (move e)

theorem marked_moved (n : Nat) (source : Source) (ts : List Token) :
    marked (ts.map (Token.moved n source)) = (marked ts).remark (Token.moved n source) := by
  simp [marked, Input.remark, Token.moved]

@[simp] theorem marked_append (ts us : List Token) :
    marked (ts ++ us) = marked ts ++ marked us := List.map_append

/-! ## Reading -/

section Read

variable {depth n : Nat} {whole : Source} {ts us between : List Token}
  {xs : List (Statement (Span Token))}

/-- Behind a script and what may stand between, reading goes on as it does at the beginning. -/
theorem readTokens_followed (h : (readTokens depth ts).2 = .ok xs)
    (hbetween : ∀ I, script depth (marked between ++ I) = script depth I)
    (hstop : Stops Kind.continuesStatement (marked (between ++ us.map (Token.moved n whole)))) :
    (readTokens depth
        (ts.map (Token.moved 0 whole) ++ (between ++ us.map (Token.moved n whole)))).2 =
      followed (.moved n whole) n whole xs (readTokens depth us).2 := by
  have hmoved : (script depth (marked (ts.map (Token.moved 0 whole)))).result =
      .ok (xs.map (.moved 0 whole)) := by
    rw [marked_moved, script_remark, Reading.map_ok]
    exact ⟨xs, readTokens_ok_iff.mp h, rfl⟩
  obtain ⟨hphrase, hneed⟩ := script_ok_iff.mp hmoved
  obtain ⟨dropped, hread⟩ := script_append hphrase hneed
  have hall := hread _ hstop
  rw [← marked_append, marked_append between, hbetween, marked_moved n, script_remark] at hall
  cases hus : (script depth (marked us)).result with
  | ok ys =>
    rw [readTokens_ok_iff.mpr hus, followed, readTokens_ok_iff, hall, Reading.behind_ok]
    exact ⟨_, (Reading.map_ok _).mpr ⟨ys, hus, rfl⟩, rfl⟩
  | error failure =>
    obtain ⟨last, hlast, hfail⟩ := readTokens_error hus
    have hresult : (((script depth (marked us)).map (Token.moved n whole)).behind dropped
        (xs.map (.moved 0 whole))).result = .error (failure.map (Token.moved n whole)) := by
      rw [Reading.behind, Reading.map, hus]
      rfl
    rw [← hall] at hresult
    obtain ⟨last', hlast', hfail'⟩ := readTokens_error hresult
    -- past the end a failure points at the last token, which is one of the second script's
    have hend : last' = last.moved n whole := by
      simpa [List.getLast?_append, hlast, eq_comm] using hlast'
    rw [hfail, hfail', followed, SyntaxError.moved, hend, Failure.map, Option.getD_map]

/-- What is a script elsewhere is one here. -/
theorem readTokens_of_moved {ss : List (Statement (Span Token))}
    (h : ScriptPhrase (marked (ts.map (Token.moved n whole))) ss)
    (hneed : Statement.needAll ss ≤ depth) : ∃ xs, (readTokens depth ts).2 = .ok xs := by
  have hread := script_ok_iff.mpr ⟨h, hneed⟩
  rw [marked_moved, script_remark, Reading.map_ok] at hread
  obtain ⟨xs, hxs, -⟩ := hread
  exact ⟨xs, readTokens_ok_iff.mpr hxs⟩

end Read

/-! ## Sources -/

section Source

variable {depth : Nat} {source : Source} {ts : List Token}

theorem readSource_of_tokens (h : source.tokens = .ok ts) :
    readSource depth source = (readTokens depth ts).2.mapError fun e => .read e.diagnostic := by
  simp only [readSource, scanSource, h]
  rfl

theorem readSource_of_scanError {e : ScanError} (h : source.tokens = .error e) :
    readSource depth source = .error (.scan e) := by
  simp only [readSource, scanSource, h]
  rfl

theorem readSource_ok_iff {ss : List (Statement (Span Token))} :
    readSource depth source = .ok ss ↔
      ∃ ts, source.tokens = .ok ts ∧ (readTokens depth ts).2 = .ok ss := by
  cases hts : source.tokens with
  | error e =>
    rw [readSource_of_scanError hts]
    exact ⟨nofun, fun ⟨_, h, _⟩ => nomatch h⟩
  | ok ts =>
    rw [readSource_of_tokens hts]
    cases hread : (readTokens depth ts).2 with
    | error e =>
      refine ⟨nofun, ?_⟩
      rintro ⟨_, h, hok⟩
      cases h
      rw [hread] at hok
      cases hok
    | ok found =>
      constructor
      · intro h
        cases h
        exact ⟨ts, rfl, hread⟩
      · rintro ⟨_, h, hok⟩
        cases h
        rw [hread] at hok
        cases hok
        rfl

/-- Where reading fails, either the text has no tokens or its tokens are no script. -/
theorem readSource_error_cases {e : Error} (h : readSource depth source = .error e) :
    (∃ failure, source.tokens = .error failure ∧ e = .scan failure) ∨
      ∃ ts failure, source.tokens = .ok ts ∧ (readTokens depth ts).2 = .error failure ∧
        e = .read failure.diagnostic := by
  cases hts : source.tokens with
  | error failure =>
    rw [readSource_of_scanError hts] at h
    cases h
    exact .inl ⟨failure, rfl, rfl⟩
  | ok ts =>
    rw [readSource_of_tokens hts] at h
    cases hread : (readTokens depth ts).2 with
    | ok ss =>
      rw [hread] at h
      cases h
    | error failure =>
      rw [hread] at h
      cases h
      exact .inr ⟨ts, failure, rfl, hread, rfl⟩

theorem readSource_of_phrase {ss : List (Statement (Span Token))}
    (hts : source.tokens.toOption = some ts) (h : ScriptPhrase (marked ts) ss)
    (hneed : Statement.needAll ss ≤ depth) : readSource depth source = .ok ss := by
  have hread := readTokens_ok_iff.mpr (script_ok_iff.mpr ⟨h, hneed⟩)
  exact readSource_ok_iff.mpr ⟨ts, Source.tokens_of_toOption hts, hread⟩

/-- Every node of a script is a phrase, in the tokens of the source. -/
theorem readSource_within {ss : List (Statement (Span Token))}
    (h : readSource depth source = .ok ss) :
    ∃ ts, source.tokens = .ok ts ∧
      ∀ s ∈ ss, ∀ n, (Node.statement s).Within n → ∃ K, K <:+: marked ts ∧ NodePhrase K n := by
  obtain ⟨ts, hts, hss⟩ := readSource_ok_iff.mp h
  have hphrase := (script_ok_iff.mp (readTokens_ok_iff.mp hss)).1
  exact ⟨ts, hts, fun _ hs _ hn => hphrase.within hs hn⟩

variable {before after whole : Source} {between : List Token} {n : Nat}
  {xs : List (Statement (Span Token))}

theorem readSource_followed (hxs : (readTokens depth ts).2 = .ok xs)
    (hwhole : whole.tokens = (relocate n whole after.tokens).map fun us =>
      ts.map (Token.moved 0 whole) ++ (between ++ us))
    (hbetween : ∀ I, script depth (marked between ++ I) = script depth I)
    (hstop : ∀ us, after.tokens = .ok us →
      Stops Kind.continuesStatement (marked (between ++ us.map (Token.moved n whole)))) :
    readSource depth whole = followed (.moved n whole) n whole xs (readSource depth after) := by
  cases hafter : after.tokens with
  | error e =>
    rw [hafter] at hwhole
    rw [readSource_of_scanError hafter, readSource_of_scanError hwhole]
    rfl
  | ok us =>
    rw [hafter] at hwhole
    rw [readSource_of_tokens hafter, readSource_of_tokens hwhole]
    rw [readTokens_followed hxs hbetween (hstop us hafter)]
    cases (readTokens depth us).2 <;> rfl

theorem readSource_semicolon (h : readSource depth before = .ok xs)
    (htext : whole.text = before.text ++ ";" ++ after.text) :
    readSource depth whole = followed (.moved (byteLength before.text.toList + 1) whole)
      (byteLength before.text.toList + 1) whole xs (readSource depth after) := by
  obtain ⟨ts, hts, hxs⟩ := readSource_ok_iff.mp h
  have hbetween : ∀ I, script depth
      (marked [⟨.symbol ";", ";", byteLength before.text.toList, whole⟩] ++ I) = script depth I :=
    fun I => script_semicolon
  refine readSource_followed hxs (Source.tokens_semicolon hts htext) hbetween fun us _ => ?_
  have hsemicolon : (Kind.symbol ";").continuesStatement = false := by decide
  exact stops_cons.mpr hsemicolon

theorem readSource_blanks {w : String} (h : readSource depth before = .ok xs)
    (htext : whole.text = before.text ++ w ++ after.text) (hne : w ≠ "") (hw : Blank w.toList)
    (hafter : ∃ first more, after.tokens = .ok (first :: more) ∧
      first.kind ∈ [.keyword "USE", .keyword "SELECT", .keyword "INSERT", .keyword "DELETE"]) :
    readSource depth whole = followed (.moved (byteLength (before.text ++ w).toList) whole)
      (byteLength (before.text ++ w).toList) whole xs (readSource depth after) := by
  obtain ⟨ts, hts, hxs⟩ := readSource_ok_iff.mp h
  obtain ⟨first, more, htokens, hfirst⟩ := hafter
  have hbetween : ∀ I, script depth (marked [] ++ I) = script depth I := fun I => rfl
  refine readSource_followed hxs (Source.tokens_blanks hts hw hne htext) hbetween fun us hus => ?_
  cases htokens.symm.trans hus
  refine stops_cons.mpr ?_
  simp only [List.mem_cons, List.not_mem_nil, or_false] at hfirst
  rcases hfirst with hfirst | hfirst | hfirst | hfirst <;>
  · rw [Token.moved, hfirst]
    decide

theorem readSource_parts {zs : List (Statement (Span Token))} (hts : before.tokens = .ok ts)
    (htext : whole.text = before.text ++ ";" ++ after.text) (h : readSource depth whole = .ok zs) :
    ∃ xs ys, readSource depth before = .ok xs ∧ readSource depth after = .ok ys := by
  obtain ⟨all, hall, hzs⟩ := readSource_ok_iff.mp h
  have hwhole := Source.tokens_semicolon hts htext
  rw [hall] at hwhole
  cases hafter : after.tokens with
  | error e =>
    rw [hafter] at hwhole
    cases hwhole
  | ok us =>
    rw [hafter] at hwhole
    cases hwhole
    obtain ⟨hphrase, hneed⟩ := script_ok_iff.mp (readTokens_ok_iff.mp hzs)
    rw [marked_append] at hphrase
    obtain ⟨xs, ys, rfl, hxs, hys⟩ := hphrase.cut
    rw [Statement.needAll_le, List.forall_mem_append, ← Statement.needAll_le,
      ← Statement.needAll_le] at hneed
    obtain ⟨xs, hxs⟩ := readTokens_of_moved hxs hneed.1
    obtain ⟨ys, hys⟩ := readTokens_of_moved hys hneed.2
    exact ⟨xs, ys, readSource_ok_iff.mpr ⟨ts, hts, hxs⟩, readSource_ok_iff.mpr ⟨us, hafter, hys⟩⟩

end Source

/-- A script and whatever stands behind a semicolon, or behind a blank and begins like a statement,
come to the script and then to what the other source comes to. And if two sources that have tokens
are a script with a semicolon between them, each of them is one. -/
theorem readSource_compose (depth : Nat) (before after whole : Source) :
    (∀ xs, readSource depth before = .ok xs →
      whole.text = before.text ++ ";" ++ after.text →
      readSource depth whole = followed (.moved (byteLength before.text.toList + 1) whole)
        (byteLength before.text.toList + 1) whole xs (readSource depth after)) ∧
    (∀ xs w, readSource depth before = .ok xs →
      whole.text = before.text ++ w ++ after.text → w ≠ "" → Blank w.toList →
      (∃ first more, after.tokens = .ok (first :: more) ∧
        first.kind ∈ [.keyword "USE", .keyword "SELECT", .keyword "INSERT", .keyword "DELETE"]) →
      readSource depth whole = followed (.moved (byteLength (before.text ++ w).toList) whole)
        (byteLength (before.text ++ w).toList) whole xs (readSource depth after)) ∧
    (∀ ts zs, before.tokens = .ok ts → whole.text = before.text ++ ";" ++ after.text →
      readSource depth whole = .ok zs →
      ∃ xs ys, readSource depth before = .ok xs ∧ readSource depth after = .ok ys) :=
  ⟨fun _ => readSource_semicolon, fun _ _ => readSource_blanks, fun _ _ => readSource_parts⟩

/-- The two scripts are had from the whole, and the whole from them, by both seams. -/
theorem readSource_compose_uses :
    let first : Source := ⟨"", "use a"⟩
    let second : Source := ⟨"", "use b"⟩
    let joined : Source := ⟨"", "use a;use b"⟩
    let spaced : Source := ⟨"", "use a  use b"⟩
    ∃ xs ys, readSource 0 first = .ok xs ∧ readSource 0 second = .ok ys ∧
      readSource 0 joined = .ok (xs.map (.moved 0 joined) ++ ys.map (.moved 6 joined)) ∧
      readSource 0 spaced = .ok (xs.map (.moved 0 spaced) ++ ys.map (.moved 7 spaced)) := by
  intro first second joined spaced
  have hfirst : first.tokens =
      .ok [⟨.keyword "USE", "use", 0, first⟩, ⟨.name "A", "a", 4, first⟩] :=
    Source.tokens_of_toOption (by decide +kernel)
  have hsecond : second.tokens =
      .ok [⟨.keyword "USE", "use", 0, second⟩, ⟨.name "B", "b", 4, second⟩] :=
    Source.tokens_of_toOption (by decide +kernel)
  have hjoined : (readSource 0 joined).toOption.isSome = true := by decide +kernel
  have hsemicolon : byteLength first.text.toList + 1 = 6 := by decide +kernel
  have hblanks : byteLength (first.text ++ "  ").toList = 7 := by decide +kernel
  cases hzs : readSource 0 joined with
  | error e => rw [hzs] at hjoined; cases hjoined
  | ok zs =>
    obtain ⟨xs, ys, hxs, hys⟩ := (readSource_compose 0 first second joined).2.2 _ zs hfirst rfl hzs
    refine ⟨xs, ys, hxs, hys, ?_, ?_⟩
    · rw [← hzs, (readSource_compose 0 first second joined).1 xs hxs rfl, hys, hsemicolon]
      rfl
    · rw [(readSource_compose 0 first second spaced).2.1 xs "  " hxs rfl (by decide)
        (List.all_eq_true.mp rfl) ⟨_, _, hsecond, List.mem_cons_self⟩, hys, hblanks]
      rfl

end SqlScript

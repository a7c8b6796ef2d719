import SqlScript.Proofs.Scan.Seam

/-!
# Scanning is local

Behind a text that has tokens and a blank, scanning starts anew: what follows gives the tokens, or
the failure, that it gives alone, only further on. The text of a token gives that token alone
(`tokens_local`).
-/

namespace SqlScript

open Scanner Piece

/-- What is a lexeme before some text is the only lexeme of a source that ends with it. -/
theorem Spelled.tokens_alone {raw rest : List Char} {kind : Kind} (h : Spelled raw kind rest)
    {source : Source} (htext : source.text.toList = raw) :
    source.tokens = .ok [⟨kind, source.text, 0, source⟩] := by
  have hend : Spelled raw kind [] := h.before (.inr (by simp [Seam]))
  have hblank : Blank [] := by simp [Blank]
  have hcut : Cut source.text.toList [⟨[], raw, kind⟩] [] [] :=
    ⟨by simp [Piece.text, htext], .cons hblank hend .nil, hblank⟩
  rw [Source.tokens_of_split hcut, Piece.tokens, Piece.tokens, ← htext, String.ofList_toList]
  rfl

namespace Source

/-- Before blanks a source keeps its tokens. Behind them stand the tokens of the text there, moved
by the bytes before it, or everything fails as that text does. -/
theorem tokens_local {source : Source} {ts : List Token} (h : source.tokens = .ok ts) :
    (∀ (w : String) (after whole : Source), w ≠ "" → Blank w.toList →
      whole.text = source.text ++ w ++ after.text →
        (∀ us, after.tokens = .ok us → whole.tokens =
          .ok (ts.map (fun t => { t with source := whole }) ++
            us.map (.moved (byteLength (source.text ++ w).toList) whole))) ∧
        ∀ e, after.tokens = .error e →
          whole.tokens = .error (e.moved (byteLength (source.text ++ w).toList))) ∧
    ∀ t ∈ ts, ∀ alone : Source, alone.text = t.raw →
      alone.tokens = .ok [⟨t.kind, t.raw, 0, alone⟩] := by
  refine ⟨fun w after whole hne hw htext => ?_, fun t ht alone halone => ?_⟩
  · have hwhole := tokens_blanks h hw hne htext
    refine ⟨fun us hus => ?_, fun e he => ?_⟩
    · rw [hwhole, hus]
      rfl
    · rw [hwhole, he]
      rfl
  · obtain ⟨-, before, behind, -, -, hspelled⟩ := token_spelled h ht
    rw [hspelled.tokens_alone (congrArg String.toList halone), halone]

/-- A blank keeps `<` and `=` apart. -/
theorem tokens_local_less :
    let before : Source := ⟨"", "a<"⟩
    let after : Source := ⟨"", "=b"⟩
    let whole : Source := ⟨"", "a< =b"⟩
    let alone : Source := ⟨"", "<"⟩
    before.tokens = .ok [⟨.name "A", "a", 0, before⟩, ⟨.symbol "<", "<", 1, before⟩] ∧
      Blank " ".toList ∧ whole.text = before.text ++ " " ++ after.text ∧
      after.tokens = .ok [⟨.symbol "=", "=", 0, after⟩, ⟨.name "B", "b", 1, after⟩] ∧
      whole.tokens = .ok [⟨.name "A", "a", 0, whole⟩, ⟨.symbol "<", "<", 1, whole⟩,
        ⟨.symbol "=", "=", 3, whole⟩, ⟨.name "B", "b", 4, whole⟩] ∧
      alone.tokens = .ok [⟨.symbol "<", "<", 0, alone⟩] := by
  intro before after whole alone
  have hbefore : before.tokens =
      .ok [⟨.name "A", "a", 0, before⟩, ⟨.symbol "<", "<", 1, before⟩] :=
    tokens_of_toOption (by decide +kernel)
  have hafter : after.tokens =
      .ok [⟨.symbol "=", "=", 0, after⟩, ⟨.name "B", "b", 1, after⟩] :=
    tokens_of_toOption (by decide +kernel)
  have hblank : Blank " ".toList := by simp [Blank, isBlank]
  have htext : whole.text = before.text ++ " " ++ after.text := by decide +kernel
  have hshift : byteLength (before.text ++ " ").toList = 3 := by decide +kernel
  obtain ⟨hwhole, halone⟩ := tokens_local hbefore
  have hboth := (hwhole " " after whole (by decide) hblank htext).1 _ hafter
  rw [hshift] at hboth
  refine ⟨hbefore, hblank, htext, hafter, hboth, ?_⟩
  exact halone ⟨.symbol "<", "<", 1, before⟩ (by simp) alone rfl

end Source

end SqlScript

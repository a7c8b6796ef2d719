import SqlScript.Proofs.Grammar.Vocabulary

/-!
# Semicolons stand between statements only

No statement has a semicolon in it, so a script with one is a script before it and a script behind
it.
-/

namespace SqlScript.Grammar

variable {σ : Type}

theorem OptionalPhrase.lacks {α : Type} {phrase : Input σ → α → Prop} {kind : Kind} {I : Input σ}
    {found} (h : OptionalPhrase phrase I found) (hphrase : ∀ {J x}, phrase J x → Lacks kind J) :
    Lacks kind I := by
  cases h with
  | absent => exact lacks_nil
  | present h => exact hphrase h

theorem ClausesPhrase.lacks_semicolon {I : Input σ} {c} (h : ClausesPhrase I c) :
    Lacks (.symbol ";") I := by
  cases h with
  | intro from? where? order? =>
    refine lacks_append.mpr ⟨from?.lacks fun h => ?_,
      lacks_append.mpr ⟨where?.lacks fun h => ?_, order?.lacks fun h => ?_⟩⟩
    · cases h with
      | intro list _ => simpa using list.lacks (by decide) fun h => h.lacks (by decide)
    · cases h with
      | intro expression _ => simpa using expression.lacks (by decide)
    · cases h with
      | intro list _ => simpa using list.lacks (by decide) fun h => h.lacks (by decide)

theorem StatementPhrase.lacks_semicolon {I : Input σ} {s} (h : StatementPhrase I s) :
    Lacks (.symbol ";") I := by
  cases h with
  | use => simp
  | bareSelect => simp
  | select expressions clauses _ _ _ | selectList expressions clauses _ _ =>
    simpa using ⟨arguments_lack expressions (by decide), clauses.lacks_semicolon⟩
  | insert into columnList valueList =>
    simpa using ⟨into.lacks (by decide), columnList.lacks (by decide) fun h => h.lacks (by decide),
      arguments_lack valueList (by decide)⟩
  | delete clauses _ _ _ => simpa using clauses.lacks_semicolon

/-- A script is cut in two at any of its semicolons. -/
theorem ScriptPhrase.cut {I J : Input σ} {m : σ} {ss}
    (h : ScriptPhrase (I ++ (.symbol ";", m) :: J) ss) :
    ∃ before behind, ss = before ++ behind ∧ ScriptPhrase I before ∧ ScriptPhrase J behind := by
  generalize hK : I ++ (.symbol ";", m) :: J = K at h
  induction h generalizing I with
  | nil => simp at hK
  | @semicolon m' K ss more ih =>
    cases I with
    | nil =>
      cases hK
      exact ⟨[], ss, rfl, .nil, more⟩
    | cons t I =>
      cases hK
      obtain ⟨before, behind, hss, hbefore, hbehind⟩ := ih rfl
      exact ⟨before, behind, hss, .semicolon hbefore, hbehind⟩
  | @cons K L s ss first more ih =>
    rcases List.append_eq_append_iff.mp hK with ⟨M, hused, hM⟩ | ⟨M, hI, hL⟩
    · cases M with
      | nil =>
        obtain ⟨before, behind, rfl, hbefore, hbehind⟩ := @ih [] hM
        refine ⟨s :: before, behind, rfl, ?_, hbehind⟩
        rw [List.append_nil] at hused
        rw [← hused, ← List.append_nil K]
        exact .cons first hbefore
      | cons t M =>
        -- the semicolon would be one of the statement's own tokens
        have hfirst := first.lacks_semicolon
        rw [hused, lacks_append, ← (List.cons.inj hM).1, lacks_cons] at hfirst
        exact (hfirst.2.1 rfl).elim
    · obtain ⟨before, behind, rfl, hbefore, hbehind⟩ := ih hL.symm
      refine ⟨s :: before, behind, rfl, ?_, hbehind⟩
      rw [hI]
      exact .cons first hbefore

end SqlScript.Grammar

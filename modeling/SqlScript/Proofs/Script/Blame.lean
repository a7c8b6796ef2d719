import SqlScript.Proofs.Grammar.Numbered
import SqlScript.Proofs.Grammar.Orders
import SqlScript.Proofs.Grammar.Unfinished

/-!
# Errors point at the first token that cannot go on

Tokens that are no script fail where they cannot be completed to one any more (`readTokens_blames`).
Left out are operands that lie too deep, and an ORDER BY directly behind DELETE: it is read to its
end before it turns out to belong to nothing.
-/

namespace SqlScript

variable {σ : Type}

namespace Grammar

/-! ## Scripts -/

def Accepted (d : Nat) (I : Input σ) (ss : List (Statement (Span σ))) : Prop :=
  (script d I).result = .ok ss

/-- DELETE with an ORDER BY directly behind it. -/
def strayOrder : List Kind := [.keyword "DELETE", .keyword "ORDER", .keyword "BY"]

/-- What was read before a failure is the start of a script, and reading fails there whatever
follows the next token. -/
structure ScriptBreak (d : Nat) (f : Failure σ) (used rest : Input σ) : Prop where
  starts : Viable (Accepted d) used
  points : used = [] ∧ f.mark = rest.head?.map Prod.snd ∨ f.Points used rest
  fails : ∀ {J ss}, SameNext rest J → ¬ Accepted d (used ++ J) ss

variable {d : Nat} {kind : Kind} {m : σ} {I rest : Input σ} {draft : Draft σ} {f : Failure σ}

theorem StatementWithin.accepted {s} (h : StatementWithin d I s) : Accepted d I [s] := by
  refine script_ok_iff.mpr ⟨?_, by simpa [Statement.needAll] using h.2⟩
  simpa using ScriptPhrase.cons h.1 .nil

theorem script_absent (hkind : kind ≠ .symbol ";")
    (h : (statement d).read ((kind, m) :: I) = .absent) :
    (script d ((kind, m) :: I)).result = .error ⟨.statement, some m⟩ := by
  rw [script_cons, if_neg hkind, h]

theorem script_malformed (hkind : kind ≠ .symbol ";")
    (h : (statement d).read ((kind, m) :: I) = .malformed f) :
    (script d ((kind, m) :: I)).result = .error f := by
  rw [script_cons, if_neg hkind, h]

/-- A script that does not begin with a semicolon begins with a statement. -/
theorem Accepted.begins {ss} (h : Accepted d ((kind, m) :: I) ss) (hkind : kind ≠ .symbol ";") :
    ∃ draft rest s, (statement d).read ((kind, m) :: I) = .matched draft rest ∧
      draft.statement = .ok s := by
  rw [Accepted, script_cons, if_neg hkind] at h
  split at h
  · cases h
  · cases h
  · next draft rest hread =>
    cases hs : draft.statement with
    | error failure => simp [hs] at h
    | ok s => exact ⟨draft, rest, s, hread, hs⟩

theorem accepted_of_statement {s ss} (hread : (statement d).read I = .matched draft rest)
    (hs : draft.statement = .ok s) :
    Accepted d I ss ↔ ∃ more, Accepted d rest more ∧ ss = s :: more := by
  rw [Accepted, script_of_statement hread hs, Reading.behind_ok]
  rfl

/-! ### DELETE without FROM and WHERE -/

/-- Clauses without FROM and WHERE are where neither begins. -/
theorem clauses_not_selective_iff {c} (hread : (clauses d).read I = .ok (c, rest)) :
    ¬ Selective c ↔ fromClause.read I = .absent ∧ (whereClause d).read I = .absent := by
  simp only [clauses, Step.bind_ok, Step.pure_ok] at hread
  obtain ⟨tables, _, hfrom, filter, _, hwhere, order, _, -, rfl, rfl⟩ := hread
  rcases Rule.optional_ok.mp hfrom with ⟨rfl, rfl, habsent⟩ | ⟨_, rfl, hfound⟩
  · rcases Rule.optional_ok.mp hwhere with ⟨rfl, rfl, habsent'⟩ | ⟨_, rfl, hfound⟩
    · simp [Selective, habsent, habsent']
    · simp [Selective, hfound]
  · simp [Selective, hfound]

theorem deleteStatement_clauses (hread : (deleteStatement d).read I = .matched draft rest) :
    ∃ m J c, I = (.keyword "DELETE", m) :: J ∧ (clauses d).read J = .ok (c, rest) ∧
      (Selective c → ∃ s, draft.statement = .ok s) ∧
      (¬ Selective c → draft.statement = .error ⟨.deleteTable, J.head?.map Prod.snd⟩) := by
  simp only [deleteStatement, Rule.andThen_matched, Rule.keyword_matched, Step.bind_ok,
    Step.peek_ok, Step.pure_ok] at hread
  obtain ⟨key, J, ⟨m, rfl, -⟩, _, _, ⟨rfl, rfl⟩, c, _, hclauses, rfl, rfl⟩ := hread
  refine ⟨m, J, c, rfl, hclauses, fun hsel => ?_, fun hsel => ?_⟩
  · obtain ⟨_, -, hc, -⟩ := clauses_sound hclauses
    obtain ⟨inner, -, hkept⟩ := hc.kept?_of_selective hsel
    exact ⟨.delete (key.span.through inner) ⟨inner, c⟩, by simp only [hkept]⟩
  · simp only [kept?_of_not_selective hsel]

theorem script_breaks_delete (hread : (statement d).read I = .matched draft rest)
    (hs : draft.statement = .error f) :
    ∃ used rest, I = used ++ rest ∧ ScriptBreak d f used rest := by
  obtain ⟨m, J, c, rfl, hclauses, hok, herror⟩ :=
    deleteStatement_clauses (deleteStatement_of_error hread hs)
  have hsel : ¬ Selective c := fun hsel => by
    obtain ⟨s, hs'⟩ := hok hsel
    cases hs.symm.trans hs'
  obtain ⟨hfrom, hwhere⟩ := (clauses_not_selective_iff hclauses).mp hsel
  refine ⟨[(.keyword "DELETE", m)], J, rfl, ?_, .inr ?_, fun {K ss} hK haccepted => ?_⟩
  · have hphrase : FromPhrase [(.keyword "FROM", m), (.name "", m)]
        ⟨⟨m, m⟩, [⟨.single m, ⟨none, ""⟩⟩]⟩ := .intro (.single .plain) ⟨rfl, rfl⟩
    obtain ⟨s, hs⟩ := delete_within (d := d) m
      ⟨.intro (.present hphrase) .absent .absent, .inl rfl, Nat.zero_le d⟩
    exact (Viable.of_phrase hs.accepted).of_isPrefix (by simp)
  · cases hs.symm.trans (herror hsel)
    exact .of_solid (.token [] (by simp) (by simp)) rfl
  · -- neither FROM nor WHERE stands behind DELETE, whatever follows the token there
    have haccepted : Accepted d ((.keyword "DELETE", m) :: K) ss := haccepted
    obtain ⟨draft', rest', s', hread', hs'⟩ := haccepted.begins (by simp)
    rw [statement_of_delete rfl] at hread'
    obtain ⟨_, _, c', heq, hclauses', -, herror'⟩ := deleteStatement_clauses hread'
    cases heq
    have hsel' := (clauses_not_selective_iff hclauses').mpr
      ⟨predictive_fromClause.absent hK hfrom, (predictive_whereClause d).absent hK hwhere⟩
    cases hs'.symm.trans (herror' hsel')

/-! ### Whole scripts -/

theorem orderClause_absent_behind :
    orderClause.read ((.keyword "ORDER", m) :: I) = .absent ↔
      I.head?.map Prod.fst ≠ some (.keyword "BY") := by
  have hby : (Rule.keyword "BY" : Rule σ _).read I = .absent ↔
      I.head?.map Prod.fst ≠ some (.keyword "BY") := by
    cases I <;> simp
  rw [← hby, orderClause, Rule.andThen_absent, Rule.both_absent]
  constructor
  · rintro (habsent | ⟨_, _, hmatched, habsent⟩)
    · exact (Rule.keyword_absent.mp habsent _ rfl rfl).elim
    · obtain ⟨_, heq, -⟩ := Rule.keyword_matched.mp hmatched
      cases heq
      exact habsent
  · exact fun habsent =>
      .inr ⟨⟨.single m, ()⟩, I, Rule.keyword_matched.mpr ⟨m, rfl, rfl⟩, habsent⟩

theorem statement_absent_at_order : (statement d).read ((.keyword "ORDER", m) :: I) = .absent := by
  simp [statement, useStatement, selectStatement, insertStatement, deleteStatement]

/-- Behind a statement that could have had an ORDER BY, an ORDER without BY is to blame. -/
theorem script_breaks_order {s} {used : Input σ} {unordered : Prop}
    (hend : StatementEnd d used draft ((.keyword "ORDER", m) :: I) unordered) (hu : unordered)
    (hs : draft.statement = .ok s) :
    ScriptBreak d ⟨.statement, some m⟩ (used ++ [(.keyword "ORDER", m)]) I := by
  have hnext := orderClause_absent_behind.mp (hend.absent hu)
  refine ⟨?_, .inr ?_, fun {J ss} hJ haccepted => ?_⟩
  · exact (hend.continued hu m).mono fun h => .of_phrase h.accepted
  · exact ⟨(.keyword "ORDER", m), by simp, .inl ⟨.inr ⟨rfl, hnext⟩, rfl⟩⟩
  · have hJ' : orderClause.read ((.keyword "ORDER", m) :: J) = .absent := by
      rw [orderClause_absent_behind, hJ]
      exact hnext
    have hread : (statement d).read (used ++ (.keyword "ORDER", m) :: J) =
        .matched draft ((.keyword "ORDER", m) :: J) := hend.taken rfl fun _ => hJ'
    rw [List.append_assoc, List.singleton_append, accepted_of_statement hread hs] at haccepted
    obtain ⟨more, hmore, -⟩ := haccepted
    obtain ⟨_, _, _, hmatched, -⟩ := hmore.begins (by simp)
    cases hmatched.symm.trans statement_absent_at_order

/-- A failure behind a statement is one of all that begins like what stands there. -/
theorem ScriptBreak.behind {s} {used used' : Input σ} (h : ScriptBreak d f used' rest)
    (hphrase : StatementWithin d used s)
    (hread : ∀ {J}, SameNext (used' ++ rest) J → (statement d).read (used ++ J) = .matched draft J)
    (hs : draft.statement = .ok s) : ScriptBreak d f (used ++ used') rest := by
  refine ⟨?_, .inr ?_, fun {J ss} hJ haccepted => ?_⟩
  · cases used' with
    | nil => simpa using Viable.of_phrase hphrase.accepted
    | cons first used' =>
      obtain ⟨more, ss, hmore⟩ := h.starts
      have hstatement : (statement d).read (used ++ (first :: used' ++ more)) =
          .matched draft (first :: used' ++ more) := hread rfl
      refine ⟨more, s :: ss, ?_⟩
      rw [List.append_assoc]
      exact (accepted_of_statement hstatement hs).mpr ⟨ss, hmore, rfl⟩
  · rcases h.points with ⟨rfl, hmark⟩ | hpoints
    · rw [List.append_nil]
      exact .of_solid hphrase.1.solid hmark
    · exact hpoints.behind used
  · rw [List.append_assoc, accepted_of_statement (hread (hJ.append used')) hs] at haccepted
    obtain ⟨more, hmore, -⟩ := haccepted
    exact h.fails hJ hmore

/-- Every failure but for depth comes where a script breaks off. -/
theorem script_breaks (hd : 1 ≤ d) (h : (script d I).result = .error f)
    (hcause : f.cause ≠ .tooDeep) (hstray : ¬ strayOrder <:+: I.map Prod.fst) :
    ∃ used rest, I = used ++ rest ∧ ScriptBreak d f used rest := by
  fun_induction script d I with
  | case1 => cases h
  | case2 m I ih =>
    have hmore : ¬ strayOrder <:+: I.map Prod.fst := fun hmore =>
      hstray (hmore.trans (List.suffix_cons _ _).isInfix)
    obtain ⟨used, rest, rfl, hbreak⟩ := ih h hmore
    refine ⟨(.symbol ";", m) :: used, rest, rfl, ?_, .inr ?_, fun {J ss} hJ haccepted => ?_⟩
    · obtain ⟨more, ss, haccepted⟩ := hbreak.starts
      exact ⟨more, ss, by rwa [Accepted, List.cons_append, script_semicolon]⟩
    · rcases hbreak.points with ⟨rfl, hmark⟩ | hpoints
      · exact .of_solid (.token [] (by simp) (by simp)) hmark
      · exact hpoints.behind [_]
    · rw [Accepted, List.cons_append, script_semicolon] at haccepted
      exact hbreak.fails hJ haccepted
  | case3 kind m I hkind hread =>
    cases h
    refine ⟨[], _, rfl, ⟨[], [], script_ok_iff.mpr ⟨.nil, Nat.zero_le d⟩⟩, .inl ⟨rfl, rfl⟩,
      fun {J ss} hJ haccepted => ?_⟩
    obtain ⟨J, rfl⟩ := List.head?_eq_some_iff.mp hJ
    obtain ⟨_, _, _, hmatched, -⟩ := Accepted.begins haccepted hkind
    cases hmatched.symm.trans (statement_absent hJ hread)
  | case4 kind m I hkind failure hread =>
    cases h
    obtain ⟨used, rest, heq, hstarts, hpoints, hfails⟩ := (blames_statement hd).breaks hread hcause
    obtain ⟨first, used, rfl⟩ := List.exists_cons_of_ne_nil hpoints.ne_nil
    cases heq
    refine ⟨_ :: used, rest, rfl, ?_, .inr hpoints, fun {J ss} hJ haccepted => ?_⟩
    · rcases hstarts with hstarts | ⟨m₁, m₂, m₃, more, heq⟩
      · exact hstarts.mono fun h => .of_phrase h.accepted
      · cases heq
        exact (hstray ⟨[], _, rfl⟩).elim
    · obtain ⟨_, _, _, hmatched, -⟩ := Accepted.begins haccepted hkind
      cases hmatched.symm.trans (hfails hJ)
  | case5 kind m I hkind draft rest hread failure hs =>
    cases h
    exact script_breaks_delete hread hs
  | case6 kind m I hkind draft rest hread s hs ih =>
    have hfailure : (script d rest).result = .error f := by
      cases hresult : (script d rest).result with
      | ok ss => simp [Reading.prepend, hresult, Except.map] at h
      | error failure => simpa [Reading.prepend, hresult, Except.map] using h
    obtain ⟨used, unordered, heq, hend⟩ := statement_ends hread hs
    obtain ⟨used', heq', hphrase⟩ := statement_sound hread hs
    obtain rfl := List.append_cancel_right (heq.symm.trans heq')
    rw [heq] at hstray ⊢
    by_cases hopen : unordered ∧ ∃ m' more, rest = (.keyword "ORDER", m') :: more
    · obtain ⟨hu, m', more, rfl⟩ := hopen
      rw [script_absent (by simp) statement_absent_at_order] at hfailure
      cases hfailure
      exact ⟨used ++ [(.keyword "ORDER", m')], more, by simp, script_breaks_order hend hu hs⟩
    · have hmore : ¬ strayOrder <:+: rest.map Prod.fst := fun hmore =>
        hstray (hmore.trans (by simpa using (List.suffix_append _ _).isInfix))
      obtain ⟨used', rest, rfl, hbreak⟩ := ih hfailure hmore
      refine ⟨used ++ used', rest, by simp, hbreak.behind hphrase (fun {J} hJ => ?_) hs⟩
      -- no ORDER stands there, or none could go on from the statement
      refine hend.taken hJ fun hu => orderClause_absent fun first hfirst => ?_
      rw [hJ] at hfirst
      obtain ⟨more, heq⟩ := List.head?_eq_some_iff.mp hfirst
      refine decide_eq_false fun hkind => hopen ⟨hu, first.2, more, ?_⟩
      rw [heq, ← hkind]

/-- Just what was read before the failure can be continued to a script. -/
theorem ScriptBreak.longest {used : Input σ} (h : ScriptBreak d f used rest) {k : Nat}
    (hk : k ≤ (used ++ rest).length) :
    Viable (Accepted d) ((used ++ rest).take k) ↔ k ≤ used.length := by
  constructor
  · intro hviable
    by_contra hlt
    cases rest with
    | nil => simp at hk hlt; omega
    | cons first rest =>
      have hprefix : used ++ [first] <+: (used ++ first :: rest).take k := by
        rw [List.prefix_take_iff]
        simp
        omega
      obtain ⟨more, ss, haccepted⟩ := hviable.of_isPrefix hprefix
      rw [List.append_assoc] at haccepted
      exact h.fails (J := first :: more) rfl haccepted
  · intro hle
    rw [List.take_append_of_le_length hle]
    exact h.starts.of_isPrefix ⟨_, List.take_append_drop k used⟩

/-- Among the first `v` the last one is NOT, and no operand follows, or ORDER, and BY does not. -/
def DanglesBefore (ks : List Kind) (v : Nat) : Prop := ∃ k ∈ (ks.take v).getLast?, k.Dangles ks[v]?

theorem danglesBefore_append {used : Input σ} {last} (hlast : last ∈ used.getLast?) :
    DanglesBefore ((used ++ rest).map Prod.fst) used.length ↔
      last.1.Dangles (rest.head?.map Prod.fst) := by
  have htake : ((used ++ rest).map Prod.fst).take used.length = used.map Prod.fst := by
    rw [List.map_append, List.take_left' (List.length_map _)]
  have hnext : ((used ++ rest).map Prod.fst)[used.length]? = rest.head?.map Prod.fst := by
    rw [List.getElem?_map, List.getElem?_append_right (Nat.le_refl _), Nat.sub_self,
      List.head?_eq_getElem?]
  rw [DanglesBefore, htake, hnext, List.getLast?_map, Option.mem_def.mp hlast]
  simp

/-- The mark of the last token, in a piece from the front. -/
theorem counted_getLast {n : Nat} {I : Input (Fin n)} {last} (h : Counted 0 I)
    (hlast : last ∈ I.getLast?) : last.2.val + 1 = I.length := by
  obtain ⟨before, rfl⟩ := List.getLast?_eq_some_iff.mp hlast
  obtain ⟨-, hcount⟩ := counted_append.mp h
  simpa using (counted_cons.mp hcount).1

/-- The index of the failure: the next one, or the last one that there is. -/
theorem ScriptBreak.index {n : Nat} {f : Failure (Fin n)} {used rest : Input (Fin n)}
    (h : ScriptBreak d f used rest) (hcount : Counted 0 (used ++ rest))
    (hlength : used.length + rest.length = n) (hn : 0 < n) {i : Nat}
    (hi : f.mark.elim (n - 1) Fin.val = i) :
    used.length = n ∧ i + 1 = used.length ∨
      used.length < n ∧
        (¬ DanglesBefore ((used ++ rest).map Prod.fst) used.length ∧ i = used.length ∨
          DanglesBefore ((used ++ rest).map Prod.fst) used.length ∧ i + 1 = used.length) := by
  obtain ⟨hused, hrest⟩ := counted_append.mp hcount
  cases rest with
  | nil =>
    have hwhole : used.length = n := by simpa using hlength
    refine .inl ⟨hwhole, ?_⟩
    rcases h.points with ⟨rfl, -⟩ | ⟨last, hlast, ⟨-, hmark⟩ | ⟨-, hmark⟩⟩
    · exact absurd hwhole (Nat.ne_of_lt hn)
    · rw [← hi, hmark]
      exact counted_getLast hused hlast
    · rw [← hi, hmark, hwhole]
      exact Nat.sub_add_cancel hn
  | cons next rest =>
    obtain ⟨kind, m⟩ := next
    have hm : m.val = used.length := by simpa using (counted_cons.mp hrest).1
    refine .inr ⟨by simp at hlength; omega, ?_⟩
    rcases h.points with ⟨rfl, hmark⟩ | ⟨last, hlast, ⟨hdangles, hmark⟩ | ⟨hdangles, hmark⟩⟩
    · refine .inl ⟨by simp [DanglesBefore], ?_⟩
      rw [← hi, hmark]
      exact hm
    · refine .inr ⟨(danglesBefore_append hlast).mpr hdangles, ?_⟩
      rw [← hi, hmark]
      exact counted_getLast hused hlast
    · refine .inl ⟨mt (danglesBefore_append hlast).mp hdangles, ?_⟩
      rw [← hi, hmark]
      exact hm

end Grammar

open Grammar

/-! ## Tokens -/

/-- With some tokens behind them these can be read. -/
def Completable (depth : Nat) (ts : List Token) : Prop :=
  ∃ more ss, (readTokens depth (ts ++ more)).2 = .ok ss

/-- The error is at this index of all tokens with these kinds. -/
def FailsAt (depth : Nat) (ts : List Token) (cause : Cause) (i : Nat) : Prop :=
  ∀ us : List Token, us.map Token.kind = ts.map Token.kind →
    ∃ t, us[i]? = some t ∧ (readTokens depth us).2 = .error ⟨t, cause⟩

variable {depth : Nat} {ts : List Token}

theorem readTokens_accepted :
    (∃ ss, (readTokens depth ts).2 = .ok ss) ↔ ∃ trees, Accepted depth (kinds ts) trees := by
  simp only [readTokens_ok_iff, ← remark_marked, Accepted, script_erase_ok_iff]
  constructor
  · rintro ⟨ss, hss⟩
    exact ⟨_, ss, hss, rfl⟩
  · rintro ⟨_, ss, hss, -⟩
    exact ⟨ss, hss⟩

theorem completable_iff_kinds :
    Completable depth ts ↔ Viable (Accepted depth) (kinds ts) := by
  simp only [Completable, readTokens_accepted]
  constructor
  · rintro ⟨more, trees, h⟩
    exact ⟨kinds more, trees, by simpa [kinds] using h⟩
  · rintro ⟨more, trees, h⟩
    -- any tokens of the right kinds will do
    refine ⟨more.map fun t => ⟨t.1, "", 0, ⟨"", ""⟩⟩, trees, ?_⟩
    have hmore : kinds (more.map fun t => ⟨t.1, "", 0, ⟨"", ""⟩⟩) = more := by
      rw [kinds, List.map_map]
      exact List.map_id more
    rwa [← hmore, kinds, kinds, ← List.map_append] at h

/-- Marks have no part in what can be completed. -/
theorem viable_accepted_remark {I : Input σ} (m : σ) :
    Viable (Accepted depth) (I.remark fun _ => ()) ↔ Viable (Accepted depth) I := by
  constructor
  · rintro ⟨more, trees, h⟩
    have hmore : Input.remark (fun _ => ()) (more.map fun t => (t.1, m)) = more := by
      rw [Input.remark, List.map_map]
      exact List.map_id more
    rw [← hmore, ← Input.remark_append] at h
    obtain ⟨ss, hss, -⟩ := script_erase_ok_iff.mp h
    exact ⟨_, ss, hss⟩
  · rintro ⟨more, ss, h⟩
    refine ⟨more.remark fun _ => (), ss.map Statement.erase, ?_⟩
    rw [← Input.remark_append]
    exact script_erase_ok_iff.mpr ⟨ss, h, rfl⟩

theorem completable_take (m : Fin ts.length) (k : Nat) :
    Completable depth (ts.take k) ↔ Viable (Accepted depth) ((numbered ts).take k) := by
  have hkinds : kinds (ts.take k) = Input.remark (fun _ => ()) ((numbered ts).take k) := by
    refine List.ext_getElem (by simp [kinds, Input.remark]) fun i hi hi' => ?_
    simp [kinds, Input.remark, numbered]
  rw [completable_iff_kinds, hkinds, viable_accepted_remark m]

/-- An error is at a token. But for depth and for an ORDER BY directly behind DELETE, the tokens
before it can be completed to a script, and it is the first one with which they cannot; if all can
be completed, it is the last one. Only a NOT or ORDER that dangles is blamed for the token behind
it. -/
theorem readTokens_blames {e} (h : (readTokens depth ts).2 = .error e) :
    e.token ∈ ts ∧
      (1 ≤ depth → ¬ strayOrder <:+: ts.map Token.kind →
        e.diagnostic.message ≠ "Expression nested too deeply" →
        ∃ v i, (∀ k ≤ ts.length, Completable depth (ts.take k) ↔ k ≤ v) ∧
          FailsAt depth ts e.cause i ∧ ts[i]? = some e.token ∧ Completable depth (ts.take i) ∧
          (v = ts.length ∧ i + 1 = v ∨
            v < ts.length ∧ (¬ DanglesBefore (ts.map Token.kind) v ∧ i = v ∨
              DanglesBefore (ts.map Token.kind) v ∧ i + 1 = v))) := by
  cases hscript : (script depth (numbered ts)).result with
  | ok trees =>
    cases h.symm.trans (readTokens_ok_of_numbered hscript rfl rfl)
  | error f =>
    obtain ⟨t, ht, herror⟩ := readTokens_error_of_numbered hscript rfl
    cases h.symm.trans herror
    refine ⟨List.mem_of_getElem? ht, fun hdepth hstray hmessage => ?_⟩
    have hcause : f.cause ≠ .tooDeep := fun hcause => hmessage (congrArg Cause.message hcause)
    have hkinds : (numbered ts).map Prod.fst = ts.map Token.kind := by
      refine List.ext_getElem (by simp) fun i hi hi' => ?_
      simp [numbered]
    obtain ⟨used, rest, hsplit, hbreak⟩ :=
      script_breaks hdepth hscript hcause (by rwa [hkinds])
    have hlength : used.length + rest.length = ts.length := by
      simpa [hsplit] using length_numbered ts
    have hcount := counted_numbered ts
    rw [hsplit] at hcount hkinds
    have hpos : 0 < ts.length := List.length_pos_of_mem (List.mem_of_getElem? ht)
    have hlongest : ∀ k ≤ ts.length, Completable depth (ts.take k) ↔ k ≤ used.length := by
      intro k hk
      rw [completable_take ⟨0, hpos⟩, hsplit]
      exact hbreak.longest (by simpa [hlength] using hk)
    have hindex := hbreak.index hcount hlength hpos rfl
    rw [hkinds] at hindex
    exact ⟨used.length, _, hlongest, fun us => readTokens_error_of_numbered hscript, ht,
      (hlongest _ (by omega)).mpr (by omega), hindex⟩

theorem readTokens_blames_use :
    let use : Token := ⟨.keyword "USE", "use", 0, ⟨"", "use;;"⟩⟩
    let first : Token := ⟨.symbol ";", ";", 3, ⟨"", "use;;"⟩⟩
    let second : Token := ⟨.symbol ";", ";", 4, ⟨"", "use;;"⟩⟩
    let e : SyntaxError := ⟨first, .databaseName (some (.symbol ";"))⟩
    (readTokens 1 [use, first, second]).2 = .error e ∧
      ¬ strayOrder <:+: [use, first, second].map Token.kind ∧
      e.diagnostic.message ≠ "Expression nested too deeply" ∧
      Completable 1 [use] ∧ ¬ Completable 1 [use, first] := by
  intro use first second e
  have hread : (readTokens 1 [use, first, second]).2 = .error e := by
    have hscript : (script 1 (marked [use, first, second])).result =
        .error ⟨.databaseName (some (.symbol ";")), some first⟩ :=
      script_malformed (by decide) rfl
    obtain ⟨_, -, herror⟩ := readTokens_error hscript
    exact herror
  have hstray : ¬ strayOrder <:+: [use, first, second].map Token.kind := by decide
  have hmessage : e.diagnostic.message ≠ "Expression nested too deeply" := by decide
  obtain ⟨v, i, hlongest, -, htoken, -, hindex⟩ :=
    (readTokens_blames hread).2 (Nat.le_refl 1) hstray hmessage
  obtain rfl : i = 1 := by
    rcases i with _ | _ | _ | i
    · exact absurd htoken (by decide)
    · rfl
    · exact absurd htoken (by decide)
    · cases htoken
  have hdangles : ¬ DanglesBefore ([use, first, second].map Token.kind) 2 := by
    simp [DanglesBefore, Kind.Dangles, use, first, second]
  obtain rfl : v = 1 := by
    rcases hindex with ⟨hv, hi⟩ | ⟨-, ⟨-, hi⟩ | ⟨hdangling, hi⟩⟩
    · simp only [List.length_cons, List.length_nil] at hv
      omega
    · exact hi.symm
    · obtain rfl : v = 2 := hi.symm
      exact (hdangles hdangling).elim
  exact ⟨hread, hstray, hmessage, (hlongest 1 (by decide)).mpr (Nat.le_refl 1),
    mt (hlongest 2 (by decide)).mp (by decide)⟩

end SqlScript

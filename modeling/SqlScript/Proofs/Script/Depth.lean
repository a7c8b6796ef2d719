import SqlScript.Proofs.Grammar.Exceeds
import SqlScript.Proofs.Grammar.Numbered
import SqlScript.Proofs.Grammar.Tries

/-!
# What the depth limit means

A script can be read under exactly the limits that are not below its need. Under a lower one,
reading fails at the first token where an operand is looked for too deep. What is wrong with tokens
for another reason is found under all limits from some one on, and under lower ones the failure is
that of depth (`readTokens_depth`). It comes at the same place as in a script that begins as these
tokens do before it (`ExceedsAt`).

Places are indices of tokens here: a bare SELECT looks for an operand at the token behind it, which
is no part of its tree.
-/

namespace SqlScript

open Grammar

variable {n : Nat}

/-! ## Places by index -/

def indices (tries : List (Nat × Fin n)) : List (Nat × Nat) := tries.map (Prod.map id Fin.val)

namespace Statement

def tries : Statement (Span (Fin n)) → List (Nat × Nat)
  | use _ _ => []
  | select span [] _ => [(1, span.last + 1)]
  | select _ (e :: es) clauses =>
    indices (Expr.triesAll (e :: es) ++ clauses.elim [] fun kept => kept.node.tries)
  | insert _ _ _ values => indices (Expr.triesAll values)
  | delete _ kept => indices kept.node.tries

def triesAll (ss : List (Statement (Span (Fin n)))) : List (Nat × Nat) := ss.flatMap tries

end Statement

theorem firstTry_indices {d : Nat} {tries : List (Nat × Fin n)} :
    firstTry d (indices tries) = (firstTry d tries).map Fin.val := by
  simp only [firstTry, indices, List.find?_map, Option.map_map]
  rfl

theorem Clauses.tries_le (c : Clauses (Span (Fin n))) : ∀ t ∈ c.tries, t.1 ≤ c.need := by
  obtain ⟨tables, filter, order⟩ := c
  cases filter with
  | none => simp [Clauses.tries]
  | some condition => exact condition.node.tries_le

theorem Statement.tries_le (s : Statement (Span (Fin n))) : ∀ t ∈ s.tries, t.1 ≤ s.need := by
  have hindices : ∀ {tries : List (Nat × Fin n)} {d : Nat}, (∀ t ∈ tries, t.1 ≤ d) →
      ∀ t ∈ indices tries, t.1 ≤ d := fun h => by
    simpa only [indices, List.forall_mem_map, Prod.map_fst, id] using h
  cases s with
  | use => simp [Statement.tries]
  | select span list clauses =>
    cases list with
    | nil =>
      simp only [Statement.tries, Statement.need, List.mem_singleton, forall_eq]
      omega
    | cons e es =>
      refine hindices (List.forall_mem_append.mpr ⟨fun t ht => ?_, fun t ht => ?_⟩)
      · have := Expr.triesAll_le (e :: es) t ht
        simp only [Statement.need]
        omega
      · cases clauses with
        | none => simp at ht
        | some kept =>
          have := kept.node.tries_le t ht
          simp only [Statement.need, Option.elim_some]
          omega
  | insert span into columns values => exact hindices (Expr.triesAll_le values)
  | delete span kept => exact hindices kept.node.tries_le

theorem Statement.triesAll_le (ss : List (Statement (Span (Fin n)))) :
    ∀ t ∈ Statement.triesAll ss, t.1 ≤ Statement.needAll ss := by
  induction ss with
  | nil => simp [Statement.triesAll]
  | cons s ss ih =>
    rw [Statement.triesAll, List.flatMap_cons, Statement.needAll, List.forall_mem_append]
    exact ⟨fun t ht => Nat.le_trans (s.tries_le t ht) (Nat.le_max_left _ _),
      fun t ht => Nat.le_trans (ih t ht) (Nat.le_max_right _ _)⟩

namespace Grammar

/-! ## Statements and scripts -/

theorem StatementPhrase.tooDeep {d k : Nat} {I rest : Input (Fin n)} {s}
    (h : StatementPhrase I s) (hneed : d < s.need) (hcount : Counted k (I ++ rest))
    (hstop : Stops Kind.continuesStatement rest) :
    ∃ mark : Option (Fin n),
      firstTry d s.tries = some (mark.elim (k + (I ++ rest).length) Fin.val) ∧
      (statement d).read (I ++ rest) = .malformed ⟨.tooDeep, mark⟩ := by
  cases h with
  | use => simp [Statement.need] at hneed
  | @bareSelect m =>
    obtain rfl : d = 0 := by
      simp only [Statement.need, Expr.needAll, Option.elim_none] at hneed
      omega
    rw [List.singleton_append, counted_cons] at hcount
    obtain ⟨rfl, hrest⟩ := hcount
    refine ⟨rest.head?.map Prod.snd, ?_, statement_of_select (keyword_malformed rfl)⟩
    cases rest with
    | nil => rfl
    | cons next rest =>
      rw [counted_cons] at hrest
      simp [Statement.tries, firstTry, Span.single, hrest.1]
  | @select m I J list c span inner hlist hc hsel hspan hinner =>
    have hdeep : d < max (Expr.needAll list) c.need := by
      have := arguments_one_le_need hlist
      simp only [Statement.need, Option.elim_some] at hneed
      omega
    obtain ⟨m', hm, hread⟩ := selectStatement_tooDeep hlist hc hdeep hstop
    obtain ⟨first, more, rfl⟩ := hlist.exists_cons
    refine ⟨some m', ?_, ?_⟩
    · rw [Statement.tries, firstTry_indices]
      exact congrArg _ hm
    · rw [List.cons_append, List.append_assoc]
      exact statement_of_select hread
  | @selectList m I J list c span hlist hc hsel hspan =>
    have hfilter : c.filter = none := by simpa [Selective] using mt .inr hsel
    have hdeep : d < max (Expr.needAll list) c.need := by
      have := arguments_one_le_need hlist
      simp only [Statement.need, Option.elim_none] at hneed
      omega
    obtain ⟨m', hm, hread⟩ := selectStatement_tooDeep hlist hc hdeep hstop
    obtain ⟨first, more, rfl⟩ := hlist.exists_cons
    refine ⟨some m', ?_, ?_⟩
    · rw [Clauses.tries, hfilter] at hm
      rw [Statement.tries, firstTry_indices]
      exact congrArg _ hm
    · rw [List.cons_append, List.append_assoc]
      exact statement_of_select hread
  | insert hinto hcolumns hvalues =>
    simp only [List.cons_append, List.append_assoc, List.nil_append] at hcount ⊢
    obtain ⟨m', hm, hread⟩ := insertStatement_tooDeep hinto hcolumns hvalues hneed _
    refine ⟨some m', ?_, statement_of_insert hread⟩
    rw [Statement.tries, firstTry_indices, hm]
    rfl
  | @delete m J c span inner hc hsel hspan hinner =>
    obtain ⟨m', hm, hread⟩ := deleteStatement_tooDeep hc hneed rest
    refine ⟨some m', ?_, statement_of_delete hread⟩
    rw [Statement.tries, firstTry_indices, hm]
    rfl

/-- The first statement that needs more than the limit is refused. -/
theorem ScriptPhrase.tooDeep {d k : Nat} {I : Input (Fin n)} {ss} (h : ScriptPhrase I ss)
    (hneed : d < Statement.needAll ss) (hcount : Counted k I) :
    ∃ mark : Option (Fin n),
      firstTry d (Statement.triesAll ss) = some (mark.elim (k + I.length) Fin.val) ∧
      (script d I).result = .error ⟨.tooDeep, mark⟩ := by
  induction h generalizing k with
  | nil => simp [Statement.needAll] at hneed
  | @semicolon m I ss more ih =>
    obtain ⟨mark, hmark, hread⟩ := ih hneed (counted_cons.mp hcount).2
    refine ⟨mark, ?_, by rwa [script_semicolon]⟩
    rw [hmark, List.length_cons]
    congr 2
    omega
  | @cons I J s ss first more ih =>
    have hstop : Stops Kind.continuesStatement (J ++ []) := more.stops .nil
    rw [List.append_nil] at hstop
    rw [Statement.triesAll, List.flatMap_cons, firstTry_append]
    by_cases hfits : s.need ≤ d
    · have hmore : d < Statement.needAll ss := by
        rw [Statement.needAll] at hneed
        omega
      obtain ⟨dropped, hcomplete⟩ := statement_complete first hfits
      obtain ⟨mark, hmark, hread⟩ := ih hmore (counted_append.mp hcount).2
      refine ⟨mark, ?_, ?_⟩
      · rw [firstTry_eq_none fun t ht => Nat.le_trans (s.tries_le t ht) hfits, Option.none_or,
          List.length_append, ← Nat.add_assoc]
        exact hmark
      · rw [script_of_statement (hcomplete J hstop) rfl, Reading.behind, hread]
        rfl
    · obtain ⟨mark, hmark, hread⟩ := first.tooDeep (Nat.lt_of_not_le hfits) hcount hstop
      refine ⟨mark, by rw [hmark]; rfl, ?_⟩
      obtain ⟨word, m, more, rfl, -⟩ := first.starts
      rw [List.cons_append] at hread ⊢
      rw [script_cons, if_neg (by simp), hread]

end Grammar

/-! ## Tokens -/

/-- The error that operands lie too deep inside one another, at a token. -/
def TooDeepAt (token : Token) (e : SyntaxError) : Prop :=
  e.cause = .tooDeep ∧ e.diagnostic = ⟨token, "Expression nested too deeply"⟩

theorem tooDeepAt (token : Token) : TooDeepAt token ⟨token, .tooDeep⟩ := ⟨rfl, rfl⟩

variable {limit : Nat} {tokens : List Token}

/-! ### Where the limit is exceeded -/

/-- In some script that begins with the tokens before index `i`, the first operand that is looked
for just deeper than `d` is looked for there. -/
def ExceedsAt (d : Nat) (ts : List Token) (i : Nat) : Prop :=
  i ≤ ts.length ∧ ∃ more trees, ScriptPhrase (numbered (ts.take i ++ more)) trees ∧
    firstTry d (Statement.triesAll trees) = some i

/-- Tokens for the grammar, with the numbers from `k` on for marks. Unlike `numbered`, this takes
the tokens of a piece for what they are in the whole. -/
def indexed (k : Nat) (ts : List Token) : Input Nat := (ts.zipIdx k).map (Prod.map Token.kind id)

section Indexed

variable {d i k : Nat} {ts us : List Token}

theorem remark_val_numbered (ts : List Token) : (numbered ts).remark Fin.val = indexed 0 ts := by
  refine List.ext_getElem (by simp [indexed, Input.remark]) fun i hi hi' => ?_
  simp [indexed, Input.remark, numbered]

@[simp] theorem length_indexed (k : Nat) (ts : List Token) : (indexed k ts).length = ts.length := by
  simp [indexed]

theorem indexed_append : indexed k (ts ++ us) = indexed k ts ++ indexed (k + ts.length) us := by
  simp [indexed, List.zipIdx_append]

theorem remark_indexed (k : Nat) (ts : List Token) :
    (indexed k ts).remark (fun _ => ()) = kinds ts := by
  induction ts generalizing k with
  | nil => rfl
  | cons t ts ih => exact congrArg (_ :: ·) (ih _)

/-- The mark at the front is the index; past the end there is none. -/
theorem front_indexed (cause : Cause) (i : Nat) (us : List Token) :
    (Failure.atFront cause (indexed i us)).mark.elim (i + us.length) id = i := by
  cases us <;> simp [indexed, Failure.atFront]

/-- The failure comes where some script goes on, and it is there whatever does. -/
theorem script_indexed_exceeds {mark}
    (h : (script d (indexed 0 ts)).result = .error ⟨.tooDeep, mark⟩) :
    ∃ i ≤ ts.length, mark.elim ts.length id = i ∧ Viable ScriptPhrase (indexed 0 (ts.take i)) ∧
      ∀ us, (script d (indexed 0 (ts.take i ++ us))).result =
        .error (.atFront .tooDeep (indexed i us)) := by
  obtain ⟨used, rest, heq, -, hstarts, hfails⟩ := script_exceeds h
  have hle : used.length ≤ ts.length := by
    rw [← length_indexed 0 ts, heq]
    simp
  have hlength : (ts.take used.length).length = used.length := List.length_take_of_le hle
  have hsplit : indexed 0 ts =
      indexed 0 (ts.take used.length) ++ indexed used.length (ts.drop used.length) := by
    conv_lhs => rw [← List.take_append_drop used.length ts, indexed_append, hlength, Nat.zero_add]
  obtain ⟨hused, hrest⟩ := List.append_inj (heq.symm.trans hsplit) (by simp [hlength])
  refine ⟨used.length, hle, ?_, hused ▸ hstarts, fun us => ?_⟩
  · rw [heq, hfails rest, Except.error.injEq, hrest] at h
    have hfront := front_indexed .tooDeep used.length (ts.drop used.length)
    rwa [h, List.length_drop, Nat.add_sub_cancel' hle] at hfront
  · rw [indexed_append, hlength, Nat.zero_add, ← hused, hfails]

/-- What starts a script by these numbers does so with tokens of its own behind it. -/
theorem exists_numbered (h : Viable ScriptPhrase (indexed 0 ts)) :
    ∃ us trees, ScriptPhrase (numbered (ts ++ us)) trees := by
  obtain ⟨more, ss, hphrase⟩ := h
  -- any tokens of the right kinds will do
  let us : List Token := more.map fun t => ⟨t.1, "", 0, ⟨"", ""⟩⟩
  have hkinds : (indexed 0 ts ++ more).remark (fun _ => ()) =
      (indexed 0 (ts ++ us)).remark fun _ => () := by
    rw [indexed_append, Input.remark_append, Input.remark_append, remark_indexed _ us, kinds,
      List.map_map]
    rfl
  have hread : (script (Statement.needAll ss) (indexed 0 ts ++ more)).result = .ok ss :=
    script_ok_iff.mpr ⟨hphrase, Nat.le_refl _⟩
  have herased := script_erase_ok_iff.mpr ⟨ss, hread, rfl⟩
  rw [hkinds] at herased
  obtain ⟨ss', hread', -⟩ := script_erase_ok_iff.mp herased
  rw [← remark_val_numbered, script_remark, Reading.map_ok] at hread'
  obtain ⟨trees, htrees, -⟩ := hread'
  exact ⟨us, trees, (script_ok_iff.mp htrees).1⟩

theorem tooDeep_indexed {trees} (h : ScriptPhrase (numbered ts) trees)
    (hneed : d < Statement.needAll trees) : ∃ mark,
      firstTry d (Statement.triesAll trees) = some (mark.elim ts.length id) ∧
      (script d (indexed 0 ts)).result = .error ⟨.tooDeep, mark⟩ := by
  obtain ⟨mark, hmark, hread⟩ := h.tooDeep hneed (counted_numbered ts)
  refine ⟨mark.map Fin.val, ?_, ?_⟩
  · rw [hmark]
    cases mark <;> simp
  · rw [← remark_val_numbered, script_remark, Reading.map, hread]
    rfl

theorem exceedsAt_iff_indexed : ExceedsAt d ts i ↔
    ∃ mark, mark.elim ts.length id = i ∧
      (script d (indexed 0 ts)).result = .error ⟨.tooDeep, mark⟩ := by
  constructor
  · rintro ⟨hi, more, trees, hphrase, htry⟩
    have hneed : d < Statement.needAll trees := by
      refine Nat.lt_of_not_le fun hfits => ?_
      have hnone := firstTry_eq_none fun t ht =>
        Nat.le_trans (Statement.triesAll_le trees t ht) hfits
      cases htry.symm.trans hnone
    obtain ⟨mark, hmark, hread⟩ := tooDeep_indexed hphrase hneed
    obtain ⟨j, -, hj, -, hfails⟩ := script_indexed_exceeds hread
    obtain rfl : i = j := Option.some.inj (htry.symm.trans (hj ▸ hmark))
    have htake : (ts.take i ++ more).take i = ts.take i :=
      List.take_left' (List.length_take_of_le hi)
    have hrest := hfails (ts.drop i)
    rw [htake, List.take_append_drop] at hrest
    have hfront := front_indexed .tooDeep i (ts.drop i)
    rw [List.length_drop, Nat.add_sub_cancel' hi] at hfront
    exact ⟨_, hfront, hrest⟩
  · rintro ⟨mark, hmark, hread⟩
    obtain ⟨j, hj, hmark', hstarts, hfails⟩ := script_indexed_exceeds hread
    obtain rfl : i = j := hmark.symm.trans hmark'
    obtain ⟨us, trees, hphrase⟩ := exists_numbered hstarts
    refine ⟨hj, us, trees, hphrase, ?_⟩
    have hneed : d < Statement.needAll trees := by
      refine Nat.lt_of_not_le fun hfits => ?_
      have hread' := script_ok_iff.mpr ⟨hphrase, hfits⟩
      have hfails' := hfails us
      rw [← remark_val_numbered, script_remark, Reading.map, hread'] at hfails'
      cases hfails'
    obtain ⟨mark', htry, hread'⟩ := tooDeep_indexed hphrase hneed
    have hfront := front_indexed .tooDeep i us
    rw [← Except.error.inj (hread'.symm.trans (hfails us))] at hfront
    rw [htry, List.length_append, List.length_take_of_le hj, hfront]

/-- Whatever script the tokens begin, the place is where reading them fails. -/
theorem exceedsAt_iff : ExceedsAt d ts i ↔
    ∃ mark : Option (Fin ts.length), mark.elim ts.length Fin.val = i ∧
      (script d (numbered ts)).result = .error ⟨.tooDeep, mark⟩ := by
  rw [exceedsAt_iff_indexed, ← remark_val_numbered, script_remark]
  simp only [Reading.map_error]
  constructor
  · rintro ⟨_, hi, ⟨_, mark⟩, hread, heq⟩
    cases heq
    exact ⟨mark, by cases mark <;> exact hi, hread⟩
  · rintro ⟨mark, hi, hread⟩
    exact ⟨mark.map Fin.val, by cases mark <;> exact hi, _, hread, rfl⟩

theorem ExceedsAt.unique {j : Nat} (h : ExceedsAt d ts i) (h' : ExceedsAt d ts j) : i = j := by
  obtain ⟨mark, rfl, hread⟩ := exceedsAt_iff.mp h
  obtain ⟨mark', rfl, hread'⟩ := exceedsAt_iff.mp h'
  cases hread.symm.trans hread'
  rfl

end Indexed

/-- Past the end the error is at the last token. -/
theorem ExceedsAt.fails {d i : Nat} (h : ExceedsAt d tokens i) :
    ∃ token e, tokens[i]?.or tokens.getLast? = some token ∧ TooDeepAt token e ∧
      (readTokens d tokens).2 = .error e := by
  obtain ⟨mark, rfl, hread⟩ := exceedsAt_iff.mp h
  obtain ⟨last, hlast, herror⟩ := readTokens_error (script_error_of_numbered hread rfl rfl)
  refine ⟨_, _, ?_, tooDeepAt _, herror⟩
  cases mark with
  | none => simp [Failure.map, hlast]
  | some m => simp [Failure.map]

theorem exists_exceedsAt {d : Nat} {token : Token}
    (h : (readTokens d tokens).2 = .error ⟨token, .tooDeep⟩) : ∃ i, ExceedsAt d tokens i := by
  cases hread : (script d (numbered tokens)).result with
  | ok trees => cases h.symm.trans (readTokens_ok_of_numbered hread rfl rfl)
  | error failure =>
    obtain ⟨_, -, herror⟩ := readTokens_error_of_numbered hread rfl
    have hcause : failure.cause = .tooDeep :=
      congrArg SyntaxError.cause (Except.error.inj (herror.symm.trans h))
    exact ⟨_, exceedsAt_iff.mpr ⟨failure.mark, rfl, by rw [hread, ← hcause]⟩⟩

theorem readTokens_tooDeep {trees : List (Statement (Span (Fin tokens.length)))} {d : Nat}
    (h : ScriptPhrase (numbered tokens) trees) (hneed : d < Statement.needAll trees) :
    ∃ i token e, firstTry d (Statement.triesAll trees) = some i ∧
      tokens[i]?.or tokens.getLast? = some token ∧ TooDeepAt token e ∧
      (readTokens d tokens).2 = .error e := by
  obtain ⟨mark, hmark, hread⟩ := h.tooDeep hneed (counted_numbered tokens)
  rw [length_numbered, Nat.zero_add] at hmark
  obtain ⟨token, e, htoken, hdeep, herror⟩ := (exceedsAt_iff.mpr ⟨mark, rfl, hread⟩).fails
  exact ⟨_, token, e, hmark, htoken, hdeep, herror⟩

theorem readTokens_limits {d e : Nat} (h : d ≤ e) (tokens : List Token) :
    (∃ token, (readTokens d tokens).2 = .error ⟨token, .tooDeep⟩ ∧ d ≤ tokens.length) ∨
      (readTokens e tokens).2 = (readTokens d tokens).2 ∧
        ∀ token, (readTokens d tokens).2 ≠ .error ⟨token, .tooDeep⟩ := by
  cases tokens with
  | nil => exact .inr ⟨rfl, nofun⟩
  | cons first more =>
    have hread : ∀ d, (readTokens d (first :: more)).2 =
        (script d (marked (first :: more))).result.mapError
          (Reader.resolve ⟨first, more, 0⟩) := fun _ => rfl
    simp only [hread]
    rcases script_limits h (marked (first :: more)) with ⟨mark, hdeep, hroom⟩ | ⟨heq, hnot⟩
    · rw [hdeep]
      exact .inl ⟨_, rfl, by simpa [marked] using hroom⟩
    · rw [heq]
      refine .inr ⟨rfl, fun token hdeep => ?_⟩
      cases hresult : (script d (marked (first :: more))).result with
      | ok ss =>
        rw [hresult] at hdeep
        cases hdeep
      | error failure =>
        rw [hresult] at hdeep
        have hcause : failure.cause = .tooDeep :=
          congrArg SyntaxError.cause (Except.error.inj hdeep)
        exact hnot failure.mark (by rw [hresult, ← hcause])

/-- What the limit does to tokens that can be read under a limit above their number, to tokens that
cannot, and to all. Tokens that cannot be read are too deep where a script is that begins like them,
and fail as they do without a limit if there is no such place. -/
theorem readTokens_depth (hlimit : tokens.length < limit) :
    (∀ ss, (readTokens limit tokens).2 = .ok ss →
      ∃ trees, ScriptPhrase (numbered tokens) trees ∧ ss = trees.map (.map (.map tokens.get)) ∧
        ∀ d, (Statement.needAll ss ≤ d → (readTokens d tokens).2 = .ok ss) ∧
          (d < Statement.needAll ss → ∃ i token e,
            firstTry d (Statement.triesAll trees) = some i ∧
            tokens[i]?.or tokens.getLast? = some token ∧ TooDeepAt token e ∧
            (readTokens d tokens).2 = .error e)) ∧
    (∀ e, (readTokens limit tokens).2 = .error e → e.cause ≠ .tooDeep ∧
      ∀ d, ((readTokens d tokens).2 = .error e ∧ (∀ i, ¬ ExceedsAt d tokens i) ∨
          ∃ i token e', ExceedsAt d tokens i ∧ (∀ j, ExceedsAt d tokens j → j = i) ∧
            tokens[i]?.or tokens.getLast? = some token ∧ TooDeepAt token e' ∧
            (readTokens d tokens).2 = .error e') ∧
        ((readTokens d tokens).2 = .error e →
          ∀ d' ≥ d, (readTokens d' tokens).2 = .error e)) ∧
    (∀ d d', d ≤ d' →
      (∀ ss, (readTokens d tokens).2 = .ok ss → (readTokens d' tokens).2 = .ok ss) ∧
      ∀ e, (readTokens d tokens).2 = .error e → e.cause ≠ .tooDeep →
        (readTokens d' tokens).2 = .error e) := by
  have hok : ∀ {d ss}, (readTokens d tokens).2 = .ok ss ↔
      ScriptPhrase (marked tokens) ss ∧ Statement.needAll ss ≤ d :=
    readTokens_ok_iff.trans script_ok_iff
  have hstays : ∀ {d d' e}, d ≤ d' → (readTokens d tokens).2 = .error e → e.cause ≠ .tooDeep →
      (readTokens d' tokens).2 = .error e := fun hle hread hcause => by
    rcases readTokens_limits hle tokens with ⟨token, hdeep, -⟩ | ⟨heq, -⟩
    · cases hread.symm.trans hdeep
      exact (hcause rfl).elim
    · rw [heq, hread]
  refine ⟨fun ss hread => ?_, fun e hread => ?_, fun d d' hle => ⟨fun ss hread => ?_, fun e =>
    hstays hle⟩⟩
  · obtain ⟨trees, hphrase, -, rfl⟩ := readTokens_ok_iff_numbered.mp hread
    refine ⟨trees, hphrase, rfl, fun d => ⟨fun hneed => hok.mpr ⟨(hok.mp hread).1, hneed⟩,
      fun hneed => readTokens_tooDeep hphrase (Nat.lt_of_not_le fun hfits => ?_)⟩⟩
    -- the tree with indices would be read, and the one with tokens like it
    have hread' := readTokens_ok_iff_numbered.mpr ⟨trees, hphrase, hfits, rfl⟩
    exact Nat.not_le_of_lt hneed (hok.mp hread').2
  · have hcause : e.cause ≠ .tooDeep := by
      rcases readTokens_limits (Nat.le_refl limit) tokens with ⟨-, -, hroom⟩ | ⟨-, hnot⟩
      · omega
      · exact fun hcause => hnot e.token (by rw [hread, ← hcause])
    refine ⟨hcause, fun d => ⟨?_, fun hread' d' hle => hstays hle hread' hcause⟩⟩
    by_cases hdeep : ∃ i, ExceedsAt d tokens i
    · obtain ⟨i, hi⟩ := hdeep
      obtain ⟨token, e', htoken, hdeep, herror⟩ := hi.fails
      exact .inr ⟨i, token, e', hi, fun j hj => hj.unique hi, htoken, hdeep, herror⟩
    · refine .inl ⟨?_, not_exists.mp hdeep⟩
      rcases Nat.le_total d limit with hle | hle
      · rcases readTokens_limits hle tokens with ⟨token, herror, -⟩ | ⟨heq, -⟩
        · exact (hdeep (exists_exceedsAt herror)).elim
        · exact heq.symm.trans hread
      · exact hstays hle hread hcause
  · obtain ⟨hphrase, hneed⟩ := hok.mp hread
    exact hok.mpr ⟨hphrase, Nat.le_trans hneed hle⟩

/-- SELECT alone looks for an operand behind itself, and NOT for one inside it. -/
theorem readTokens_depth_selects :
    let select : Token := ⟨.keyword "SELECT", "select", 0, ⟨"", "select not"⟩⟩
    let negation : Token := ⟨.keyword "NOT", "not", 7, ⟨"", "select not"⟩⟩
    let ss := [Statement.select (.single select) [] none]
    ([select].length < 2 ∧ (readTokens 2 [select]).2 = .ok ss ∧
      (∀ d, 1 ≤ d → (readTokens d [select]).2 = .ok ss) ∧
      ∃ e, TooDeepAt select e ∧ (readTokens 0 [select]).2 = .error e) ∧
    [select, negation].length < 3 ∧
      (readTokens 3 [select, negation]).2 = .error ⟨negation, .valueAfterNot⟩ ∧
      ExceedsAt 1 [select, negation] 2 ∧
      ∃ e, TooDeepAt negation e ∧ (readTokens 1 [select, negation]).2 = .error e := by
  intro select negation ss
  have hlimit : [select].length < 2 := by decide
  have hlimit' : [select, negation].length < 3 := by decide
  have hphrase : ScriptPhrase (marked [select]) ss := .cons .bareSelect .nil
  have hread : (readTokens 2 [select]).2 = .ok ss :=
    readTokens_ok_iff.mpr (script_ok_iff.mpr ⟨hphrase, by decide⟩)
  obtain ⟨trees, -, -, hdepth⟩ := (readTokens_depth hlimit).1 ss hread
  obtain ⟨i, token, e, -, htoken, hdeep, herror⟩ := (hdepth 0).2 (by decide)
  obtain rfl : select = token := by cases i <;> simpa using htoken
  have hfails : (readTokens 3 [select, negation]).2 = .error ⟨negation, .valueAfterNot⟩ := by
    have hscript : (script 3 (marked [select, negation])).result =
        .error ⟨.valueAfterNot, some negation⟩ := by
      rw [marked, List.map_cons, script_cons, if_neg (by decide)]
      rfl
    obtain ⟨_, -, herror⟩ := readTokens_error hscript
    exact herror
  have hexceeds : ExceedsAt 1 [select, negation] 2 := by
    refine exceedsAt_iff.mpr ⟨none, rfl, ?_⟩
    rw [numbered, List.ofFn_succ, script_cons, if_neg (by decide)]
    rfl
  refine ⟨⟨hlimit, hread, fun d => (hdepth d).1, e, hdeep, herror⟩, hlimit', hfails, hexceeds, ?_⟩
  obtain ⟨-, hnone⟩ | ⟨i, token, e, -, hi, htoken, hdeep, herror⟩ :=
    (((readTokens_depth hlimit').2.1 _ hfails).2 1).1
  · exact (hnone 2 hexceeds).elim
  · obtain rfl := hi 2 hexceeds
    obtain rfl : negation = token := Option.some.inj htoken
    exact ⟨e, hdeep, herror⟩

end SqlScript

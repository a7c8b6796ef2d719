import SqlScript.Tree.Dump
import SqlScript.Proofs.Json.Decodable
import SqlScript.Proofs.Tree.Map

/-!
# What a dump shows

A quoted text is made up of characters that show (`isPrintable_quote`) and can be told from what is
written (`quote_inj`). Of the tokens that a tree was read from its dump shows the offsets and
nothing else (`Statement.dump_map`).
-/

namespace SqlScript

namespace Dump

/-! ## Characters by their numbers -/

/-- The number that hexadecimal digits stand for. -/
def hexNumber (digits : List Char) : Nat :=
  digits.foldl (fun n c => 16 * n + Json.hexValue c) 0

theorem hexValue_digitChar {d : Nat} (h : d < 16) : Json.hexValue d.digitChar = d := by
  have hall : ∀ d < 16, Json.hexValue d.digitChar = d := by decide
  exact hall d h

/-- By induction on the number, which loses its last digit. -/
theorem hexNumber_toDigits (n : Nat) : hexNumber (Nat.toDigits 16 n) = n := by
  induction n using Nat.strongRecOn with
  | ind n ih =>
    rw [Nat.toDigits_eq_if (by decide)]
    split
    · next hlt =>
      rw [hexNumber, List.foldl_cons, List.foldl_nil, hexValue_digitChar hlt, Nat.mul_zero,
        Nat.zero_add]
    · next hge =>
      have hless : n / 16 < n := Nat.div_lt_self (by omega) (by decide)
      have hfirst := ih (n / 16) hless
      rw [hexNumber] at hfirst ⊢
      rw [List.foldl_append, hfirst, List.foldl_cons, List.foldl_nil,
        hexValue_digitChar (Nat.mod_lt n (by decide)), Nat.div_add_mod]

theorem exists_of_mem_toDigits {n : Nat} {c : Char} (h : c ∈ Nat.toDigits 16 n) :
    ∃ d < 16, d.digitChar = c := by
  induction n using Nat.strongRecOn with
  | ind n ih =>
    rw [Nat.toDigits_eq_if (by decide)] at h
    split at h
    · next hlt => exact ⟨n, hlt, (List.mem_singleton.mp h).symm⟩
    · next hge =>
      rcases List.mem_append.mp h with h | h
      · exact ih (n / 16) (Nat.div_lt_self (by omega) (by decide)) h
      · exact ⟨n % 16, Nat.mod_lt n (by decide), (List.mem_singleton.mp h).symm⟩

theorem brace_not_mem_toDigits {n : Nat} {c : Char} (h : c ∈ Nat.toDigits 16 n) :
    (c != '\x7d') = true := by
  obtain ⟨d, -, rfl⟩ := exists_of_mem_toDigits h
  exact bne_iff_ne.mpr (Nat.digitChar_ne '\x7d' (by decide))

theorem toList_escapeCode (c : Char) :
    (escapeCode c).toList =
      ['\\', 'u', '\x7b'] ++ (Nat.toDigits 16 c.toNat ++ ['\x7d']) := by
  simp [escapeCode]

/-! ## Quoted texts -/

/-- The first character of a text that is not empty, and what is left of it. -/
def unescape : List Char → Option (Char × List Char)
  | '\\' :: 'u' :: '\x7b' :: rest =>
    some (Char.ofNat (hexNumber (rest.takeWhile (· != '\x7d'))),
      (rest.dropWhile (· != '\x7d')).drop 1)
  | '\\' :: 'n' :: rest => some ('\n', rest)
  | '\\' :: 'r' :: rest => some ('\r', rest)
  | '\\' :: 't' :: rest => some ('\t', rest)
  | '\\' :: '0' :: rest => some ('\x00', rest)
  | '\\' :: c :: rest => some (c, rest)
  | c :: rest => some (c, rest)
  | [] => none

theorem unescape_escapeChar (c : Char) (rest : List Char) :
    unescape ((escapeChar c).toList ++ rest) = some (c, rest) := by
  unfold escapeChar
  split_ifs with hquote hback hn hr ht hzero hprintable
  · rw [hquote]; rfl
  · rw [hback]; rfl
  · rw [hn]; rfl
  · rw [hr]; rfl
  · rw [ht]; rfl
  · rw [hzero]; rfl
  · rw [Char.toString_eq_singleton, String.toList_singleton, List.singleton_append]
    unfold unescape
    split <;> simp_all
  · have hdigits : ∀ d ∈ Nat.toDigits 16 c.toNat, (d != '\x7d') = true :=
      fun d hd => brace_not_mem_toDigits hd
    simp only [toList_escapeCode, List.append_assoc, List.cons_append, List.nil_append]
    rw [unescape, List.takeWhile_append_of_pos hdigits, List.dropWhile_append_of_pos hdigits]
    simp [hexNumber_toDigits]

theorem escapeChar_inj {c d : Char} {r s : List Char}
    (h : (escapeChar c).toList ++ r = (escapeChar d).toList ++ s) : c = d ∧ r = s := by
  have hc := unescape_escapeChar c r
  rw [h, unescape_escapeChar d s] at hc
  cases hc
  exact ⟨rfl, rfl⟩

theorem escapeChar_ne_quote (c : Char) (r s : List Char) :
    (escapeChar c).toList ++ r ≠ '"' :: s := by
  unfold escapeChar
  split_ifs <;> simp_all [toList_escapeCode]

theorem toList_quote (text : String) :
    (quote text).toList =
      '"' :: (text.toList.flatMap (fun c => (escapeChar c).toList) ++ ['"']) := by
  simp [quote, List.flatMap_map]

/-- A quoted text says which text it is, and where it ends. -/
theorem quote_inj {x y : String} {r s : List Char}
    (h : (quote x).toList ++ r = (quote y).toList ++ s) : x = y ∧ r = s := by
  simp only [toList_quote, List.cons_append, List.append_assoc, List.cons.injEq, true_and,
    List.nil_append] at h
  obtain ⟨hxy, hrest⟩ := flatMap_quote_inj (fun _ _ _ _ => escapeChar_inj) escapeChar_ne_quote h
  exact ⟨String.toList_inj.mp hxy, hrest⟩

/-! ## Characters that show -/

/-- The first two ranges of hidden characters have the printable part of ASCII between them. -/
theorem isPrintable_of_ascii {c : Char} (h : 0x20 ≤ c.toNat ∧ c.toNat < 0x7f) :
    isPrintable c = true := by
  obtain ⟨hlow, hhigh⟩ := h
  have hstart : hiddenRanges = (0x0, 0x1f) :: (0x7f, 0xa0) :: hiddenRanges.drop 2 := rfl
  have hfirst : ¬ c.toNat ≤ 0x1f := by omega
  have hsecond : ¬ 0x7f ≤ c.toNat := by omega
  rw [isPrintable, hstart, inRanges, inRanges]
  simp [hfirst, hsecond]

theorem isPrintable_toDigits {n : Nat} {c : Char} (h : c ∈ Nat.toDigits 16 n) :
    isPrintable c = true := by
  obtain ⟨d, hd, rfl⟩ := exists_of_mem_toDigits h
  have hall : ∀ d < 16, 0x20 ≤ d.digitChar.toNat ∧ d.digitChar.toNat < 0x7f := by decide
  exact isPrintable_of_ascii (hall d hd)

theorem isPrintable_escapeChar {c d : Char} (h : d ∈ (escapeChar c).toList) :
    isPrintable d = true := by
  have hshown : ∀ {cs : List Char}, cs.all (fun d => 0x20 ≤ d.toNat && d.toNat < 0x7f) = true →
      d ∈ cs → isPrintable d = true := fun hcs hd =>
    isPrintable_of_ascii (by simpa using List.all_eq_true.mp hcs d hd)
  unfold escapeChar at h
  split_ifs at h with hquote hback hn hr ht hzero hprintable
  · exact hshown (by decide) h
  · exact hshown (by decide) h
  · exact hshown (by decide) h
  · exact hshown (by decide) h
  · exact hshown (by decide) h
  · exact hshown (by decide) h
  · rw [Char.toString_eq_singleton, String.toList_singleton, List.mem_singleton] at h
    rwa [h]
  · rw [toList_escapeCode, List.mem_append, List.mem_append] at h
    rcases h with h | h | h
    · exact hshown (by decide) h
    · exact isPrintable_toDigits h
    · exact hshown (by decide) h

/-- Whatever a text is, no character of its quotation stays hidden. -/
theorem isPrintable_quote {text : String} {c : Char} (h : c ∈ (quote text).toList) :
    isPrintable c = true := by
  have hquote : isPrintable '"' = true := isPrintable_of_ascii (by decide)
  rw [toList_quote, List.mem_cons, List.mem_append, List.mem_singleton, List.mem_flatMap] at h
  rcases h with rfl | ⟨d, -, h⟩ | rfl
  · exact hquote
  · exact isPrintable_escapeChar h
  · exact hquote

end Dump

/-! ## Trees -/

section Trees

variable {f : Token → Token}

theorem Span.dump_map (h : ∀ t, (f t).position = t.position) (s : Span Token) (node : Dump) :
    (s.map f).dump node = s.dump node := by
  rw [Span.dump, Span.map, h, h, Span.dump]

mutual

/-- By induction over the tree, together with expressions, items and their lists. -/
theorem Operand.dump_map (h : ∀ t, (f t).position = t.position) (x : Operand (Span Token)) :
    (x.map (.map f)).dump = x.dump := by
  match x with
  | .not span value =>
    rw [Operand.map, Operand.dump, span.dump_map h, value.dump_map h, Operand.dump]
  | .call span _ args =>
    rw [Operand.map, Operand.dump, span.dump_map h, Expr.dumps_mapAll h args, Operand.dump]
  | .atom span _ => rw [Operand.map, Operand.dump, span.dump_map h, Operand.dump]

theorem Expr.dump_map (h : ∀ t, (f t).position = t.position) (e : Expr (Span Token)) :
    (e.map (.map f)).dump = e.dump := by
  match e with
  | .postfixed span stack =>
    rw [Expr.map, Expr.dump, span.dump_map h, Item.dumps_mapAll h stack, Expr.dump]

theorem Expr.dumps_mapAll (h : ∀ t, (f t).position = t.position) (es : List (Expr (Span Token))) :
    Expr.dumps (Expr.mapAll (.map f) es) = Expr.dumps es := by
  match es with
  | [] => rfl
  | e :: es => rw [Expr.mapAll, Expr.dumps, e.dump_map h, Expr.dumps_mapAll h es, Expr.dumps]

theorem Item.dump_map (h : ∀ t, (f t).position = t.position) (i : Item (Span Token)) :
    (i.map (.map f)).dump = i.dump := by
  match i with
  | .operand value => rw [Item.map, Item.dump, value.dump_map h, Item.dump]
  | .operator value =>
    rw [Item.map, Item.dump, Spanned.map, value.span.dump_map h, Item.dump, id]

theorem Item.dumps_mapAll (h : ∀ t, (f t).position = t.position) (is : List (Item (Span Token))) :
    Item.dumps (Item.mapAll (.map f) is) = Item.dumps is := by
  match is with
  | [] => rfl
  | i :: is => rw [Item.mapAll, Item.dumps, i.dump_map h, Item.dumps_mapAll h is, Item.dumps]

end

variable (h : ∀ t, (f t).position = t.position)

include h

/-- The same for a list that is mapped as any list is. -/
theorem Expr.dumps_map (es : List (Expr (Span Token))) :
    Expr.dumps (es.map (.map (.map f))) = Expr.dumps es := by
  rw [← Expr.mapAll_eq, Expr.dumps_mapAll h]

theorem tableDump_map : tableDump ∘ Spanned.map (.map f) id = tableDump :=
  funext fun t => t.span.dump_map h _

theorem columnDump_map : columnDump ∘ Spanned.map (.map f) id = columnDump :=
  funext fun c => c.span.dump_map h _

theorem Clauses.dump_map (c : Spanned (Span Token) (Clauses (Span Token))) :
    Clauses.dump (c.map (.map f) (.map (.map f))) = Clauses.dump c := by
  obtain ⟨span, tables, filter, order⟩ := c
  cases tables <;> cases filter <;> cases order <;>
    simp [Clauses.dump, Spanned.map, Clauses.map, Span.dump_map h, Expr.dump_map h,
      tableDump_map h, columnDump_map h]

/-- Tokens that are spelled otherwise, or come from another source, make no difference to the dump
of a statement as long as they begin where the others do. -/
theorem Statement.dump_map (s : Statement (Span Token)) : (s.map (.map f)).dump = s.dump := by
  cases s with
  | use span _ => exact span.dump_map h _
  | select span list clauses =>
    cases clauses <;>
      simp [Statement.map, Statement.dump, Span.dump_map h, Expr.dumps_map h, Clauses.dump_map h]
  | insert span into columns values =>
    have hinto : tableDump (into.map (.map f) id) = tableDump into :=
      congrFun (tableDump_map h) into
    simp [Statement.map, Statement.dump, Span.dump_map h, Expr.dumps_map h, hinto,
      columnDump_map h]
  | delete span clauses =>
    rw [Statement.map, Statement.dump, span.dump_map h, Clauses.dump_map h, Statement.dump]

end Trees

end SqlScript

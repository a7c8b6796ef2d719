import SqlScript.Json
import SqlScript.Proofs.Binary64.Numeral

/-!
# Documents can be told by their text

The text of a document says where it ends, so that of two texts with the same beginning both
documents and what stands behind them are the same (`chars_inj`). Numbers end where a comma or a
line does; all else has an end of its own.
-/

namespace SqlScript

/-- Escaped characters up to a closing quote: when no escape begins with the quote and each can be
told from what is behind it, the characters can be told, and so can what is behind the quote. -/
theorem flatMap_quote_inj {escape : Char → List Char}
    (hinj : ∀ c d r s, escape c ++ r = escape d ++ s → c = d ∧ r = s)
    (hquote : ∀ c r s, escape c ++ r ≠ '"' :: s) {cs ds r s : List Char}
    (h : cs.flatMap escape ++ '"' :: r = ds.flatMap escape ++ '"' :: s) : cs = ds ∧ r = s := by
  induction cs generalizing ds with
  | nil =>
    cases ds with
    | nil => exact ⟨rfl, (List.cons.inj h).2⟩
    | cons d ds =>
      rw [List.flatMap_cons, List.append_assoc] at h
      exact absurd h.symm (hquote d _ _)
  | cons c cs ih =>
    rw [List.flatMap_cons, List.append_assoc] at h
    cases ds with
    | nil => exact absurd h (hquote c _ _)
    | cons d ds =>
      rw [List.flatMap_cons, List.append_assoc] at h
      obtain ⟨rfl, hmore⟩ := hinj c d _ _ h
      obtain ⟨rfl, rfl⟩ := ih hmore
      exact ⟨rfl, rfl⟩

namespace Json

/-! ## Strings -/

def hexValue (c : Char) : Nat := "0123456789abcdef".toList.idxOf c

/-- The first character of a string that is not empty, and what is left of it. -/
def unescape : List Char → Option (Char × List Char)
  | '\\' :: 'u' :: '0' :: '0' :: high :: low :: rest =>
    some (Char.ofNat (16 * hexValue high + hexValue low), rest)
  | '\\' :: 'b' :: rest => some ('\x08', rest)
  | '\\' :: 'f' :: rest => some ('\x0c', rest)
  | '\\' :: 'n' :: rest => some ('\n', rest)
  | '\\' :: 'r' :: rest => some ('\r', rest)
  | '\\' :: 't' :: rest => some ('\t', rest)
  | '\\' :: c :: rest => some (c, rest)
  | c :: rest => some (c, rest)
  | [] => none

theorem hexValue_hexDigit {n : Nat} (h : n < 16) : hexValue (hexDigit n) = n := by
  have hall : ∀ n < 16, hexValue (hexDigit n) = n := by decide
  exact hall n h

theorem unescape_escapeChar (c : Char) (rest : List Char) :
    unescape (escapeChar c ++ rest) = some (c, rest) := by
  unfold escapeChar
  split_ifs with hquote hback hb hf hn hr ht hcontrol
  · rw [hquote]; rfl
  · rw [hback]; rfl
  · rw [hb]; rfl
  · rw [hf]; rfl
  · rw [hn]; rfl
  · rw [hr]; rfl
  · rw [ht]; rfl
  · have hlt : c.toNat < 32 := hcontrol
    have hvalue : 16 * (c.toNat / 16) + c.toNat % 16 = c.toNat := Nat.div_add_mod _ _
    simp only [List.cons_append, List.nil_append, unescape]
    rw [hexValue_hexDigit (by omega), hexValue_hexDigit (Nat.mod_lt _ (by decide)), hvalue,
      Char.ofNat_toNat]
  · unfold unescape
    split <;> simp_all

theorem escapeChar_inj {c d : Char} {r s : List Char} (h : escapeChar c ++ r = escapeChar d ++ s) :
    c = d ∧ r = s := by
  have hc := unescape_escapeChar c r
  rw [h, unescape_escapeChar d s] at hc
  cases hc
  exact ⟨rfl, rfl⟩

theorem escapeChar_ne_quote (c : Char) (r s : List Char) : escapeChar c ++ r ≠ '"' :: s := by
  unfold escapeChar
  split_ifs <;> simp_all

/-- A string ends with the first quote that is not escaped. -/
theorem escaped_inj {cs ds r s : List Char}
    (h : cs.flatMap escapeChar ++ '"' :: r = ds.flatMap escapeChar ++ '"' :: s) :
    cs = ds ∧ r = s :=
  flatMap_quote_inj (fun _ _ _ _ => escapeChar_inj) escapeChar_ne_quote h

theorem toList_renderString (text : String) :
    (renderString text).toList = '"' :: (text.toList.flatMap escapeChar ++ ['"']) := by
  simp [renderString]

theorem renderString_inj {x y : String} {r s : List Char}
    (h : (renderString x).toList ++ r = (renderString y).toList ++ s) : x = y ∧ r = s := by
  simp only [toList_renderString, List.cons_append, List.append_assoc, List.cons.injEq,
    true_and, List.nil_append] at h
  obtain ⟨hxy, hrest⟩ := escaped_inj h
  exact ⟨String.toList_inj.mp hxy, hrest⟩

/-! ## Numbers -/

/-- What stands behind an entry: nothing, a comma or a line. -/
def Delimited (rest : List Char) : Prop := Ends (fun c => c != ',' && c != '\n') rest

theorem renderNumber_of_finite {x : Binary64} (hnan : x.isNaN = false)
    (hsign : x.isNegative = false) (hfinite : x.isFinite = true) :
    renderNumber x = Layout.json.writeFinite x.index := by
  rw [renderNumber, if_pos hfinite, Layout.write, hnan, hsign, hfinite]
  simp

theorem index_of_not_finite {x : Binary64} (hnan : x.isNaN = false) (h : ¬ x.isFinite = true) :
    x.index = Binary64.infinityIndex := by
  simp only [Binary64.isFinite, Binary64.isNaN, decide_eq_true_eq,
    decide_eq_false_iff_not] at h hnan
  omega

theorem not_delimiter_of_renderNumber {x : Binary64} (hnan : x.isNaN = false)
    (hsign : x.isNegative = false) :
    ∀ c ∈ (renderNumber x).toList, (c != ',' && c != '\n') = true := by
  by_cases hfinite : x.isFinite = true
  · rw [renderNumber_of_finite hnan hsign hfinite]
    intro c hc
    rcases (Layout.numeral_writeFinite x.index).mem hc with h | h
    · rcases eq_or_ne c ',' with rfl | hcomma
      · exact absurd h (by decide)
      rcases eq_or_ne c '\n' with rfl | hline
      · exact absurd h (by decide)
      simp [hcomma, hline]
    · exact List.all_eq_true.mp
        (by decide : ['.', 'e', '+', '-'].all (fun c => c != ',' && c != '\n') = true) c h
  · rw [renderNumber, if_neg hfinite]
    exact List.all_eq_true.mp (by decide)

theorem renderNumber_ne_null {x : Binary64} (hnan : x.isNaN = false) (hsign : x.isNegative = false)
    (hfinite : x.isFinite = true) : renderNumber x ≠ "null" := by
  intro h
  rw [renderNumber_of_finite hnan hsign hfinite] at h
  obtain ⟨c, cs, htext, hdigit⟩ := (Layout.numeral_writeFinite x.index).exists_cons
  rw [h] at htext
  cases htext
  exact absurd hdigit (by decide)

theorem renderNumber_inj {x y : Binary64} (hx : x.isNaN = false ∧ x.isNegative = false)
    (hy : y.isNaN = false ∧ y.isNegative = false) {r s : List Char} (hr : Delimited r)
    (hs : Delimited s) (h : (renderNumber x).toList ++ r = (renderNumber y).toList ++ s) :
    x = y ∧ r = s := by
  obtain ⟨htext, hrest⟩ := append_inj_of_ends (not_delimiter_of_renderNumber hx.1 hx.2)
    (not_delimiter_of_renderNumber hy.1 hy.2) hr hs h
  have htext : renderNumber x = renderNumber y := String.toList_inj.mp htext
  refine ⟨?_, hrest⟩
  have hindex : x.index = y.index := by
    by_cases hfx : x.isFinite = true
    · have hne := renderNumber_ne_null hx.1 hx.2 hfx
      by_cases hfy : y.isFinite = true
      · rw [renderNumber_of_finite hx.1 hx.2 hfx, renderNumber_of_finite hy.1 hy.2 hfy] at htext
        exact Layout.writeFinite_injective htext
      · rw [htext, renderNumber, if_neg hfy] at hne
        exact absurd rfl hne
    · by_cases hfy : y.isFinite = true
      · have hne := renderNumber_ne_null hy.1 hy.2 hfy
        rw [← htext, renderNumber, if_neg hfx] at hne
        exact absurd rfl hne
      · rw [index_of_not_finite hx.1 hfx, index_of_not_finite hy.1 hfy]
  rw [Binary64.eq_ofIndex hx.1 hx.2, Binary64.eq_ofIndex hy.1 hy.2, hindex]

/-! ## Rows of entries -/

section Rows

variable {α : Type} {level : Nat} {text : α → List Char}

/-- Entries behind a first one. -/
def entries (level : Nat) (text : α → List Char) (xs : List α) : List Char :=
  xs.flatMap fun x => ',' :: ((newline level).toList ++ text x)

theorem delimited_entries (xs : List α) (r : List Char) :
    Delimited (entries level text xs ++ '\n' :: r) := by
  cases xs <;> exact ends_cons.mpr (by decide)

/-- A row goes on behind a comma and ends with the line. -/
theorem row_inj {x y : α} {xs ys : List α} {r s : List Char}
    (hinj : ∀ x' ∈ x :: xs, ∀ y' ∈ y :: ys, ∀ r s, Delimited r → Delimited s →
      text x' ++ r = text y' ++ s → x' = y' ∧ r = s)
    (h : text x ++ (entries level text xs ++ '\n' :: r) =
      text y ++ (entries level text ys ++ '\n' :: s)) :
    x :: xs = y :: ys ∧ r = s := by
  induction xs generalizing x y ys with
  | nil =>
    obtain ⟨rfl, hrest⟩ := hinj x List.mem_cons_self y List.mem_cons_self _ _
      (delimited_entries _ _) (delimited_entries _ _) h
    cases ys with
    | nil => exact ⟨rfl, (List.cons.inj hrest).2⟩
    | cons => simp [entries] at hrest
  | cons x' xs ih =>
    obtain ⟨rfl, hrest⟩ := hinj x List.mem_cons_self y List.mem_cons_self _ _
      (delimited_entries _ _) (delimited_entries _ _) h
    cases ys with
    | nil => simp [entries] at hrest
    | cons y' ys =>
      have hmore : text x' ++ (entries level text xs ++ '\n' :: r) =
          text y' ++ (entries level text ys ++ '\n' :: s) := by
        simpa [entries] using hrest
      have hinj' : ∀ x'' ∈ x' :: xs, ∀ y'' ∈ y' :: ys, ∀ r s, Delimited r → Delimited s →
          text x'' ++ r = text y'' ++ s → x'' = y'' ∧ r = s :=
        fun x'' hx y'' hy => hinj x'' (List.mem_cons_of_mem _ hx) y'' (List.mem_cons_of_mem _ hy)
      obtain ⟨heq, hend⟩ := ih hinj' hmore
      rw [heq]
      exact ⟨rfl, hend⟩

/-- Entries between brackets, on lines of their own. -/
def block (level : Nat) (opening closing : Char) (text : α → List Char) : List α → List Char
  | [] => [opening, closing]
  | x :: xs =>
    opening :: '\n' :: (List.replicate (2 * (level + 1)) ' ' ++
      (text x ++ (entries (level + 1) text xs ++
        '\n' :: (List.replicate (2 * level) ' ' ++ [closing]))))

theorem block_eq_cons (level : Nat) (opening closing : Char) (xs : List α) :
    ∃ cs, block level opening closing text xs = opening :: cs := by
  cases xs <;> exact ⟨_, rfl⟩

theorem block_inj {opening closing : Char} (hclosing : closing ≠ '\n') {xs ys : List α}
    {r s : List Char}
    (hinj : ∀ x ∈ xs, ∀ y ∈ ys, ∀ r s, Delimited r → Delimited s →
      text x ++ r = text y ++ s → x = y ∧ r = s)
    (h : block level opening closing text xs ++ r = block level opening closing text ys ++ s) :
    xs = ys ∧ r = s := by
  cases xs with
  | nil =>
    cases ys with
    | nil => exact ⟨rfl, List.append_cancel_left h⟩
    | cons => exact absurd (List.cons.inj (List.cons.inj h).2).1 hclosing
  | cons x xs =>
    cases ys with
    | nil => exact absurd (List.cons.inj (List.cons.inj h).2).1.symm hclosing
    | cons y ys =>
      simp only [block, List.cons_append, List.append_assoc, List.cons.injEq, true_and,
        List.append_cancel_left_eq] at h
      obtain ⟨heq, hrest⟩ := row_inj hinj h
      have hbehind := List.append_cancel_left hrest
      exact ⟨heq, (List.cons.inj hbehind).2⟩

end Rows

/-! ## Documents -/

/-- A document without `null`, and with numbers that are not negative. -/
inductive Plain : Json → Prop
  | bool (value : Bool) : Plain (.bool value)
  | number {value : Binary64} (h : value.isNaN = false ∧ value.isNegative = false) :
      Plain (.number value)
  | string (value : String) : Plain (.string value)
  | array {items : List Json} (h : ∀ item ∈ items, Plain item) : Plain (.array items)
  | object {fields : List (String × Json)} (h : ∀ field ∈ fields, Plain field.2) :
      Plain (.object fields)

/-- The text of a document whose lines stand at an indentation level. -/
def chars (level : Nat) (j : Json) : List Char := (j.pieces level).flatMap String.toList

/-- The text of a field. -/
def fieldChars (level : Nat) (field : String × Json) : List Char :=
  (renderString field.1).toList ++ ':' :: ' ' :: field.2.chars level

theorem flatMap_fieldPieces (level : Nat) (field : String × Json) :
    (fieldPieces level field).flatMap String.toList = fieldChars level field := by
  obtain ⟨key, value⟩ := field
  simp [fieldPieces, fieldChars, chars]

theorem flatMap_itemPieces (level : Nat) (items : List Json) :
    (itemPieces level items).flatMap String.toList = entries level (chars level) items := by
  induction items with
  | nil => rfl
  | cons item items ih => simp [itemPieces, entries, chars, ih]

theorem flatMap_fieldsPieces (level : Nat) (fields : List (String × Json)) :
    (fieldsPieces level fields).flatMap String.toList =
      entries level (fieldChars level) fields := by
  induction fields with
  | nil => rfl
  | cons field fields ih => simp [fieldsPieces, flatMap_fieldPieces, entries, ih]

theorem chars_number (level : Nat) (x : Binary64) :
    (number x).chars level = (renderNumber x).toList := by
  simp [chars, pieces]

theorem chars_string (level : Nat) (text : String) :
    (string text).chars level = (renderString text).toList := by
  simp [chars, pieces]

theorem chars_array (level : Nat) (items : List Json) :
    (array items).chars level = block level '[' ']' (chars (level + 1)) items := by
  cases items with
  | nil => rfl
  | cons => simp [chars, pieces, flatMap_itemPieces, block, newline]

theorem chars_object (level : Nat) (fields : List (String × Json)) :
    (object fields).chars level =
      block level '\x7b' '\x7d' (fieldChars (level + 1)) fields := by
  cases fields with
  | nil => rfl
  | cons => simp [chars, pieces, flatMap_fieldsPieces, flatMap_fieldPieces, block, newline]

/-! ### The first character -/

/-- What kind of document a text begins. -/
inductive Shape
  | word (value : Bool)
  | number
  | string
  | array
  | object

def Shape.ofChar : Char → Shape
  | 't' => word true
  | 'f' => word false
  | '"' => string
  | '[' => array
  | '\x7b' => object
  | _ => number

def shape : Json → Shape
  | bool value => .word value
  | number _ | null => .number
  | string _ => .string
  | array _ => .array
  | object _ => .object

theorem Shape.ofChar_digit {c : Char} (h : c.isDigit = true) : ofChar c = number := by
  unfold ofChar
  split
  all_goals first | exact absurd h (by decide) | rfl

theorem shape_number {x : Binary64} (h : x.isNaN = false ∧ x.isNegative = false) :
    ∃ c cs, (renderNumber x).toList = c :: cs ∧ Shape.ofChar c = .number := by
  by_cases hfinite : x.isFinite = true
  · rw [renderNumber_of_finite h.1 h.2 hfinite]
    obtain ⟨c, cs, htext, hdigit⟩ := (Layout.numeral_writeFinite x.index).exists_cons
    exact ⟨c, cs, htext, Shape.ofChar_digit hdigit⟩
  · rw [renderNumber, if_neg hfinite]
    exact ⟨_, _, rfl, rfl⟩

theorem chars_eq_cons {j : Json} (h : j.Plain) (level : Nat) :
    ∃ c cs, j.chars level = c :: cs ∧ Shape.ofChar c = j.shape := by
  cases h with
  | bool value => cases value <;> exact ⟨_, _, rfl, rfl⟩
  | number hx =>
    rw [chars_number]
    exact shape_number hx
  | string value =>
    rw [chars_string]
    exact ⟨'"', _, toList_renderString value, rfl⟩
  | @array items _ =>
    obtain ⟨cs, htext⟩ := block_eq_cons level '[' ']' items
    exact ⟨'[', cs, (chars_array level items).trans htext, rfl⟩
  | @object fields _ =>
    obtain ⟨cs, htext⟩ := block_eq_cons level '\x7b' '\x7d' fields
    exact ⟨'\x7b', cs, (chars_object level fields).trans htext, rfl⟩

theorem shape_eq_of_append {j k : Json} (hj : j.Plain) (hk : k.Plain) {level : Nat}
    {r s : List Char} (h : j.chars level ++ r = k.chars level ++ s) : j.shape = k.shape := by
  obtain ⟨c, cs, hc, hjs⟩ := chars_eq_cons hj level
  obtain ⟨d, ds, hd, hks⟩ := chars_eq_cons hk level
  rw [hc, hd] at h
  rw [← hjs, ← hks, (List.cons.inj h).1]

theorem fieldChars_inj {field field' : String × Json} {level : Nat} {r s : List Char}
    (hinj : field.2.chars level ++ r = field'.2.chars level ++ s → field.2 = field'.2 ∧ r = s)
    (h : fieldChars level field ++ r = fieldChars level field' ++ s) :
    field = field' ∧ r = s := by
  simp only [fieldChars, List.append_assoc, List.cons_append] at h
  obtain ⟨hkey, hrest⟩ := renderString_inj h
  obtain ⟨hvalue, rfl⟩ := hinj (by simpa using hrest)
  exact ⟨Prod.ext hkey hvalue, rfl⟩

/-- A text begins with one document at most. -/
theorem chars_inj {j k : Json} (hj : j.Plain) (hk : k.Plain) {level : Nat} {r s : List Char}
    (hr : Delimited r) (hs : Delimited s) (h : j.chars level ++ r = k.chars level ++ s) :
    j = k ∧ r = s := by
  induction hj generalizing k level r s with
  | bool value =>
    have hshape := shape_eq_of_append (.bool value) hk h
    cases hk with
    | bool value' =>
      cases hshape
      exact ⟨rfl, List.append_cancel_left h⟩
    | _ => cases hshape
  | number hx =>
    have hshape := shape_eq_of_append (.number hx) hk h
    cases hk with
    | number hy =>
      rw [chars_number, chars_number] at h
      exact (renderNumber_inj hx hy hr hs h).imp_left (congrArg number)
    | _ => cases hshape
  | string value =>
    have hshape := shape_eq_of_append (.string value) hk h
    cases hk with
    | string value' =>
      rw [chars_string, chars_string] at h
      exact (renderString_inj h).imp_left (congrArg string)
    | _ => cases hshape
  | array hitems ih =>
    have hshape := shape_eq_of_append (.array hitems) hk h
    cases hk with
    | array hitems' =>
      rw [chars_array, chars_array] at h
      refine (block_inj (by decide) ?_ h).imp_left (congrArg array)
      intro x hx y hy r s hr hs h
      exact ih x hx (hitems' y hy) hr hs h
    | _ => cases hshape
  | object hfields ih =>
    have hshape := shape_eq_of_append (.object hfields) hk h
    cases hk with
    | object hfields' =>
      rw [chars_object, chars_object] at h
      refine (block_inj (by decide) ?_ h).imp_left (congrArg object)
      intro x hx y hy r s hr hs h
      exact fieldChars_inj (ih x hx (hfields' y hy) hr hs) h
    | _ => cases hshape

/-- Documents with the same text are the same. -/
theorem pretty_inj {j k : Json} (hj : j.Plain) (hk : k.Plain) (h : j.pretty = k.pretty) :
    j = k := by
  have htext : j.chars 0 ++ [] = k.chars 0 ++ [] := by
    rw [chars, chars, ← String.toList_join, ← String.toList_join]
    exact congrArg (·.toList ++ []) h
  exact (chars_inj hj hk ends_nil ends_nil htext).1

end Json

end SqlScript

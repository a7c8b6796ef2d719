/-! Texts between single quotes, in which a quote is written twice. -/
namespace SqlScript.Quoted

/-- Writes every quote twice. -/
def double : List Char → List Char
  | [] => []
  | '\'' :: text => '\'' :: '\'' :: double text
  | c :: text => c :: double text

/-- A text between quotes. -/
def write (text : List Char) : List Char := '\'' :: double text ++ ['\'']

/-- Reads behind an opening quote: the text up to the quote that closes it, and what follows
that quote. -/
def read? : List Char → Option (List Char × List Char)
  | [] => none
  | '\'' :: '\'' :: input => (read? input).map fun (text, rest) => ('\'' :: text, rest)
  | '\'' :: input => some ([], input)
  | c :: input => (read? input).map fun (text, rest) => (c :: text, rest)

/-- What was read is what the text is written as. -/
theorem double_of_read? {input text rest : List Char} (h : read? input = some (text, rest)) :
    input = double text ++ '\'' :: rest := by
  fun_induction read? input generalizing text with
  | case1 => simp at h
  | case2 input ih =>
    obtain ⟨⟨t, r⟩, ht, heq⟩ := Option.map_eq_some_iff.1 h
    cases heq
    simp [double, ← ih ht]
  | case3 => simp_all [double]
  | case4 c input _ hc ih =>
    obtain ⟨⟨t, r⟩, ht, heq⟩ := Option.map_eq_some_iff.1 h
    cases heq
    rw [ih ht, double, List.cons_append]
    exact hc

end SqlScript.Quoted

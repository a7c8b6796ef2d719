import SqlScript.Operator
import SqlScript.Proofs.Binary64.Digits
import SqlScript.Proofs.Binary64.Exact
import SqlScript.Proofs.Scan.Respelled

/-!
# What can be written

A token stands for a number that is not negative, any text, a name without double quotes, a reserved
word or a symbol, and for each of these there is a lexeme. With blanks between them, lexemes for any
row of such kinds make a source (`exists_source`).
-/

namespace SqlScript

open Lexeme Piece

/-- There is a lexeme that stands for this. -/
def Writable (kind : Kind) : Prop := ∃ raw, Spelled raw kind []

theorem seam_nil : Seam [] := by simp [Seam]

theorem Spelled.writable {raw rest : List Char} {kind : Kind} (h : Spelled raw kind rest) :
    Writable kind :=
  ⟨raw, h.before (.inr seam_nil)⟩

/-! ## Kinds that can be written -/

namespace Writable

theorem number {x : Binary64} (hnan : x.isNaN = false) (hsign : x.isNegative = false) :
    Writable (.number x) := by
  obtain ⟨n, places, hx⟩ := Binary64.exists_ofDecimal x.index
  obtain ⟨whole, fraction, hne, hwhole, hfraction, hlength, hvalue⟩ := exists_places n places
  have h := (Spelled.decimal hne hwhole hfraction ends_nil).writable
  rwa [hvalue, hlength, hx, ← Binary64.eq_ofIndex hnan hsign] at h

theorem string (text : String) : Writable (.string text) := by
  have h : Spelled _ (.string (String.ofList text.toList)) [] := .string ends_nil
  rw [String.ofList_toList] at h
  exact h.writable

theorem name {text : String} (h : '"' ∉ text.toList) : Writable (.name text) := by
  have h : Spelled _ (.name (String.ofList text.toList)) [] := .quoted h
  rw [String.ofList_toList] at h
  exact h.writable

/-- Reserved words are words in upper case. -/
theorem reserved_spelled {word : String} (h : word ∈ Kind.reserved) :
    ∃ first more, word.toList = first :: more ∧ isWordStart first = true ∧
      (∀ c ∈ more, isWordPart c = true) ∧ word.toList.map Char.toUpper = word.toList := by
  have hall : (Kind.reserved.all fun word =>
      (word.toList.head?.map isWordStart).getD false && word.toList.tail.all isWordPart &&
        word.toList.map Char.toUpper == word.toList) = true := by decide +kernel
  have hword := List.all_eq_true.mp hall word h
  simp only [Bool.and_eq_true, List.all_eq_true, beq_iff_eq] at hword
  obtain ⟨⟨hfirst, hmore⟩, hupper⟩ := hword
  cases hlist : word.toList with
  | nil => simp [hlist] at hfirst
  | cons first more =>
    rw [hlist] at hfirst hmore hupper
    exact ⟨first, more, rfl, hfirst, hmore, hupper⟩

theorem keyword {word : String} (h : word ∈ Kind.reserved) : Writable (.keyword word) := by
  obtain ⟨first, more, hlist, hfirst, hmore, hupper⟩ := reserved_spelled h
  have hspelled := (Spelled.word hfirst hmore ends_nil).writable
  rwa [← hlist, hupper, String.ofList_toList, Kind.ofWord, if_pos h] at hspelled

theorem mark {c : Char} (hc : c ∈ ['+', '-', '*', '/', '=', ';', ',', '(', ')', '.']) :
    Writable (.symbol (String.ofList [c])) :=
  ⟨[c], .mark hc⟩

theorem operator (o : Operator) : ∃ kind, Writable kind ∧ Operator.ofKind? kind = some o := by
  cases o with
  | add => exact ⟨_, mark (c := '+') (by decide), rfl⟩
  | sub => exact ⟨_, mark (c := '-') (by decide), rfl⟩
  | mul => exact ⟨_, mark (c := '*') (by decide), rfl⟩
  | div => exact ⟨_, mark (c := '/') (by decide), rfl⟩
  | eq => exact ⟨_, mark (c := '=') (by decide), rfl⟩
  | notEq => exact ⟨_, ⟨_, .notEqual⟩, rfl⟩
  | lt => exact ⟨_, ⟨_, .less ends_nil⟩, rfl⟩
  | gt => exact ⟨_, ⟨_, .greater ends_nil⟩, rfl⟩
  | ltEq => exact ⟨_, ⟨_, .lessEqual⟩, rfl⟩
  | gtEq => exact ⟨_, ⟨_, .greaterEqual⟩, rfl⟩
  | and | or | is => exact ⟨.keyword _, keyword (by decide), Operator.ofSymbol?_symbol _⟩

/-! And nothing else can be written. -/

theorem of_number {x : Binary64} (h : Writable (.number x)) :
    x.isNaN = false ∧ x.isNegative = false := by
  obtain ⟨raw, h⟩ := h
  generalize hkind : Kind.number x = kind at h
  cases h with
  | integer | decimal =>
    cases hkind
    exact ⟨Binary64.isNaN_ofIndex _, Binary64.isNegative_ofIndex _⟩
  | _ => cases hkind

theorem of_name {text : String} (h : Writable (.name text)) : '"' ∉ text.toList := by
  obtain ⟨raw, h⟩ := h
  generalize hkind : Kind.name text = kind at h
  cases h with
  | quoted hname =>
    cases hkind
    simpa using hname
  | @name first more _ hfirst hmore _ _ =>
    cases hkind
    intro hquote
    rw [String.toList_ofList, List.mem_map] at hquote
    obtain ⟨c, hc, hupper⟩ := hquote
    have hpart : isWordPart c = true := by
      rcases List.mem_cons.mp hc with rfl | hc
      · exact isWordPart_of_start hfirst
      · exact hmore c hc
    rw [← isWordPart_toUpper, hupper] at hpart
    exact absurd hpart (by decide)
  | _ => cases hkind

theorem of_keyword {word : String} (h : Writable (.keyword word)) : word ∈ Kind.reserved := by
  obtain ⟨raw, h⟩ := h
  generalize hkind : Kind.keyword word = kind at h
  cases h with
  | keyword _ _ _ hword =>
    cases hkind
    exact hword
  | _ => cases hkind

end Writable

/-! ## Sources -/

theorem Splits.writable {ps : List Piece} {rest : List Char} (h : Splits ps rest) :
    ∀ p ∈ ps, Writable p.kind := by
  induction h with
  | nil => simp
  | cons _ hspelled _ ih => exact List.forall_mem_cons.mpr ⟨hspelled.writable, ih⟩

/-- Lexemes with a blank before each of them. -/
theorem exists_splits {kinds : List Kind} (h : ∀ kind ∈ kinds, Writable kind) :
    ∃ ps, Splits ps [] ∧ ps.map Piece.kind = kinds ∧ Seam (join ps) := by
  induction kinds with
  | nil => exact ⟨[], .nil, rfl, seam_nil⟩
  | cons kind kinds ih =>
    obtain ⟨⟨raw, hraw⟩, hkinds⟩ := List.forall_mem_cons.mp h
    obtain ⟨ps, hsplits, hmap, hseam⟩ := ih hkinds
    have hblank : Blank [' '] := by simp [Blank, Scanner.isBlank]
    refine ⟨⟨[' '], raw, kind⟩ :: ps, .cons hblank ?_ hsplits, by rw [List.map_cons, hmap], ?_⟩
    · exact hraw.before (.inr (by rwa [List.append_nil]))
    · simp [Seam, Piece.text, Scanner.isBlank]

namespace Source

theorem writable {source : Source} {ts : List Token} (h : source.tokens = .ok ts) :
    ∀ t ∈ ts, Writable t.kind := by
  obtain ⟨ps, w, hcut, rfl⟩ := source.exists_split h
  rw [← List.forall_mem_map (f := Token.kind), Piece.kinds_tokens, List.forall_mem_map]
  exact hcut.splits.writable

end Source

theorem exists_source {kinds : List Kind} (h : ∀ kind ∈ kinds, Writable kind) :
    ∃ (source : Source) (ts : List Token), source.tokens = .ok ts ∧ ts.map Token.kind = kinds := by
  obtain ⟨ps, hsplits, hmap, -⟩ := exists_splits h
  let source : Source := ⟨"", String.ofList (join ps)⟩
  have hcut : Cut source.text.toList ps [] [] := ⟨by simp [source], hsplits, by simp [Blank]⟩
  exact ⟨source, _, Source.tokens_of_split hcut, by rw [Piece.kinds_tokens, hmap]⟩

end SqlScript

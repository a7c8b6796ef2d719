import SqlScript.Proofs.Binary64.Numeral
import SqlScript.Proofs.Scan.Written
import SqlScript.Tree.Text

/-!
# The lexemes of postfix text

Strings are displayed between quotes, and names without, so that only bare ones stay lexemes.
Numbers are displayed as digits, or as the word `inf` if they are too large: that is a lexeme as
well, but no number, and no name that is displayed, since those are in upper case. So everything is
known by how it is displayed (`Shown.append_inj`).
-/

namespace SqlScript

open Lexeme

/-! ## Bare names -/

theorem toUpper_toUpper (c : Char) : c.toUpper.toUpper = c.toUpper := by
  by_cases hc : 'a'.val ≤ c.val ∧ c.val ≤ 'z'.val
  · have hlow : 97 ≤ c.toNat := hc.1
    have hhigh : c.toNat ≤ 122 := hc.2
    have hall : ∀ k < 123, 97 ≤ k →
        (Char.ofNat k).toUpper.toUpper = (Char.ofNat k).toUpper := by decide
    have := hall c.toNat (by omega) hlow
    rwa [Char.ofNat_toNat] at this
  · have hself : c.toUpper = c := dif_neg hc
    rw [hself, hself]

/-- A word in upper case that is not reserved. -/
structure Bare (name : String) : Prop where
  word : ∃ first more, name.toList = first :: more ∧ isWordStart first = true ∧
    ∀ c ∈ more, isWordPart c = true
  upper : name.toList.map Char.toUpper = name.toList
  free : name ∉ Kind.reserved

theorem Bare.spelled {name : String} {rest : List Char} (h : Bare name)
    (hrest : Ends isWordPart rest) :
    Spelled name.toList (.name name) rest := by
  obtain ⟨first, more, hlist, hfirst, hmore⟩ := h.word
  have hspelled := Spelled.word hfirst hmore hrest
  rwa [← hlist, h.upper, String.ofList_toList, Kind.ofWord, if_neg h.free] at hspelled

theorem Bare.ne_inf {name : String} (h : Bare name) : name.toList ≠ "inf".toList := by
  intro heq
  have hupper := h.upper
  rw [heq] at hupper
  exact absurd hupper (by decide)

/-- A name that is not written between double quotes is bare. -/
theorem Spelled.bare {name : String} {raw rest : List Char} (h : Spelled raw (.name name) rest)
    (hquote : raw.head? ≠ some '"') : Bare name := by
  generalize hkind : Kind.name name = kind at h
  cases h with
  | quoted => exact absurd rfl hquote
  | @name first more _ hfirst hmore _ hword =>
    cases hkind
    refine ⟨⟨first.toUpper, more.map Char.toUpper, by simp, ?_, ?_⟩, ?_, hword⟩
    · rw [isWordStart_toUpper, hfirst]
    · exact List.forall_mem_map.mpr fun c hc => (isWordPart_toUpper c).trans (hmore c hc)
    · rw [String.toList_ofList, List.map_map]
      exact List.map_congr_left fun c _ => toUpper_toUpper c
  | _ => cases hkind

/-! ## Strings -/

theorem Atom.toList_text_string (v : String) :
    (Atom.string v).text.toList =
      '\'' :: v.toList.flatMap (fun c => if c = '\'' then ['\'', '\''] else [c]) ++ ['\''] := by
  rw [text, String.toList_ofList, Quoted.write, Quoted.double_eq_flatMap]

theorem Atom.spelled_string {rest : List Char} (h : Ends (· = '\'') rest) (v : String) :
    Spelled (Atom.string v).text.toList (.string v) rest := by
  have hspelled : Spelled _ (.string (String.ofList v.toList)) rest := .string h
  rwa [String.ofList_toList, ← toList_text_string] at hspelled

theorem Spelled.raw_of_string {raw rest : List Char} {v : String}
    (h : Spelled raw (.string v) rest) : raw = (Atom.string v).text.toList := by
  generalize hkind : Kind.string v = kind at h
  cases h with
  | string =>
    cases hkind
    rw [Atom.toList_text_string, String.toList_ofList]
  | _ => cases hkind

/-! ## What is displayed -/

/-- How postfix text displays a kind. -/
def Kind.shown : Kind → List Char
  | .number x => (Layout.plain.write x).toList
  | .string v => (Atom.string v).text.toList
  | .name text | .keyword text | .symbol text => text.toList

theorem Kind.shown_number (k : Nat) : (Kind.number (.ofIndex k)).shown =
    if k < Binary64.infinityIndex then (Layout.plain.writeFinite k).toList else "inf".toList := by
  have hnan := Binary64.isNaN_ofIndex k
  have hsign := Binary64.isNegative_ofIndex k
  rw [shown, Layout.write, hnan, hsign, Binary64.isFinite, Binary64.index_ofIndex]
  by_cases hk : k < Binary64.infinityIndex
  · simp [hk, Nat.min_eq_left (Nat.le_of_lt hk)]
  · simp [hk, Nat.min_eq_right (Nat.not_lt.mp hk)]

/-- What an operator is displayed as. -/
def Operator.kind (o : Operator) : Kind :=
  if o.symbol ∈ Kind.reserved then .keyword o.symbol else .symbol o.symbol

/-- Infinity is displayed as a word. -/
def Kind.infinity : Kind := .number (.ofIndex Binary64.infinityIndex)

theorem Kind.shown_infinity : Kind.infinity.shown = "inf".toList := by
  rw [infinity, shown_number, if_neg (Nat.lt_irrefl _)]

/-- In front of this, what is displayed for a kind is a lexeme; for a number it is one that need not
stand for this number. -/
inductive Shown : Kind → List Char → Prop
  | lexeme {kind rest} (h : Spelled kind.shown kind rest) (hnumber : ∀ x, kind ≠ .number x)
      (hinf : kind.shown ≠ Kind.infinity.shown) : Shown kind rest
  | finite {k v rest} (hk : k < Binary64.infinityIndex)
      (h : Spelled (Kind.number (.ofIndex k)).shown (.number v) rest) :
      Shown (.number (.ofIndex k)) rest
  | infinite {rest} (h : Spelled Kind.infinity.shown (.name "INF") rest) : Shown .infinity rest

theorem Shown.append_inj {kind kind' : Kind} {rest rest' : List Char} (h : Shown kind rest)
    (h' : Shown kind' rest') :
    kind.shown ++ rest = kind'.shown ++ rest' ↔ kind = kind' ∧ rest = rest' := by
  constructor
  · intro heq
    cases h with
    | lexeme h hnumber hinf =>
      cases h' with
      | lexeme h' => exact (h.deterministic h' heq).2
      | finite _ h' => exact absurd (h.deterministic h' heq).2.1 (hnumber _)
      | infinite h' => exact absurd (h.deterministic h' heq).1 hinf
    | finite hk h =>
      cases h' with
      | lexeme h' hnumber => exact absurd (h.deterministic h' heq).2.1.symm (hnumber _)
      | finite hk' h' =>
        obtain ⟨hraw, -, rfl⟩ := h.deterministic h' heq
        rw [Kind.shown_number, if_pos hk, Kind.shown_number, if_pos hk'] at hraw
        rw [Layout.plain_writeFinite_injective (String.toList_inj.mp hraw)]
        exact ⟨rfl, rfl⟩
      | infinite h' => cases (h.deterministic h' heq).2.1
    | infinite h =>
      cases h' with
      | lexeme h' _ hinf => exact absurd (h.deterministic h' heq).1.symm hinf
      | finite _ h' => cases (h.deterministic h' heq).2.1
      | infinite h' => exact ⟨rfl, (h.deterministic h' heq).2.2⟩
  · rintro ⟨rfl, rfl⟩
    rfl

/-! ## In front of what closes -/

/-- What may stand behind an operand: a blank, a comma, a closing parenthesis or nothing. -/
def Closes (rest : List Char) : Prop := Ends (· ∉ [' ', ',', ')']) rest

theorem Closes.ends {rest : List Char} (h : Closes rest) {p : Char → Bool}
    (hp : p ' ' = false ∧ p ',' = false ∧ p ')' = false) : Ends p rest := by
  obtain ⟨hblank, hcomma, hclose⟩ := hp
  intro c hc
  have hmem : c ∈ [' ', ',', ')'] := Decidable.not_not.mp (of_decide_eq_false (h c hc))
  simp only [List.mem_cons, List.not_mem_nil, or_false] at hmem
  rcases hmem with rfl | rfl | rfl
  · exact hblank
  · exact hcomma
  · exact hclose

namespace Shown

variable {rest : List Char}

theorem of_bare {name : String} (h : Bare name) (hrest : Ends isWordPart rest) :
    Shown (.name name) rest :=
  .lexeme (h.spelled hrest) nofun (Kind.shown_infinity ▸ h.ne_inf)

theorem of_reserved {word : String} (h : word ∈ Kind.reserved) (hrest : Ends isWordPart rest) :
    Shown (.keyword word) rest := by
  obtain ⟨first, more, hlist, hfirst, hmore, hupper⟩ := Writable.reserved_spelled h
  have hspelled := Spelled.word hfirst hmore hrest
  rw [← hlist, hupper, String.ofList_toList, Kind.ofWord, if_pos h] at hspelled
  refine .lexeme hspelled (by simp) fun heq => ?_
  rw [Kind.shown_infinity] at heq
  rw [show word.toList = _ from heq] at hupper
  exact absurd hupper (by decide)

theorem of_number {x : Binary64} (hx : x.isNaN = false ∧ x.isNegative = false)
    (hrest : Closes rest) : Shown (.number x) rest := by
  rw [Binary64.eq_ofIndex hx.1 hx.2]
  have hle : x.index ≤ Binary64.infinityIndex := Nat.not_lt.mp (of_decide_eq_false hx.1)
  rcases Nat.lt_or_eq_of_le hle with hk | hk
  · obtain ⟨v, hv⟩ := (Layout.places_writeFinite x.index).spelled (hrest.ends (by decide))
    refine .finite hk (v := v) ?_
    rwa [Kind.shown_number, if_pos hk]
  · rw [hk]
    refine .infinite ?_
    rw [Kind.shown_infinity]
    have hmore : ∀ c ∈ ['n', 'f'], isWordPart c = true :=
      List.forall_mem_cons.mpr ⟨by decide, List.forall_mem_singleton.mpr (by decide)⟩
    exact @Spelled.word 'i' _ rest (by decide) hmore (hrest.ends (by decide))

theorem of_string (v : String) (hrest : Closes rest) : Shown (.string v) rest := by
  refine .lexeme (Atom.spelled_string (hrest.ends (by decide)) v) nofun fun heq => ?_
  rw [Kind.shown_infinity, Kind.shown, Atom.toList_text_string] at heq
  cases heq

theorem of_closing : Shown (.symbol ")") rest :=
  .lexeme (.mark (c := ')') (by decide)) nofun (by rw [Kind.shown_infinity]; decide)

theorem of_operator (o : Operator) (hrest : Closes rest) : Shown o.kind rest := by
  have hnumber : ∀ x, o.kind ≠ .number x := by
    intro x
    rw [Operator.kind]
    split <;> exact nofun
  have hinf : o.kind.shown ≠ Kind.infinity.shown := by
    rw [Kind.shown_infinity]
    cases o <;> decide
  cases o with
  | add => exact .lexeme (.mark (c := '+') (by decide)) hnumber hinf
  | sub => exact .lexeme (.mark (c := '-') (by decide)) hnumber hinf
  | mul => exact .lexeme (.mark (c := '*') (by decide)) hnumber hinf
  | div => exact .lexeme (.mark (c := '/') (by decide)) hnumber hinf
  | eq => exact .lexeme (.mark (c := '=') (by decide)) hnumber hinf
  | notEq => exact .lexeme .notEqual hnumber hinf
  | lt => exact .lexeme (.less (hrest.ends (by decide))) hnumber hinf
  | gt => exact .lexeme (.greater (hrest.ends (by decide))) hnumber hinf
  | ltEq => exact .lexeme .lessEqual hnumber hinf
  | gtEq => exact .lexeme .greaterEqual hnumber hinf
  | and | or | is => exact of_reserved (by decide) (hrest.ends (by decide))

end Shown

end SqlScript

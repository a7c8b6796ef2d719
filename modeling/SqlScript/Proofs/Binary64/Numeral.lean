import SqlScript.Binary64.Layout
import SqlScript.Proofs.Binary64.Digits
import SqlScript.Proofs.Binary64.Shortest
import SqlScript.Proofs.Scan.Lexical

/-!
# Numerals

What is written for a finite number is a numeral, digits that may have a point among them and an
exponent behind them (`numeral_writeFinite`). A numeral has one value (`Numeral.unique`), so that
different numbers are written differently (`writeFinite_injective`). In postfix text there are only
the digits and the point (`places_writeFinite`).
-/

namespace SqlScript

/-- Digits behind a point, which is left out with them. -/
def point : List Char → List Char
  | [] => []
  | fraction => '.' :: fraction

/-- Without digits behind it there is no point either. -/
theorem point_of_ne {fraction : List Char} (h : fraction ≠ []) :
    point fraction = '.' :: fraction := by
  cases fraction with
  | nil => exact absurd rfl h
  | cons => rfl

/-- The text of an exponent, which may be left out, and the exponent. -/
inductive Exponent : List Char → Int → Prop
  | absent : Exponent [] 0
  | plus {digits : List Char} (hdigits : ∀ c ∈ digits, c.isDigit = true) :
      Exponent ('e' :: '+' :: digits) (digitsValue digits)
  | minus {digits : List Char} (hdigits : ∀ c ∈ digits, c.isDigit = true) :
      Exponent ('e' :: '-' :: digits) (-digitsValue digits)

/-- The text of a number, and the number. -/
inductive Numeral : List Char → ℚ → Prop
  | intro {whole fraction exponent : List Char} {e : Int} (hne : whole ≠ [])
      (hwhole : ∀ c ∈ whole, c.isDigit = true) (hfraction : ∀ c ∈ fraction, c.isDigit = true)
      (hexponent : Exponent exponent e) :
      Numeral (whole ++ (point fraction ++ exponent))
        (digitsValue (whole ++ fraction) * 10 ^ (e - fraction.length))

/-! ## A numeral has one value -/

/-- No digit comes before the exponent, if there is one. -/
theorem Exponent.ends {text : List Char} {e : Int} (h : Exponent text e) :
    Ends Char.isDigit text := by
  cases h with
  | absent => exact ends_nil
  | plus | minus => exact ends_cons.mpr (by decide)

theorem Exponent.unique {text : List Char} {e e' : Int} (h : Exponent text e)
    (h' : Exponent text e') : e = e' := by
  cases h <;> cases h' <;> rfl

/-- No digit comes before the point, if there is one. -/
theorem ends_point {fraction rest : List Char} (hrest : Ends Char.isDigit rest) :
    Ends Char.isDigit (point fraction ++ rest) := by
  cases fraction with
  | nil => exact hrest
  | cons => exact ends_cons.mpr (by decide)

/-- The fraction and the exponent are told apart by what stands between them. -/
theorem point_inj {fraction fraction' exponent exponent' : List Char} {e e' : Int}
    (hfraction : ∀ c ∈ fraction, c.isDigit = true) (hfraction' : ∀ c ∈ fraction', c.isDigit = true)
    (hexponent : Exponent exponent e) (hexponent' : Exponent exponent' e')
    (h : point fraction ++ exponent = point fraction' ++ exponent') :
    fraction = fraction' ∧ exponent = exponent' := by
  cases fraction with
  | nil =>
    cases fraction' with
    | nil => exact ⟨rfl, h⟩
    | cons => cases hexponent <;> simp [point] at h
  | cons =>
    cases fraction' with
    | nil => cases hexponent' <;> simp [point] at h
    | cons =>
      exact append_inj_of_ends hfraction hfraction' hexponent.ends hexponent'.ends
        (List.cons.inj h).2

/-- A numeral has one value. -/
theorem Numeral.unique {text : List Char} {v v' : ℚ} (h : Numeral text v) (h' : Numeral text v') :
    v = v' := by
  obtain @⟨whole, fraction, exponent, e, -, hwhole, hfraction, hexponent⟩ := h
  generalize htext : whole ++ (point fraction ++ exponent) = text at h'
  obtain ⟨-, hwhole', hfraction', hexponent'⟩ := h'
  obtain ⟨rfl, hrest⟩ := append_inj_of_ends hwhole hwhole' (ends_point hexponent.ends)
    (ends_point hexponent'.ends) htext
  obtain ⟨rfl, rfl⟩ := point_inj hfraction hfraction' hexponent hexponent' hrest
  rw [hexponent.unique hexponent']

/-! ## The characters of a numeral -/

/-- A numeral begins with a digit. -/
theorem Numeral.exists_cons {text : List Char} {v : ℚ} (h : Numeral text v) :
    ∃ c cs, text = c :: cs ∧ c.isDigit = true := by
  obtain ⟨hne, hwhole, -, -⟩ := h
  obtain ⟨c, cs, rfl⟩ := List.exists_cons_of_ne_nil hne
  exact ⟨c, _, rfl, hwhole c List.mem_cons_self⟩

theorem Exponent.mem {text : List Char} {e : Int} (h : Exponent text e) {c : Char} (hc : c ∈ text) :
    c.isDigit = true ∨ c ∈ ['.', 'e', '+', '-'] := by
  cases h with
  | absent => simp at hc
  | plus hdigits | minus hdigits =>
    simp only [List.mem_cons] at hc
    rcases hc with rfl | rfl | hc
    · exact .inr (by decide)
    · exact .inr (by decide)
    · exact .inl (hdigits c hc)

/-- What numerals are made of. -/
theorem Numeral.mem {text : List Char} {v : ℚ} (h : Numeral text v) {c : Char} (hc : c ∈ text) :
    c.isDigit = true ∨ c ∈ ['.', 'e', '+', '-'] := by
  obtain @⟨whole, fraction, exponent, e, -, hwhole, hfraction, hexponent⟩ := h
  have hpoint : c ∈ point fraction → c = '.' ∨ c ∈ fraction := by
    cases fraction <;> simp [point]
  rcases List.mem_append.mp hc with hc | hc
  · exact .inl (hwhole c hc)
  rcases List.mem_append.mp hc with hc | hc
  · rcases hpoint hc with rfl | hc
    · exact .inr (by decide)
    · exact .inl (hfraction c hc)
  · exact hexponent.mem hc

/-! ## What is written is a numeral -/

/-- Digits that may have a point among them denote their value, shifted by the places behind it. -/
inductive Places : List Char → ℚ → Prop
  | intro {whole fraction : List Char} {v : ℚ} (hne : whole ≠ [])
      (hwhole : ∀ c ∈ whole, c.isDigit = true) (hfraction : ∀ c ∈ fraction, c.isDigit = true)
      (hv : v * 10 ^ fraction.length = digitsValue (whole ++ fraction)) :
      Places (whole ++ point fraction) v

/-- A numeral without an exponent is a numeral. -/
theorem Places.numeral {text : List Char} {v : ℚ} (h : Places text v) : Numeral text v := by
  obtain ⟨hne, hwhole, hfraction, hv⟩ := h
  have h := Numeral.intro hne hwhole hfraction .absent
  rwa [← hv, zero_sub, zpow_neg, zpow_natCast, mul_inv_cancel_right₀ (by positivity),
    List.append_nil] at h

/-- And it is one number token, if it is not gone on with. -/
theorem Places.spelled {text rest : List Char} {v : ℚ} (h : Places text v)
    (hrest : Ends (fun c => c.isDigit || c = '.') rest) :
    ∃ x, Spelled text (.number x) rest := by
  obtain @⟨whole, fraction, -, hne, hwhole, hfraction, -⟩ := h
  cases fraction with
  | nil =>
    rw [point, List.append_nil]
    exact ⟨_, .integer hne hwhole hrest⟩
  | cons =>
    exact ⟨_, .decimal hne hwhole hfraction fun c hc => (Bool.or_eq_false_iff.mp (hrest c hc)).1⟩

namespace Layout

theorem toList_zeros (n : Nat) : (zeros n).toList = List.replicate n '0' := by
  rw [zeros, String.toList_ofList]

theorem isDigit_zeros {n : Nat} : ∀ c ∈ List.replicate n '0', c.isDigit = true := by
  intro c hc
  rw [List.eq_of_mem_replicate hc]
  decide

theorem toList_toString (n : Nat) : (toString n).toList = Nat.toDigits 10 n := by
  simp

theorem length_toString (n : Nat) : (toString n).length = (Nat.toDigits 10 n).length := by
  rw [← String.length_toList, toList_toString]

section Point

variable (n places : Nat)

/-- Whole numbers get the zeros that are missing behind them. -/
theorem places_whole (keeps : Bool) :
    Places (toString n ++ zeros places ++ if keeps then ".0" else "").toList (n * 10 ^ places) := by
  have htext : (toString n ++ zeros places ++ if keeps then ".0" else "").toList =
      (Nat.toDigits 10 n ++ List.replicate places '0') ++ point (if keeps then ['0'] else []) := by
    rw [String.toList_append, String.toList_append, toList_toString, toList_zeros]
    cases keeps <;> rfl
  rw [htext]
  refine .intro ?_ ?_ ?_ ?_
  · exact List.append_ne_nil_of_left_ne_nil (toDigits_ne_nil n) _
  · exact List.forall_mem_append.mpr ⟨isDigit_toDigits, isDigit_zeros⟩
  · cases keeps with
    | false => exact List.forall_mem_nil _
    | true => exact List.forall_mem_singleton.mpr (by decide)
  · rw [digitsValue_append, digitsValue_append, digitsValue_zeros, digitsValue_toDigits]
    cases keeps <;> simp [digitsValue]

/-- Small numbers get the zeros that are missing before them. -/
theorem places_below_one (h : (Nat.toDigits 10 n).length ≤ places) :
    Places ("0." ++ zeros (places - (Nat.toDigits 10 n).length) ++ toString n).toList
      (n * (10 ^ places)⁻¹) := by
  have hne : List.replicate (places - (Nat.toDigits 10 n).length) '0' ++ Nat.toDigits 10 n ≠ [] :=
    List.append_ne_nil_of_right_ne_nil _ (toDigits_ne_nil n)
  have htext : ("0." ++ zeros (places - (Nat.toDigits 10 n).length) ++ toString n).toList =
      ['0'] ++ point (List.replicate (places - (Nat.toDigits 10 n).length) '0' ++
        Nat.toDigits 10 n) := by
    rw [String.toList_append, String.toList_append, toList_toString, toList_zeros, point_of_ne hne]
    rfl
  have hlength : (List.replicate (places - (Nat.toDigits 10 n).length) '0' ++
      Nat.toDigits 10 n).length = places := by
    simp [h]
  rw [htext]
  refine .intro ?_ ?_ ?_ ?_
  · decide
  · exact List.forall_mem_singleton.mpr (by decide)
  · exact List.forall_mem_append.mpr ⟨isDigit_zeros, isDigit_toDigits⟩
  · rw [hlength, inv_mul_cancel_right₀ (by positivity), digitsValue_append, digitsValue_append,
      digitsValue_zeros, digitsValue_toDigits]
    simp [digitsValue]

/-- In all others the point stands among the digits. -/
theorem places_within (h : places < (Nat.toDigits 10 n).length) (hplaces : 0 < places) :
    Places ((Nat.toDigits 10 n).take ((Nat.toDigits 10 n).length - places) ++
      '.' :: (Nat.toDigits 10 n).drop ((Nat.toDigits 10 n).length - places))
      (n * (10 ^ places)⁻¹) := by
  have hlength : ((Nat.toDigits 10 n).drop ((Nat.toDigits 10 n).length - places)).length =
      places := by
    rw [List.length_drop]
    omega
  rw [← point_of_ne (List.ne_nil_of_length_pos (by omega))]
  refine .intro ?_ ?_ ?_ ?_
  · exact List.ne_nil_of_length_pos (by rw [List.length_take]; omega)
  · exact fun c hc => isDigit_toDigits c (List.mem_of_mem_take hc)
  · exact fun c hc => isDigit_toDigits c (List.mem_of_mem_drop hc)
  · rw [hlength, List.take_append_drop, inv_mul_cancel_right₀ (by positivity),
      digitsValue_toDigits]

end Point

/-- Wherever the point stands, the numeral has the value of the decimal. -/
theorem places_writePoint (l : Layout) (d : Decimal) :
    Places (l.writePoint d).toList d.value := by
  obtain ⟨n, e⟩ := d
  rw [writePoint, Decimal.value]
  cases e with
  | ofNat m =>
    simp only [Int.ofNat_eq_natCast, Int.natCast_nonneg, if_true, Int.toNat_natCast,
      zpow_natCast]
    exact places_whole n m l.keepsPoint
  | negSucc m =>
    have hneg : ¬ 0 ≤ Int.negSucc m := by omega
    have hplaces : (-Int.negSucc m).toNat = m + 1 := rfl
    simp only [if_neg hneg, hplaces, zpow_negSucc, length_toString, toList_toString]
    split
    case isTrue h => exact places_below_one n (m + 1) h
    case isFalse h =>
      have hlength : ((Nat.toDigits 10 n).take ((Nat.toDigits 10 n).length - (m + 1))).length =
          (Nat.toDigits 10 n).length - (m + 1) := by
        simp
      simpa [hlength] using places_within n (m + 1) (Nat.not_le.mp h) m.succ_pos

/-- With a sign or without, as the layout says. -/
theorem exponent_text (e : Int) :
    Exponent ("e" ++ (if json.plusSign && 0 ≤ e then "+" else "") ++ toString e).toList e := by
  have hrepr : toString e = if 0 ≤ e then e.toNat.repr else "-" ++ (-e).toNat.repr := Int.repr_eq_if
  rw [hrepr, show json.plusSign = true from rfl]
  by_cases h : 0 ≤ e
  · have htext : ("e" ++ "+" ++ e.toNat.repr).toList = 'e' :: '+' :: Nat.toDigits 10 e.toNat := by
      simp
    have hvalue : (digitsValue (Nat.toDigits 10 e.toNat) : Int) = e := by
      rw [digitsValue_toDigits, Int.toNat_of_nonneg h]
    simpa [h, htext, hvalue] using Exponent.plus (isDigit_toDigits (n := e.toNat))
  · have htext : ("e" ++ "" ++ ("-" ++ (-e).toNat.repr)).toList =
        'e' :: '-' :: Nat.toDigits 10 (-e).toNat := by
      simp
    have hvalue : -(digitsValue (Nat.toDigits 10 (-e).toNat) : Int) = e := by
      rw [digitsValue_toDigits, Int.toNat_of_nonneg (by omega), Int.neg_neg]
    simpa [h, htext, hvalue] using Exponent.minus (isDigit_toDigits (n := (-e).toNat))

/-- One digit before the point and the others behind it. -/
theorem numeral_writeExponent {d : Decimal} (h : d.coefficient ≠ 0) :
    Numeral (json.writeExponent d).toList d.value := by
  obtain ⟨c, cs, hdigits⟩ := List.exists_cons_of_ne_nil (toDigits_ne_nil d.coefficient)
  have hall : ∀ c ∈ Nat.toDigits 10 d.coefficient, c.isDigit = true := isDigit_toDigits
  have hlen := length_toDigits h
  have hvalue := digitsValue_toDigits d.coefficient
  rw [hdigits] at hall hlen
  rw [hdigits, ← List.singleton_append] at hvalue
  have hnum := Numeral.intro (List.cons_ne_nil c []) (by simp [hall])
    (fun c hc => hall c (List.mem_cons_of_mem _ hc)) (exponent_text d.leading)
  have hexp : d.leading - cs.length = d.exponent := by
    rw [Decimal.leading, ← hlen, List.length_cons]
    omega
  rw [hexp, hvalue] at hnum
  rw [writeExponent]
  simp only [toList_toString, hdigits]
  cases cs with
  | nil => simpa [point, String.append_assoc, Decimal.value] using hnum
  | cons => simpa [point, String.append_assoc, Decimal.value] using hnum

/-- What is written has the value of the shortest decimal. -/
theorem numeral_writeFinite (k : Nat) :
    Numeral (json.writeFinite k).toList (Binary64.shortest .even k).value := by
  rw [writeFinite]
  split
  case isTrue => exact (places_writePoint json _).numeral
  case isFalse h =>
    have hreads := Binary64.reads_shortest .even k
    refine numeral_writeExponent fun (hzero : (Binary64.shortest .even k).coefficient = 0) => h ?_
    -- a decimal without digits is zero, which is written with a point
    rw [Decimal.value, hzero, Nat.cast_zero, zero_mul, ← Binary64.value_shortest_zero .even]
      at hreads
    simp [hreads.unique (Binary64.reads_shortest .even 0)]

/-- So different numbers are written differently. -/
theorem writeFinite_injective {k l : Nat} (h : json.writeFinite k = json.writeFinite l) :
    k = l := by
  have hk := numeral_writeFinite k
  rw [h] at hk
  exact Binary64.shortest_value_inj (hk.unique (numeral_writeFinite l))

/-! ## Postfix text -/

/-- The plain layout does without exponents. -/
theorem places_writeFinite (k : Nat) :
    Places (plain.writeFinite k).toList (Binary64.shortest .up k).value := by
  rw [writeFinite, if_pos (by simp [plain])]
  exact places_writePoint plain _

/-- And in that one, too, different numbers are written differently. -/
theorem plain_writeFinite_injective {k l : Nat} (h : plain.writeFinite k = plain.writeFinite l) :
    k = l := by
  have hk := (places_writeFinite k).numeral
  rw [h] at hk
  exact Binary64.shortest_value_inj (hk.unique (places_writeFinite l).numeral)

end Layout

end SqlScript

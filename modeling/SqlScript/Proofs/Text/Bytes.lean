import SqlScript.Proofs.Text.Place

/-!
# Bytes of a text

A text can be looked at byte by byte and cut by byte offsets. All bytes of a character that takes
several are 128 or more, so a smaller byte is a character, and one begins there
(`SuffixAt.of_peek?`).
-/

namespace SqlScript

/-- The bytes of a text in UTF-8. -/
def bytes (text : List Char) : List UInt8 := text.flatMap String.utf8EncodeChar

/-- The byte at an offset, as the character with that number. -/
def peek? (text : List Char) (offset : Nat) : Option Char :=
  (bytes text)[offset]?.map fun b => Char.ofNat b.toNat

/-- The part of a text between two offsets. There is none unless both are boundaries, in order. -/
def slice? (text : List Char) (start stop : Nat) : Option (List Char) := do
  let (before, _) ← cutAt? stop text
  let (_, part) ← cutAt? start before
  return part

/-- The first byte of a character, as the character with that number. -/
def lead (c : Char) : Char := Char.ofNat ((String.utf8EncodeChar c).headD 0).toNat

/-- What stands at an offset and behind it. -/
def SuffixAt (text : List Char) (offset : Nat) (after : List Char) : Prop :=
  ∃ before, text = before ++ after ∧ byteLength before = offset

theorem length_bytes (text : List Char) : (bytes text).length = byteLength text := by
  induction text with
  | nil => rfl
  | cons c text ih =>
    rw [bytes, List.flatMap_cons, List.length_append, String.length_utf8EncodeChar, byteLength_cons]
    exact congrArg _ ih

theorem lt_of_peek? {text : List Char} {offset : Nat} {b : Char} (h : peek? text offset = some b) :
    offset < byteLength text := by
  obtain ⟨_, hbyte, -⟩ := Option.map_eq_some_iff.mp h
  rw [← length_bytes]
  exact (List.getElem?_eq_some_iff.mp hbyte).1

theorem lt_of_any_peek? {text : List Char} {offset : Nat} {p : Char → Bool}
    (h : (peek? text offset).any p = true) : offset < byteLength text := by
  obtain ⟨_, hpeek, -⟩ := (Option.any_eq_true _ _).mp h
  exact lt_of_peek? hpeek

theorem slice?_eq_some_iff {text part : List Char} {start stop : Nat} :
    slice? text start stop = some part ↔
      ∃ after, SuffixAt text start (part ++ after) ∧ stop = start + byteLength part := by
  constructor
  · intro h
    obtain ⟨⟨before, after⟩, hstop, h⟩ := Option.bind_eq_some_iff.mp h
    obtain ⟨⟨front, part'⟩, hstart, h⟩ := Option.bind_eq_some_iff.mp h
    cases h
    refine ⟨after, ⟨front, ?_, byteLength_of_cutAt? hstart⟩, ?_⟩
    · rw [← List.append_assoc, cutAt?_append hstart, cutAt?_append hstop]
    · rw [← byteLength_of_cutAt? hstop, ← byteLength_of_cutAt? hstart, ← cutAt?_append hstart,
        byteLength_append]
  · rintro ⟨after, ⟨front, rfl, rfl⟩, rfl⟩
    have hstop := cutAt?_byteLength (front ++ part) after
    rw [byteLength_append, List.append_assoc] at hstop
    simp only [slice?, hstop, Option.bind_eq_bind, Option.bind_some, cutAt?_byteLength]
    rfl

/-! ## Characters of one byte -/

theorem utf8EncodeChar_of_ascii {c : Char} (h : c.toNat < 128) :
    String.utf8EncodeChar c = [UInt8.ofNat c.toNat] := by
  have hle : c.val.toNat ≤ 127 := Nat.le_of_lt_succ h
  simp only [String.utf8EncodeChar, if_pos hle]
  rfl

theorem utf8Size_of_ascii {c : Char} (h : c.toNat < 128) : c.utf8Size = 1 := by
  rw [← String.length_utf8EncodeChar, utf8EncodeChar_of_ascii h]
  rfl

theorem le_of_mem_utf8EncodeChar {c : Char} (h : 128 ≤ c.toNat) {b : UInt8}
    (hb : b ∈ String.utf8EncodeChar c) : 128 ≤ b.toNat := by
  have hlt : ¬ c.val.toNat ≤ 127 := Nat.not_le.mpr h
  simp only [String.utf8EncodeChar, if_neg hlt] at hb
  split at hb
  · simp only [List.mem_cons, List.not_mem_nil, or_false] at hb
    rcases hb with rfl | rfl <;> rw [UInt8.toNat_ofNat'] <;> omega
  · split at hb <;> simp only [List.mem_cons, List.not_mem_nil, or_false] at hb
    · rcases hb with rfl | rfl | rfl <;> rw [UInt8.toNat_ofNat'] <;> omega
    · rcases hb with rfl | rfl | rfl | rfl <;> rw [UInt8.toNat_ofNat'] <;> omega

theorem toNat_ofNat_byte (b : UInt8) : (Char.ofNat b.toNat).toNat = b.toNat := by
  have hlt := b.toNat_lt
  have hvalid : b.toNat.isValidChar := .inl (by omega)
  rw [Char.ofNat, dif_pos hvalid]
  rfl

theorem lead_of_ascii {c : Char} (h : c.toNat < 128) : lead c = c := by
  have hbyte : (UInt8.ofNat c.toNat).toNat = c.toNat := by
    rw [UInt8.toNat_ofNat']
    omega
  rw [lead, utf8EncodeChar_of_ascii h, List.headD_cons, hbyte, Char.ofNat_toNat]

theorem le_lead {c : Char} (h : 128 ≤ c.toNat) : 128 ≤ (lead c).toNat := by
  obtain ⟨b, more, hbytes⟩ := List.exists_cons_of_ne_nil (@String.utf8EncodeChar_ne_nil c)
  rw [lead, hbytes, List.headD_cons, toNat_ofNat_byte]
  exact le_of_mem_utf8EncodeChar h (by rw [hbytes]; exact List.mem_cons_self)

/-- What only characters of one byte are can be told from the first byte. -/
theorem apply_lead {p : Char → Bool} (hp : ∀ c, p c = true → c.toNat < 128) (c : Char) :
    p (lead c) = p c := by
  by_cases hc : c.toNat < 128
  · rw [lead_of_ascii hc]
  · have hnot : ∀ d : Char, 128 ≤ d.toNat → p d = false := fun d hd =>
      Bool.eq_false_iff.mpr fun htrue => absurd (hp d htrue) (Nat.not_lt.mpr hd)
    rw [hnot c (Nat.le_of_not_lt hc), hnot _ (le_lead (Nat.le_of_not_lt hc))]

/-! ## What stands at an offset -/

theorem boundary_iff_suffixAt {text : List Char} {offset : Nat} :
    Boundary text offset ↔ ∃ after, SuffixAt text offset after :=
  ⟨fun ⟨before, after, h⟩ => ⟨after, before, h⟩, fun ⟨after, before, h⟩ => ⟨before, after, h⟩⟩

namespace SuffixAt

variable {text piece after : List Char} {offset : Nat} {c : Char}

theorem zero (text : List Char) : SuffixAt text 0 text := ⟨[], rfl, rfl⟩

theorem boundary (h : SuffixAt text offset after) : Boundary text offset :=
  boundary_iff_suffixAt.mpr ⟨after, h⟩

theorem offset_add (h : SuffixAt text offset after) :
    offset + byteLength after = byteLength text := by
  obtain ⟨before, rfl, rfl⟩ := h
  rw [byteLength_append]

theorem le (h : SuffixAt text offset after) : offset ≤ byteLength text := by
  have := h.offset_add
  omega

theorem skip (h : SuffixAt text offset (piece ++ after)) :
    SuffixAt text (offset + byteLength piece) after := by
  obtain ⟨before, rfl, rfl⟩ := h
  exact ⟨before ++ piece, (List.append_assoc before piece after).symm, byteLength_append _ _⟩

theorem next (h : SuffixAt text offset (c :: after)) (hc : c.toNat < 128) :
    SuffixAt text (offset + 1) after := by
  have hskip : SuffixAt text (offset + byteLength [c]) after := skip h
  rwa [byteLength_cons, byteLength_nil, utf8Size_of_ascii hc] at hskip

theorem slice?_eq (h : SuffixAt text offset (piece ++ after)) :
    slice? text offset (offset + byteLength piece) = some piece :=
  slice?_eq_some_iff.mpr ⟨after, h, rfl⟩

/-- What is left can be taken as a whole. -/
theorem slice?_end (h : SuffixAt text offset after) :
    slice? text offset (byteLength text) = some after := by
  rw [← h.offset_add]
  exact slice?_eq (by rwa [List.append_nil])

theorem peek?_eq (h : SuffixAt text offset after) : peek? text offset = after.head?.map lead := by
  obtain ⟨before, rfl, rfl⟩ := h
  rw [peek?, bytes, List.flatMap_append, ← length_bytes, bytes,
    List.getElem?_append_right (Nat.le_refl _), Nat.sub_self]
  cases after with
  | nil => rfl
  | cons c after =>
    obtain ⟨b, more, hbytes⟩ := List.exists_cons_of_ne_nil (@String.utf8EncodeChar_ne_nil c)
    rw [List.flatMap_cons, List.head?_cons, Option.map_some, lead, hbytes]
    rfl

/-- Characters of one byte are told apart by what is looked at. -/
theorem any_peek? (h : SuffixAt text offset after) {p : Char → Bool}
    (hp : ∀ c, p c = true → c.toNat < 128) : (peek? text offset).any p = after.head?.any p := by
  rw [h.peek?_eq]
  cases after with
  | nil => rfl
  | cons c after => exact apply_lead hp c

theorem peek?_eq_some_iff (h : SuffixAt text offset after) (hc : c.toNat < 128) :
    peek? text offset = some c ↔ after.head? = some c := by
  have hany := h.any_peek? (p := (· == c)) fun d hd => by rwa [eq_of_beq hd]
  have hiff : ∀ o : Option Char, o.any (· == c) = true ↔ o = some c := by
    rintro (_ | d) <;> simp
  rw [← hiff, hany, hiff]

/-- A byte below 128 is the character at its offset. -/
theorem of_peek? (h : peek? text offset = some c) (hc : c.toNat < 128) :
    ∃ after, SuffixAt text offset (c :: after) := by
  induction text generalizing offset with
  | nil => cases h
  | cons d text ih =>
    by_cases hlt : offset < d.utf8Size
    · by_cases hd : d.toNat < 128
      · obtain rfl : offset = 0 := by
          rw [utf8Size_of_ascii hd] at hlt
          omega
        have hhead := (zero (d :: text)).peek?_eq
        rw [h, List.head?_cons, Option.map_some, lead_of_ascii hd] at hhead
        cases hhead
        exact ⟨text, zero _⟩
      · -- the byte is one of several of `d`
        obtain ⟨b, hbyte, rfl⟩ := Option.map_eq_some_iff.mp h
        rw [bytes, List.flatMap_cons,
          List.getElem?_append_left (by rwa [String.length_utf8EncodeChar])] at hbyte
        have hle := le_of_mem_utf8EncodeChar (Nat.le_of_not_lt hd) (List.mem_of_getElem? hbyte)
        rw [toNat_ofNat_byte] at hc
        omega
    · have hrest : peek? text (offset - d.utf8Size) = some c := by
        rw [← h, peek?, peek?, bytes, bytes, List.flatMap_cons, List.getElem?_append_right,
          String.length_utf8EncodeChar]
        rw [String.length_utf8EncodeChar]
        exact Nat.le_of_not_lt hlt
      obtain ⟨after, before, rfl, hoffset⟩ := ih hrest
      refine ⟨after, d :: before, rfl, ?_⟩
      rw [byteLength_cons, hoffset]
      omega

end SuffixAt

end SqlScript

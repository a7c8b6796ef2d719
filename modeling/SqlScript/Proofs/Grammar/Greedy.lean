import SqlScript.Proofs.Grammar.Reads

/-!
# Rules that take as much as they can

A piece is a start of a construct if some construct goes on from it. For a `Greedy` rule the longest
start at the front of the input tells what is read: the construct is absent if there is none, it
matches if the longest start is a whole construct, and otherwise it is malformed.
-/

namespace SqlScript

variable {σ α : Type}

/-- Some phrase begins with these tokens. -/
def Viable (phrase : Input σ → α → Prop) (start : Input σ) : Prop :=
  ∃ more x, phrase (start ++ more) x

/-- So many tokens at the front of an input, and no more, are the start of a phrase. -/
structure LongestStart (phrase : Input σ → α → Prop) (I : Input σ) (m : Nat) : Prop where
  le : m ≤ I.length
  viable : Viable phrase (I.take m)
  longest : ∀ k ≤ I.length, Viable phrase (I.take k) → k ≤ m

section Start

variable {phrase : Input σ → α → Prop} {I : Input σ}

theorem Viable.of_phrase {x : α} (h : phrase I x) : Viable phrase I :=
  ⟨[], x, by rwa [List.append_nil]⟩

theorem Viable.of_append {J : Input σ} (h : Viable phrase (I ++ J)) : Viable phrase I := by
  obtain ⟨more, x, hphrase⟩ := h
  exact ⟨J ++ more, x, by rwa [← List.append_assoc]⟩

theorem exists_longestStart (hnil : Viable phrase []) (I : Input σ) :
    ∃ m, LongestStart phrase I m := by
  have hbound : ∀ n ≤ I.length, ∃ m ≤ n, Viable phrase (I.take m) ∧
      ∀ k ≤ n, Viable phrase (I.take k) → k ≤ m := by
    intro n hn
    induction n with
    | zero => exact ⟨0, Nat.le_refl 0, by simpa using hnil, fun k hk _ => hk⟩
    | succ n ih =>
      obtain ⟨m, hm, hviable, hlongest⟩ := ih (Nat.le_of_succ_le hn)
      by_cases hnext : Viable phrase (I.take (n + 1))
      · exact ⟨n + 1, Nat.le_refl _, hnext, fun k hk _ => hk⟩
      · refine ⟨m, Nat.le_succ_of_le hm, hviable, fun k hk hk' => ?_⟩
        rcases Nat.lt_or_eq_of_le hk with hlt | rfl
        · exact hlongest k (Nat.le_of_lt_succ hlt) hk'
        · exact (hnext hk').elim
  obtain ⟨m, hm, hviable, hlongest⟩ := hbound I.length (Nat.le_refl _)
  exact ⟨m, hm, hviable, hlongest⟩

end Start

namespace Grammar

/-- A piece is a phrase, which is read whenever the next token does not go on from it. What goes on
from it is the start of a longer phrase. -/
structure Settles (rule : Nat → Rule σ α) (phrase : Input σ → α → Prop) (I : Input σ) (x : α)
    (goesOn : Kind → Bool) : Prop where
  isPhrase : phrase I x
  reads : ∀ {d rest}, I.length ≤ d → Stops goesOn rest → (rule d).read (I ++ rest) = .matched x rest
  continued : ∀ {kind m}, goesOn kind = true → Viable phrase (I ++ [(kind, m)])

structure Greedy (rule : Nat → Rule σ α) (phrase : Input σ → α → Prop) : Prop where
  sound : ∀ {d I x rest}, (rule d).read I = .matched x rest →
    ∃ used goesOn, I = used ++ rest ∧ Settles rule phrase used x goesOn ∧ Stops goesOn rest
  settles : ∀ {I x}, phrase I x → ∃ goesOn, Settles rule phrase I x goesOn
  absent : ∀ {d I}, 0 < d →
    ((rule d).read I = .absent ↔ ∀ first ∈ I.head?, ¬ Viable phrase [first])

namespace Greedy

variable {rule : Nat → Rule σ α} {phrase : Input σ → α → Prop} (h : Greedy rule phrase)
include h

theorem absent_iff {d m : Nat} {I : Input σ} (hd : 0 < d) (hm : LongestStart phrase I m) :
    (rule d).read I = .absent ↔ m = 0 := by
  rw [h.absent hd]
  cases I with
  | nil => simpa using hm.le
  | cons first more =>
    have hone : Viable phrase [first] → 1 ≤ m := hm.longest 1 (by simp)
    constructor
    · intro habsent
      cases m with
      | zero => rfl
      | succ m =>
        have hviable := hm.viable
        rw [List.take_succ_cons, ← List.singleton_append] at hviable
        exact (habsent first rfl hviable.of_append).elim
    · rintro rfl _ ⟨⟩ hviable
      have := hone hviable
      omega

/-- What is read is a whole phrase, and nothing longer begins like it. -/
theorem matched_longest {d m : Nat} {I rest : Input σ} {x}
    (hread : (rule d).read I = .matched x rest) (hm : LongestStart phrase I m) :
    phrase (I.take m) x ∧ rest = I.drop m := by
  obtain ⟨used, goesOn, rfl, hused, hstop⟩ := h.sound hread
  suffices hlength : m = used.length by
    rw [hlength, List.take_left, List.drop_left]
    exact ⟨hused.isPhrase, rfl⟩
  have hstart : used.length ≤ m :=
    hm.longest _ (by simp) (by simpa using Viable.of_phrase hused.isPhrase)
  refine Nat.le_antisymm (Nat.le_of_not_lt fun hlt => ?_) hstart
  cases rest with
  | nil => exact Nat.not_le_of_lt hlt (by simpa using hm.le)
  | cons first rest =>
    -- a longer phrase would be read to its end, but the shorter one is read before this token
    have htake : (used ++ first :: rest).take m =
        used ++ first :: rest.take (m - used.length - 1) := by
      rw [List.take_append, List.take_of_length_le (Nat.le_of_lt hlt)]
      obtain ⟨k, hk⟩ : ∃ k, m - used.length = k + 1 := ⟨m - used.length - 1, by omega⟩
      rw [hk, List.take_succ_cons, Nat.add_sub_cancel]
    obtain ⟨more, y, hlonger⟩ := hm.viable
    rw [htake, List.append_assoc, List.cons_append] at hlonger
    obtain ⟨_, hsettles⟩ := h.settles hlonger
    have hwhole := hsettles.reads (Nat.le_refl _) .nil
    have hstop' : Stops goesOn (first :: (rest.take (m - used.length - 1) ++ more)) := hstop
    have hfit : used.length ≤
        (used ++ first :: (rest.take (m - used.length - 1) ++ more)).length := by simp
    have hpart := hused.reads hfit hstop'
    rw [List.append_nil] at hwhole
    cases hwhole.symm.trans hpart

/-- The longest start is read if it is a phrase. -/
theorem matched_of_longest {d m : Nat} {I : Input σ} {x} (hd : I.length ≤ d)
    (hm : LongestStart phrase I m) (hphrase : phrase (I.take m) x) :
    (rule d).read I = .matched x (I.drop m) := by
  obtain ⟨goesOn, hsettles⟩ := h.settles hphrase
  have hstop : Stops goesOn (I.drop m) := by
    intro first hfirst
    refine Bool.eq_false_iff.mpr fun hgoes => ?_
    have hget : I[m]? = some first := by rwa [List.head?_drop] at hfirst
    obtain ⟨hlt, -⟩ := List.getElem?_eq_some_iff.mp hget
    have hviable : Viable phrase (I.take (m + 1)) := by
      rw [List.take_add_one, hget]
      exact hsettles.continued hgoes
    exact Nat.not_succ_le_self m (hm.longest _ hlt hviable)
  have hread := hsettles.reads (d := d) (by rw [List.length_take]; omega) hstop
  rwa [List.take_append_drop] at hread

end Greedy

end Grammar

end SqlScript

import SqlScript.Grammar.Cause
import SqlScript.Span

/-! Reading constructs off the front of a list of tokens. Of a token a rule sees the kind alone;
its mark (the token itself, or whatever the caller attaches) is passed on to the result. A `Rule`
may find its construct absent, and takes at least one token when it matches. A `Step` is what
follows once a construct has begun: it succeeds or fails, and never gives tokens back. -/
namespace SqlScript

/-- Tokens still to be read: kinds with their marks. -/
abbrev Input (σ : Type) := List (Kind × σ)

/-- Why reading failed and the mark of the token it failed at; no mark stands for the end. -/
structure Failure (σ : Type) where
  cause : Cause
  mark : Option σ
deriving DecidableEq, Repr

namespace Failure

variable {σ : Type}

/-- A failure at the first token of what is left. -/
def atFront (cause : Cause) (input : Input σ) : Failure σ := ⟨cause, input.head?.map Prod.snd⟩

end Failure

inductive Outcome (σ α : Type)
  /-- The construct does not begin here. -/
  | absent
  | matched (value : α) (rest : Input σ)
  /-- The construct begins here but is broken. -/
  | malformed (failure : Failure σ)

structure Rule (σ α : Type) where
  read : Input σ → Outcome σ α
  shrinks : ∀ {input value rest}, read input = .matched value rest → rest.length < input.length

structure Step (σ α : Type) where
  read : Input σ → Except (Failure σ) (α × Input σ)
  shrinks : ∀ {input value rest}, read input = .ok (value, rest) → rest.length ≤ input.length

namespace Step

variable {σ α β : Type}

instance : Monad (Step σ) where
  pure value := ⟨fun input => .ok (value, input), fun h => by cases h; exact Nat.le_refl _⟩
  bind step next := {
    read input :=
      match step.read input with
      | .ok (value, rest) => (next value).read rest
      | .error failure => .error failure
    shrinks {input value rest} h := by
      split at h
      · next value middle hstep => exact Nat.le_trans ((next value).shrinks h) (step.shrinks hstep)
      · cases h }

@[simp] theorem read_pure (value : α) (input : Input σ) :
    (pure value : Step σ α).read input = .ok (value, input) := rfl

@[simp] theorem read_bind (step : Step σ α) (next : α → Step σ β) (input : Input σ) :
    (step >>= next).read input =
      match step.read input with
      | .ok (value, rest) => (next value).read rest
      | .error failure => .error failure := rfl

/-- The kind and mark of the next token, which stays where it is. -/
def peek : Step σ (Option (Kind × σ)) :=
  ⟨fun input => .ok (input.head?, input), fun h => by cases h; exact Nat.le_refl _⟩

end Step

namespace Rule

variable {σ α β : Type}

/-- One token, if it is of a kind that is accepted. -/
def token (accept : Kind → Option α) : Rule σ (Spanned (Span σ) α) where
  read
    | [] => .absent
    | (kind, mark) :: rest =>
      match accept kind with
      | some value => .matched ⟨.single mark, value⟩ rest
      | none => .absent
  shrinks {input value rest} h := by
    split at h
    · cases h
    · split at h
      · cases h
        exact Nat.lt_succ_self _
      · cases h

/-- One token of exactly this kind. -/
def exactly (kind : Kind) : Rule σ (Spanned (Span σ) Unit) :=
  token fun k => if k = kind then some () else none

def keyword (word : String) : Rule σ (Spanned (Span σ) Unit) := exactly (.keyword word)

def symbol (text : String) : Rule σ (Spanned (Span σ) Unit) := exactly (.symbol text)

/-- A name, bare or quoted. -/
def name : Rule σ (Spanned (Span σ) String) :=
  token fun
    | .name text => some text
    | _ => none

def map (f : α → β) (rule : Rule σ α) : Rule σ β where
  read input :=
    match rule.read input with
    | .absent => .absent
    | .matched value rest => .matched (f value) rest
    | .malformed failure => .malformed failure
  shrinks {input value rest} h := by
    split at h
    · cases h
    · next hrule => cases h; exact rule.shrinks hrule
    · cases h

/-- The first of two rules whose construct is not absent. -/
protected def orElse (rule : Rule σ α) (other : Unit → Rule σ α) : Rule σ α where
  read input :=
    match rule.read input with
    | .absent => (other ()).read input
    | outcome => outcome
  shrinks {input value rest} h := by
    split at h
    · exact (other ()).shrinks h
    · exact rule.shrinks h

instance : OrElse (Rule σ α) := ⟨Rule.orElse⟩

/-- Two constructs in a row; both are absent if the second is. -/
def both (rule : Rule σ α) (other : Rule σ β) : Rule σ (α × β) where
  read input :=
    match rule.read input with
    | .absent => .absent
    | .malformed failure => .malformed failure
    | .matched value middle =>
      match other.read middle with
      | .absent => .absent
      | .malformed failure => .malformed failure
      | .matched second rest => .matched (value, second) rest
  shrinks {input value rest} h := by
    split at h
    · cases h
    · cases h
    · next hrule =>
      split at h
      · cases h
      · cases h
      · next hother => cases h; exact Nat.lt_trans (other.shrinks hother) (rule.shrinks hrule)

/-- A construct and what has to follow it. -/
def andThen (rule : Rule σ α) (next : α → Step σ β) : Rule σ β where
  read input :=
    match rule.read input with
    | .absent => .absent
    | .malformed failure => .malformed failure
    | .matched value middle =>
      match (next value).read middle with
      | .ok (result, rest) => .matched result rest
      | .error failure => .malformed failure
  shrinks {input value rest} h := by
    split at h
    · cases h
    · cases h
    · next value middle hrule =>
      split at h
      · next hnext =>
        cases h
        exact Nat.lt_of_le_of_lt ((next value).shrinks hnext) (rule.shrinks hrule)
      · cases h

/-- Fails wherever it is tried. -/
def refuse (cause : Cause) : Rule σ α where
  read input := .malformed (.atFront cause input)
  shrinks h := by cases h

/-- A rule that is built when it is needed. -/
def delay (rule : Unit → Rule σ α) : Rule σ α where
  read input := (rule ()).read input
  shrinks h := (rule ()).shrinks h

/-- The construct has to be here; if it is absent, reading fails as `failure` says. -/
def requireOr (rule : Rule σ α) (failure : Input σ → Failure σ) : Step σ α where
  read input :=
    match rule.read input with
    | .absent => .error (failure input)
    | .matched value rest => .ok (value, rest)
    | .malformed failure => .error failure
  shrinks {input value rest} h := by
    split at h
    · cases h
    · next hrule => cases h; exact Nat.le_of_lt (rule.shrinks hrule)
    · cases h

/-- The construct has to be here; if it is absent, reading fails at the next token. -/
def require (rule : Rule σ α) (cause : Cause) : Step σ α := rule.requireOr (.atFront cause)

/-- The construct may be absent. -/
def optional (rule : Rule σ α) : Step σ (Option α) where
  read input :=
    match rule.read input with
    | .absent => .ok (none, input)
    | .matched value rest => .ok (some value, rest)
    | .malformed failure => .error failure
  shrinks {input value rest} h := by
    split at h
    · cases h; exact Nat.le_refl _
    · next hrule => cases h; exact Nat.le_of_lt (rule.shrinks hrule)
    · cases h

/-- Reads separators, each with an item that has to follow it, as long as there are any. -/
def readLinks (item : Rule σ α) (separator : Rule σ β) (missing : β → Cause) (input : Input σ) :
    Except (Failure σ) (List (β × α) × Input σ) :=
  match _h : separator.read input with
  | .absent => .ok ([], input)
  | .malformed failure => .error failure
  | .matched link middle =>
    match _h' : (item.require (missing link)).read middle with
    | .error failure => .error failure
    | .ok (value, rest) =>
      match readLinks item separator missing rest with
      | .error failure => .error failure
      | .ok (links, stop) => .ok ((link, value) :: links, stop)
termination_by input.length
decreasing_by
  exact Nat.lt_of_le_of_lt ((item.require (missing link)).shrinks _h') (separator.shrinks _h)

theorem length_le_of_readLinks {item : Rule σ α} {separator : Rule σ β} {missing : β → Cause}
    {input rest : Input σ} {links : List (β × α)}
    (h : readLinks item separator missing input = .ok (links, rest)) :
    rest.length ≤ input.length := by
  fun_induction readLinks item separator missing input generalizing links rest with
  | case1 => cases h; exact Nat.le_refl _
  | case2 => cases h
  | case3 => cases h
  | case4 => cases h
  | case5 input link middle hlink value after hvalue links' stop hmore ih =>
    cases h
    have := ih hmore
    have := (item.require (missing link)).shrinks hvalue
    have := separator.shrinks hlink
    omega

/-- Separators, each with an item that has to follow it, as long as there are any. -/
def links (item : Rule σ α) (separator : Rule σ β) (missing : β → Cause) : Step σ (List (β × α)) :=
  ⟨readLinks item separator missing, length_le_of_readLinks⟩

/-- Items with separators between them. -/
def chain (item : Rule σ α) (separator : Rule σ β) (missing : β → Cause) :
    Rule σ (α × List (β × α)) :=
  item.andThen fun first => do
    let more ← item.links separator missing
    pure (first, more)

/-- Items with commas between them, at least one. -/
def commaList (item : Rule σ α) (kind : Listed) : Rule σ (α × List α) :=
  (item.chain (symbol ",") fun _ => .listed kind).map fun (first, more) =>
    (first, more.map Prod.snd)

end Rule

end SqlScript

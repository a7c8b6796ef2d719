/-! Where something was read: the first and the last piece it was read from. -/
namespace SqlScript

/-- The first and the last piece that something was read from. -/
structure Span (σ : Type) where
  first : σ
  last : σ
deriving DecidableEq, Repr

namespace Span

variable {σ : Type}

/-- The span of a single piece. -/
def single (mark : σ) : Span σ := ⟨mark, mark⟩

/-- From the beginning of one span to the end of another. -/
def through (s t : Span σ) : Span σ := ⟨s.first, t.last⟩

end Span

/-- Something with an annotation, such as its span. -/
structure Spanned (α β : Type) where
  span : α
  node : β
deriving DecidableEq, Repr

end SqlScript

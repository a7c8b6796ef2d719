import SqlScript.Tree.Basic

/-! Equality of trees. Spans do not count, and numbers are compared as numbers: a tree that holds
something that is not a number is not even equal to itself. -/
namespace SqlScript

variable {α β : Type}

def Atom.same : Atom → Atom → Bool
  | number x, number y => x.same y
  | x, y => x == y

mutual

def Operand.same : Operand α → Operand β → Bool
  | .not _ x, .not _ y => x.same y
  | .call _ f xs, .call _ g ys => f == g && Expr.sameAll xs ys
  | .atom _ x, .atom _ y => x.same y
  | _, _ => false

def Expr.same : Expr α → Expr β → Bool
  | .postfixed _ xs, .postfixed _ ys => Item.sameAll xs ys

def Expr.sameAll : List (Expr α) → List (Expr β) → Bool
  | [], [] => true
  | x :: xs, y :: ys => x.same y && Expr.sameAll xs ys
  | _, _ => false

def Item.same : Item α → Item β → Bool
  | .operand x, .operand y => x.same y
  | .operator x, .operator y => x.node == y.node
  | _, _ => false

def Item.sameAll : List (Item α) → List (Item β) → Bool
  | [], [] => true
  | x :: xs, y :: ys => x.same y && Item.sameAll xs ys
  | _, _ => false

end

/-- Are two optional things both absent, or both there and equal? -/
def sameOption (same : α → β → Bool) : Option α → Option β → Bool
  | none, none => true
  | some x, some y => same x y
  | _, _ => false

/-- Do two lists have equal entries, one after another? -/
def sameList (same : α → β → Bool) : List α → List β → Bool
  | [], [] => true
  | x :: xs, y :: ys => same x y && sameList same xs ys
  | _, _ => false

/-- Equality of what is annotated. -/
def Spanned.same {γ δ : Type} (same : γ → δ → Bool) (x : Spanned α γ) (y : Spanned β δ) : Bool :=
  same x.node y.node

def Clauses.same (c : Clauses α) (d : Clauses β) : Bool :=
  sameOption (Spanned.same (sameList (Spanned.same (· == ·)))) c.tables d.tables &&
  sameOption (Spanned.same Expr.same) c.filter d.filter &&
  sameOption (Spanned.same (sameList (Spanned.same (· == ·)))) c.order d.order

def Statement.same : Statement α → Statement β → Bool
  | use _ x, use _ y => x == y
  | select _ xs c, select _ ys d => Expr.sameAll xs ys && sameOption (Spanned.same Clauses.same) c d
  | insert _ t cs xs, insert _ u ds ys =>
    t.node == u.node && sameList (Spanned.same (· == ·)) cs ds && Expr.sameAll xs ys
  | delete _ c, delete _ d => c.node.same d.node
  | _, _ => false

end SqlScript

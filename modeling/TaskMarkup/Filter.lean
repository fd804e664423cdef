import TaskMarkup.Span

namespace TaskMarkup

/-- What a query can ask of a task. Without a name or number the question is whether the task has
any. -/
inductive Predicate
  | any
  | due
  | done
  | pin
  | hide
  | tag (name : Option String)
  | track (id : Option Nat)
  | fuzzy (needle : String)
  | literal (needle : String)
  | priority (n : Option Nat)
  deriving DecidableEq, Repr

inductive Operator
  | and | or
  deriving DecidableEq, Repr

inductive Filter
  | predicate (span : Span) (p : Predicate)
  | not (span : Span) (operand : Filter)
  | binary (span : Span) (op : Operator) (left right : Filter)
  deriving DecidableEq, Repr

def Predicate.name : Predicate → String
  | .any => "Any"
  | .due => "Due"
  | .done => "Done"
  | .pin => "Pin"
  | .hide => "Hide"
  | .tag _ => "Tag"
  | .track _ => "Track"
  | .fuzzy _ => "Fuzzy"
  | .literal _ => "String"
  | .priority _ => "Priority"

namespace Operator

def name : Operator → String
  | .and => "And"
  | .or => "Or"

def sign : Operator → Char
  | .and => '&'
  | .or => '|'

def precedence : Operator → Nat
  | .and => 3
  | .or => 2

end Operator

namespace Filter

def span : Filter → Span
  | .predicate s _ | .not s _ | .binary s _ _ _ => s

def withSpan (s : Span) : Filter → Filter
  | .predicate _ p => .predicate s p
  | .not _ f => .not s f
  | .binary _ op f g => .binary s op f g

def kindName : Filter → String
  | .predicate _ p => p.name
  | .not .. => "Not"
  | .binary _ op _ _ => op.name

def operands : Filter → List Filter
  | .predicate .. => []
  | .not _ f => [f]
  | .binary _ _ f g => [f, g]

def sameStructure : Filter → Filter → Bool
  | .predicate _ p, .predicate _ q => p = q
  | .not _ f, .not _ g => f.sameStructure g
  | .binary _ op f g, .binary _ op' f' g' =>
    op = op' && f.sameStructure f' && g.sameStructure g'
  | _, _ => false

theorem sameStructure_refl (f : Filter) : f.sameStructure f := by
  induction f with
  | predicate => simp [sameStructure]
  | not _ _ ih => simpa [sameStructure] using ih
  | binary _ _ _ _ ihf ihg => simp [sameStructure, ihf, ihg]

end Filter

end TaskMarkup

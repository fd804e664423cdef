import TaskMarkup.Block
import TaskMarkup.Filter
import TaskMarkup.Filter.Score

namespace TaskMarkup

abbrev Scorer := String → String → Option Nat

def Text.occursIn (part : List Char) : List Char → Bool
  | [] => part.isEmpty
  | c :: cs => part.isPrefixOf (c :: cs) || occursIn part cs

def Predicate.holds (scorer : Scorer) (task : Task) (text : String) : Predicate → Bool
  | .any => true
  | .due => task.due.isSome
  | .done => task.done
  | .pin => task.pin
  | .hide => task.hide
  | .tag none => !task.tags.isEmpty
  | .tag (some name) => name ∈ task.tags
  | .track none => task.track.isSome
  | .track (some id) => task.track = some id
  | .fuzzy needle => (scorer needle text).isSome
  | .literal needle => Text.occursIn needle.toList text.toList
  | .priority none => task.priority.isSome
  | .priority (some n) => task.priority = some n

namespace Filter

def holds (scorer : Scorer) (task : Task) (text : String) : Filter → Bool
  | .predicate _ p => p.holds scorer task text
  | .not _ f => !f.holds scorer task text
  | .binary _ .and f g => f.holds scorer task text && g.holds scorer task text
  | .binary _ .or f g => f.holds scorer task text || g.holds scorer task text

def matchesBlock (scorer : Scorer) (f : Filter) (b : Block) : Bool :=
  f.holds scorer (b.task?.getD {}) b.plainText

end Filter

end TaskMarkup

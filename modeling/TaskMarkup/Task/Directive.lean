import TaskMarkup.Task

namespace TaskMarkup

inductive Directive
  | tag (name : String)
  | priority (n : Nat)
  | done
  | hide
  | pin
  | due (date : Date)
  | created (date : Date)
  | track (id : Nat)
  | image (image : Image)
  | admonition (kind : Admonition)
  deriving DecidableEq

/-- A later directive of the same kind replaces an earlier one; tags are collected. -/
def Task.obey (t : Task) : Directive → Task
  | .tag name => { t with tags := t.tags.insert name }
  | .priority n => { t with priority := some n }
  | .done => { t with done := true }
  | .hide => { t with hide := true }
  | .pin => { t with pin := true }
  | .due date => { t with due := some date }
  | .created date => { t with created := some date }
  | .track id => { t with track := some id }
  | .image image => { t with image := some image }
  | .admonition kind => { t with admonition := some kind }

inductive DirectiveError
  | unknown (offset : Nat)
  | invalidDate (offset : Nat)
  | missingValue (directive : String) (offset : Nat)
  | invalidTag (tag : String)
  | noDelimiter (offset : Nat)
  deriving DecidableEq, Repr

def DirectiveError.message : DirectiveError → String
  | .unknown offset => s!"unknown directive at offset {offset}"
  | .invalidDate offset => s!"invalid date at offset {offset}"
  | .missingValue directive offset => s!"missing value for `{directive}` at offset {offset}"
  | .invalidTag tag => s!"`{tag}` is not a valid tag"
  | .noDelimiter offset => s!"directive at offset {offset} is not followed by a delimiter"

end TaskMarkup

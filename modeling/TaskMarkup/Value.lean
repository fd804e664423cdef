
namespace TaskMarkup

inductive Value
  | null
  | bool (b : Bool)
  | number (n : Nat)
  | text (s : String)
  | list (items : List Value)
  | object (fields : List (String × Value))
  | variant (name : String) (content : Value)
  deriving Repr

namespace Value

def optional {α : Type} (encode : α → Value) : Option α → Value
  | none => .null
  | some a => encode a

end Value

end TaskMarkup

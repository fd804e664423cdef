
namespace TaskMarkup.Text

def inRanges (ranges : List (Nat × Nat)) (c : Char) : Bool :=
  match ranges.find? (c.toNat ≤ ·.2) with
  | none => false
  | some (first, _) => first ≤ c.toNat

end TaskMarkup.Text

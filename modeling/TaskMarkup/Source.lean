import TaskMarkup.Text.Bytes

namespace TaskMarkup

structure Source where
  chars : List Char
  size : Nat
  size_eq : size = Text.byteSize chars := by rfl

namespace Source

def ofChars (cs : List Char) : Source := { chars := cs, size := Text.byteSize cs }

def ofString (s : String) : Source := ofChars s.toList

def fromOffset (s : Source) (start : Nat) : List Char := Text.dropBytes s.chars start

def repeats (s : Source) (c : Char) (start : Nat) : Nat :=
  ((s.fromOffset start).takeWhile (· == c)).length

def charAround? (s : Source) (offset : Nat) : Option (Char × Nat) :=
  Text.charAround? 0 s.chars offset

def slice (s : Source) (start stop : Nat) : List Char := Text.slice s.chars start stop

end Source

end TaskMarkup


namespace TaskMarkup.Text

/-- A character of which some bytes are missing: how many, the range of the next, and the bits so
far. -/
structure PartialChar where
  missing : Nat
  low : Nat
  high : Nat
  bits : Nat

def startChar (b : Nat) : Option (Char ⊕ PartialChar) :=
  if b < 0x80 then some (.inl (Char.ofNat b))
  else if 0xC2 ≤ b && b < 0xE0 then some (.inr ⟨1, 0x80, 0xBF, b - 0xC0⟩)
  else if b = 0xE0 then some (.inr ⟨2, 0xA0, 0xBF, 0⟩)
  else if b = 0xED then some (.inr ⟨2, 0x80, 0x9F, 0xD⟩)
  else if 0xE1 ≤ b && b < 0xF0 then some (.inr ⟨2, 0x80, 0xBF, b - 0xE0⟩)
  else if b = 0xF0 then some (.inr ⟨3, 0x90, 0xBF, 0⟩)
  else if 0xF1 ≤ b && b < 0xF4 then some (.inr ⟨3, 0x80, 0xBF, b - 0xF0⟩)
  else if b = 0xF4 then some (.inr ⟨3, 0x80, 0x8F, 4⟩)
  else none

def decodeByte (pending : Option PartialChar) (b : Nat) :
    Option PartialChar × List (Option Char) :=
  let fresh (before : List (Option Char)) :=
    match startChar b with
    | none => (none, before ++ [none])
    | some (.inl c) => (none, before ++ [some c])
    | some (.inr p) => (some p, before)
  match pending with
  | none => fresh []
  | some p =>
    if p.low ≤ b && b ≤ p.high then
      let bits := p.bits * 64 + (b - 0x80)
      if p.missing = 1 then (none, [some (Char.ofNat bits)])
      else (some ⟨p.missing - 1, 0x80, 0xBF, bits⟩, [])
    else fresh [none]

def decodeFrom (pending : Option PartialChar) : List UInt8 → List (Option Char)
  | [] => if pending.isSome then [none] else []
  | b :: bs =>
    let (pending, cs) := decodeByte pending b.toNat
    cs ++ decodeFrom pending bs

def decode? (bytes : List UInt8) : Option String :=
  ((decodeFrom none bytes).mapM id).map String.ofList

def dropMark (cs : List Char) : List Char := if cs.head? = some '\ufeff' then cs.drop 1 else cs

end TaskMarkup.Text

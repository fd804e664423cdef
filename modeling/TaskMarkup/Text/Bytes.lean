/-!
Characters measured in UTF-8 bytes. Every offset of the library counts bytes, so a stretch of text
is cut out by two byte offsets. The main statement is that cutting at a boundary gives back what was
written between the two ends.
-/

namespace TaskMarkup.Text

def byteSize : List Char → Nat
  | [] => 0
  | c :: cs => c.utf8Size + byteSize cs

/-- What follows the first `n` bytes; a character that reaches past them is dropped with them. -/
def dropBytes : List Char → Nat → List Char
  | [], _ => []
  | c :: cs, n => if n = 0 then c :: cs else dropBytes cs (n - c.utf8Size)

def takeBytes : List Char → Nat → List Char
  | [], _ => []
  | c :: cs, n => if n = 0 then [] else c :: takeBytes cs (n - c.utf8Size)

def slice (cs : List Char) (start stop : Nat) : List Char :=
  takeBytes (dropBytes cs start) (stop - start)

def charAround? (first : Nat) : List Char → (offset : Nat) → Option (Char × Nat)
  | [], _ => none
  | c :: cs, offset =>
    if offset ≤ first then none
    else if offset < first + c.utf8Size then some (c, first)
    else charAround? (first + c.utf8Size) cs offset

@[simp] theorem byteSize_nil : byteSize [] = 0 := rfl

@[simp] theorem byteSize_cons (c : Char) (cs : List Char) :
    byteSize (c :: cs) = c.utf8Size + byteSize cs := rfl

@[simp] theorem byteSize_append (as bs : List Char) :
    byteSize (as ++ bs) = byteSize as + byteSize bs := by
  induction as with
  | nil => simp
  | cons a as ih => simp [ih, Nat.add_assoc]

theorem byteSize_replicate (n : Nat) (c : Char) :
    byteSize (List.replicate n c) = n * c.utf8Size := by
  induction n with
  | zero => simp
  | succ n ih => rw [List.replicate_succ, byteSize_cons, ih, Nat.succ_mul, Nat.add_comm]

theorem byteSize_eq_zero_iff {cs : List Char} : byteSize cs = 0 ↔ cs = [] := by
  cases cs with
  | nil => simp
  | cons c cs =>
    have := c.utf8Size_pos
    simp only [byteSize_cons, reduceCtorEq, iff_false]
    omega

theorem length_le_byteSize (cs : List Char) : cs.length ≤ byteSize cs := by
  induction cs with
  | nil => simp
  | cons c cs ih =>
    have := c.utf8Size_pos
    simp only [List.length_cons, byteSize_cons]
    omega

@[simp] theorem dropBytes_zero (cs : List Char) : dropBytes cs 0 = cs := by
  cases cs <;> simp [dropBytes]

@[simp] theorem takeBytes_zero (cs : List Char) : takeBytes cs 0 = [] := by
  cases cs <;> simp [takeBytes]

@[simp] theorem dropBytes_byteSize_append (as bs : List Char) :
    dropBytes (as ++ bs) (byteSize as) = bs := by
  induction as with
  | nil => simp
  | cons a as ih =>
    have := a.utf8Size_pos
    have h : a.utf8Size ≠ 0 := by omega
    simp [dropBytes, h, ih]

@[simp] theorem takeBytes_byteSize_append (as bs : List Char) :
    takeBytes (as ++ bs) (byteSize as) = as := by
  induction as with
  | nil => simp
  | cons a as ih =>
    have := a.utf8Size_pos
    have h : a.utf8Size ≠ 0 := by omega
    simp [takeBytes, h, ih]

theorem slice_append_append (as bs cs : List Char) :
    slice (as ++ bs ++ cs) (byteSize as) (byteSize (as ++ bs)) = bs := by
  simp [slice]

end TaskMarkup.Text

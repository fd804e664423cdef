
namespace TaskMarkup

def isTagName (name : List Char) : Bool :=
  !name.isEmpty && name.all fun c => c.isAlphanum || c == '_'

structure Tags where
  toList : List String
  sorted : toList.Pairwise (· < ·)
  deriving DecidableEq

namespace Tags

def empty : Tags := ⟨[], .nil⟩

def isEmpty (s : Tags) : Bool := s.toList.isEmpty

instance : Membership String Tags where
  mem s t := t ∈ s.toList

instance (s : Tags) (t : String) : Decidable (t ∈ s) :=
  inferInstanceAs (Decidable (t ∈ s.toList))

def insertSorted (t : String) : List String → List String
  | [] => [t]
  | u :: us =>
    if t < u then t :: u :: us
    else if t = u then u :: us
    else u :: insertSorted t us

theorem mem_insertSorted {t u : String} {l : List String} :
    u ∈ insertSorted t l ↔ u = t ∨ u ∈ l := by
  induction l with
  | nil => simp [insertSorted]
  | cons v vs ih =>
    simp only [insertSorted]
    split
    · simp
    · split
      · next h => subst h; simp
      · simp only [List.mem_cons, ih]
        constructor <;> rintro (h | h | h) <;> simp [h]

theorem lt_of_not_lt_of_ne {a b : String} (h : ¬ a < b) (hne : a ≠ b) : b < a :=
  Decidable.byContradiction fun h' => hne (Std.Trichotomous.trichotomous a b h h')

theorem sorted_insertSorted (t : String) {l : List String} (h : l.Pairwise (· < ·)) :
    (insertSorted t l).Pairwise (· < ·) := by
  induction l with
  | nil => simp [insertSorted]
  | cons u us ih =>
    obtain ⟨hu, hus⟩ := List.pairwise_cons.1 h
    simp only [insertSorted]
    split
    · next htu =>
      refine List.pairwise_cons.2 ⟨fun v hv => ?_, h⟩
      rcases List.mem_cons.1 hv with rfl | hv
      · exact htu
      · exact String.lt_trans htu (hu v hv)
    · next htu =>
      split
      · exact h
      · next hne =>
        refine List.pairwise_cons.2 ⟨fun v hv => ?_, ih hus⟩
        rcases mem_insertSorted.1 hv with rfl | hv
        · exact lt_of_not_lt_of_ne htu hne
        · exact hu v hv

def insert (t : String) (s : Tags) : Tags :=
  ⟨insertSorted t s.toList, sorted_insertSorted t s.sorted⟩

def erase (t : String) (s : Tags) : Tags :=
  ⟨s.toList.filter (· ≠ t), s.sorted.filter _⟩

theorem mem_insert {t u : String} {s : Tags} : u ∈ s.insert t ↔ u = t ∨ u ∈ s :=
  mem_insertSorted

theorem mem_erase {t u : String} {s : Tags} : u ∈ s.erase t ↔ u ∈ s ∧ u ≠ t := by
  show u ∈ s.toList.filter (· ≠ t) ↔ u ∈ s.toList ∧ u ≠ t
  simp

end Tags

end TaskMarkup

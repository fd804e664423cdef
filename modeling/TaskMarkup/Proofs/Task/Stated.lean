import TaskMarkup.Proofs.Grammar.Directive

namespace TaskMarkup

theorem Tags.insertSorted_of_lt {t : String} {l : List String} (h : ∀ u ∈ l, u < t) :
    insertSorted t l = l ++ [t] := by
  induction l with
  | nil => rfl
  | cons u us ih =>
    have hut := h u (by simp)
    have hne : t ≠ u := by
      rintro rfl
      exact absurd hut (String.lt_irrefl _)
    rw [insertSorted, if_neg (String.lt_asymm hut), if_neg hne, ih fun v hv => h v (by simp [hv])]
    rfl

theorem Tags.foldl_insert (s : Tags) (l : List String) (h : (s.toList ++ l).Pairwise (· < ·)) :
    (l.foldl (fun s name => s.insert name) s).toList = s.toList ++ l := by
  induction l generalizing s with
  | nil => simp
  | cons name l ih =>
    have hlt : ∀ u ∈ s.toList, u < name := fun u hu =>
      (List.pairwise_append.1 h).2.2 u hu name (by simp)
    have hinsert : (s.insert name).toList = s.toList ++ [name] := insertSorted_of_lt hlt
    rw [List.foldl_cons, ih, hinsert, List.append_assoc, List.singleton_append]
    rw [hinsert, List.append_assoc]
    exact h

def Directive.text : Directive → String
  | .tag name => "@" ++ name
  | .priority n => s!"#{n}"
  | .done => "x"
  | .hide => "hide"
  | .pin => "pin"
  | .due date => "due:" ++ date.text
  | .created date => "created:" ++ date.text
  | .track id => s!"track:{id}"
  | .image i => i.directive
  | .admonition kind => kind.keyword

namespace Task

def stated (t : Task) : List Directive :=
  (if t.done then [.done] else []) ++
  (if t.pin then [.pin] else []) ++
  (if t.hide then [.hide] else []) ++
  (t.priority.map .priority).toList ++
  (t.track.map .track).toList ++
  (t.created.map .created).toList ++
  (t.due.map .due).toList ++
  (t.admonition.map .admonition).toList ++
  (t.image.map .image).toList ++
  t.tags.toList.map .tag

theorem directives_eq_map_text (t : Task) : t.directives = t.stated.map Directive.text := by
  simp only [directives, stated, List.map_append, List.map_map, Option.toList_map,
    apply_ite (List.map Directive.text), List.map_nil, List.map_cons]
  rfl

section

variable (t : Task)

theorem foldl_obey_done (b : Bool) : (if b then [.done] else []).foldl obey t =
    { t with done := b || t.done } := by
  cases b <;> rfl

theorem foldl_obey_pin (b : Bool) : (if b then [.pin] else []).foldl obey t =
    { t with pin := b || t.pin } := by
  cases b <;> rfl

theorem foldl_obey_hide (b : Bool) : (if b then [.hide] else []).foldl obey t =
    { t with hide := b || t.hide } := by
  cases b <;> rfl

theorem foldl_obey_priority (n : Option Nat) : (n.map .priority).toList.foldl obey t =
    { t with priority := n.or t.priority } := by
  cases n <;> rfl

theorem foldl_obey_track (id : Option Nat) : (id.map .track).toList.foldl obey t =
    { t with track := id.or t.track } := by
  cases id <;> rfl

theorem foldl_obey_created (d : Option Date) : (d.map .created).toList.foldl obey t =
    { t with created := d.or t.created } := by
  cases d <;> rfl

theorem foldl_obey_due (d : Option Date) : (d.map .due).toList.foldl obey t =
    { t with due := d.or t.due } := by
  cases d <;> rfl

theorem foldl_obey_admonition (a : Option Admonition) :
    (a.map .admonition).toList.foldl obey t = { t with admonition := a.or t.admonition } := by
  cases a <;> rfl

theorem foldl_obey_image (i : Option Image) : (i.map .image).toList.foldl obey t =
    { t with image := i.or t.image } := by
  cases i <;> rfl

theorem foldl_obey_tag (names : List String) : (names.map .tag).foldl obey t =
    { t with tags := names.foldl (fun s name => s.insert name) t.tags } := by
  induction names generalizing t with
  | nil => rfl
  | cons name names ih => exact ih (t.obey (.tag name))

end

theorem foldl_obey_stated (t : Task) : t.stated.foldl obey {} = t := by
  have htags : t.tags.toList.foldl (fun s name => s.insert name) Tags.empty = t.tags := by
    have := Tags.foldl_insert .empty t.tags.toList t.tags.sorted
    cases h : t.tags.toList.foldl (fun s name => s.insert name) Tags.empty
    simp only [h] at this
    subst this
    rfl
  simp only [stated, List.foldl_append, foldl_obey_done, foldl_obey_pin, foldl_obey_hide,
    foldl_obey_priority, foldl_obey_track, foldl_obey_created, foldl_obey_due,
    foldl_obey_admonition, foldl_obey_image, foldl_obey_tag, htags, Bool.or_false, Option.or_none]

end Task

/-- Whether the directive is read back from its text, in front of another one if there is `more`.
Years of more than four digits have a sign. A path that looks like a number reads as a width if a
space follows, and one that ends in a space goes on. -/
def Directive.Legible (more : Bool) : Directive → Prop
  | .created date | .due date => date.year ≤ 9999
  | .image i => more = true →
      i.path.toList.getLast? ≠ some ' ' ∧ (i.width = none → Text.isNumeral i.path.toList = false)
  | _ => True

structure Task.Legible (t : Task) : Prop where
  created : ∀ d, t.created = some d → d.year ≤ 9999
  due : ∀ d, t.due = some d → d.year ≤ 9999
  image : ∀ i, t.image = some i → t.tags.toList ≠ [] →
    i.path.toList.getLast? ≠ some ' ' ∧ (i.width = none → Text.isNumeral i.path.toList = false)

theorem Task.Written.stated {t : Task} (h : t.Written) : ∀ d ∈ t.stated, d.Written := by
  intro d hd
  simp only [Task.stated, List.mem_append, List.mem_ite_nil_right, List.mem_singleton,
    Option.mem_toList, Option.map_eq_some_iff, List.mem_map] at hd
  rcases hd with (((((((((⟨-, rfl⟩ | ⟨-, rfl⟩) | ⟨-, rfl⟩) | ⟨n, hn, rfl⟩) | ⟨id, hid, rfl⟩) |
    ⟨date, hdate, rfl⟩) | ⟨date, hdate, rfl⟩) | ⟨kind, -, rfl⟩) | ⟨i, hi, rfl⟩) | ⟨name, hname, rfl⟩)
  · trivial
  · trivial
  · trivial
  · exact h.priority n hn
  · exact h.track id hid
  · exact h.created date hdate
  · exact h.due date hdate
  · trivial
  · exact h.image i hi
  · exact h.tags name hname

end TaskMarkup

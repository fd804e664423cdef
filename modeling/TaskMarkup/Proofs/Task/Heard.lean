import TaskMarkup.Proofs.Task.Stated

/-!
What is heard of a task. A directive that has no spelling of its own in front of the next one is heard
as something else: a date whose year has a sign is skipped, and the path of an image takes the tag
behind it along. Nothing else gets lost between the writing of a markup and its reading.
-/

namespace TaskMarkup

instance (more : Bool) (d : Directive) : Decidable (d.Legible more) :=
  match d with
  | .created date | .due date => inferInstanceAs (Decidable (date.year ≤ 9999))
  | .image _ => inferInstanceAs (Decidable (_ → _ ∧ _))
  | .tag _ | .priority _ | .done | .hide | .pin | .track _ | .admonition _ =>
    inferInstanceAs (Decidable True)

theorem Directive.Legible.of_true {d : Directive} (h : d.Legible true) (more : Bool) :
    d.Legible more := by
  cases d with
  | image i => exact fun _ => h rfl
  | _ => exact h

/-- What is heard of an image that is not legible in front of a tag. A path that ends in a space goes
on with the tag, and one that looks like a number is the width of an image whose path is the tag. -/
def Image.merged (i : Image) (name : String) : Image :=
  if i.path.toList.getLast? = some ' ' then { i with path := i.path ++ " @" ++ name }
  else ⟨"@" ++ name, some (Text.decimal i.path.toList)⟩

theorem Image.merged_ne {i : Image} (hi : ¬(Directive.image i).Legible true) (name : String) :
    i.merged name ≠ i := by
  unfold merged
  split
  · next hspace =>
    intro heq
    have hlen := congrArg (fun j => j.path.toList.length) heq
    simp at hlen
  · next hspace =>
    -- Without a space at its end the path was written without a width.
    intro heq
    refine hi fun _ => ⟨hspace, fun hwidth => ?_⟩
    rw [← heq] at hwidth
    contradiction

inductive Directive.Hears : List Directive → List Directive → Prop
  | nil : Hears [] []
  | heard {d : Directive} {ds hs : List Directive} : d.Legible (!ds.isEmpty) → Hears ds hs →
      Hears (d :: ds) (d :: hs)
  | created {date : Date} {ds hs : List Directive} : 9999 < date.year → Hears ds hs →
      Hears (.created date :: ds) hs
  | due {date : Date} {ds hs : List Directive} : 9999 < date.year → Hears ds hs →
      Hears (.due date :: ds) hs
  | merged {i : Image} {name : String} {ds hs : List Directive} :
      ¬(Directive.image i).Legible true → Hears ds hs →
      Hears (.image i :: .tag name :: ds) (.image (i.merged name) :: hs)

def Task.dated (t : Task) : Task :=
  { t with
    created := t.created.filter fun d => d.year ≤ 9999
    due := t.due.filter fun d => d.year ≤ 9999 }

def Task.heard (t : Task) : Task :=
  match t.image, t.tags.toList with
  | some i, name :: _ =>
    if (Directive.image i).Legible true then t.dated
    else { t.dated with image := some (i.merged name), tags := t.tags.erase name }
  | _, _ => t.dated

namespace Directive.Hears

variable {as ds hs : List Directive}

theorem append (has : ∀ d ∈ as, ∀ more, d.Legible more) (h : Hears ds hs) :
    Hears (as ++ ds) (as ++ hs) := by
  induction as with
  | nil => exact h
  | cons d as ih => exact .heard (has d (by simp) _) (ih fun e he => has e (by simp [he]))

theorem tags (names : List String) : Hears (names.map .tag) (names.map .tag) := by
  have hall : ∀ d ∈ names.map Directive.tag, ∀ more, d.Legible more := by
    intro d hd more
    obtain ⟨name, -, rfl⟩ := List.mem_map.1 hd
    trivial
  simpa using append hall nil

theorem dates (make : Date → Directive) (hlegible : ∀ d more, d.year ≤ 9999 → (make d).Legible more)
    (hskip : ∀ d ds hs, 9999 < d.year → Hears ds hs → Hears (make d :: ds) hs) (date : Option Date)
    (h : Hears ds hs) :
    Hears ((date.map make).toList ++ ds)
      (((date.filter fun d => d.year ≤ 9999).map make).toList ++ hs) := by
  cases date with
  | none => exact h
  | some d =>
    by_cases hd : d.year ≤ 9999
    · simpa [Option.filter, hd] using heard (hlegible d _ hd) h
    · simpa [Option.filter, hd] using hskip d _ _ (Int.not_le.1 hd) h

end Directive.Hears

namespace Task

def facts (t : Task) : List Directive :=
  (if t.done then [.done] else []) ++ (if t.pin then [.pin] else []) ++
    (if t.hide then [.hide] else []) ++ (t.priority.map .priority).toList ++
    (t.track.map .track).toList

def labels (t : Task) : List Directive :=
  (t.admonition.map .admonition).toList ++
    ((t.image.map .image).toList ++ t.tags.toList.map .tag)

theorem stated_eq (t : Task) :
    t.stated = t.facts ++ ((t.created.map .created).toList ++
      ((t.due.map .due).toList ++ t.labels)) := by
  simp only [stated, facts, labels, List.append_assoc]

theorem legible_facts (t : Task) : ∀ d ∈ t.facts, ∀ more, d.Legible more := by
  intro d hd more
  simp only [facts, List.mem_append, List.mem_ite_nil_right, List.mem_singleton,
    Option.mem_toList, Option.map_eq_some_iff] at hd
  rcases hd with (((⟨-, rfl⟩ | ⟨-, rfl⟩) | ⟨-, rfl⟩) | ⟨n, -, rfl⟩) | ⟨id, -, rfl⟩ <;> trivial

section

variable (t : Task)

theorem facts_heard : t.heard.facts = t.facts := by
  unfold heard
  split
  · split <;> rfl
  · rfl

theorem created_heard : t.heard.created = t.created.filter fun d => d.year ≤ 9999 := by
  unfold heard
  split
  · split <;> rfl
  · rfl

theorem due_heard : t.heard.due = t.due.filter fun d => d.year ≤ 9999 := by
  unfold heard
  split
  · split <;> rfl
  · rfl

theorem hears_labels : Directive.Hears t.labels t.heard.labels := by
  have hkind : ∀ d ∈ (t.admonition.map Directive.admonition).toList, ∀ more, d.Legible more := by
    intro d hd more
    simp only [Option.mem_toList, Option.map_eq_some_iff] at hd
    obtain ⟨kind, -, rfl⟩ := hd
    trivial
  -- The dates are no labels.
  have hdated (h : Directive.Hears ((t.image.map .image).toList ++ t.tags.toList.map .tag)
      ((t.image.map .image).toList ++ t.tags.toList.map .tag)) :
      Directive.Hears t.labels t.dated.labels := .append hkind h
  unfold heard
  split
  · next i name names hi hnames =>
    split
    · next hlegible =>
      apply hdated
      rw [hi]
      exact .heard (hlegible.of_true _) (.tags _)
    · next hlegible =>
      refine .append hkind ?_
      have hne : ∀ u ∈ names, u ≠ name := by
        have hsorted := t.tags.sorted
        rw [hnames, List.pairwise_cons] at hsorted
        rintro u hu rfl
        exact String.lt_irrefl _ (hsorted.1 u hu)
      have herase : (t.tags.erase name).toList = names := by
        simpa [Tags.erase, hnames] using hne
      simp only [hi, hnames, herase, Option.map_some, Option.toList_some, List.map_cons,
        List.singleton_append]
      exact .merged hlegible (.tags names)
  · next hnone =>
    apply hdated
    cases hi : t.image with
    | none => exact .tags _
    | some i =>
      cases hnames : t.tags.toList with
      | nil =>
        have hlegible : (Directive.image i).Legible false := fun h => by contradiction
        exact .heard hlegible .nil
      | cons name names => exact absurd hnames (hnone i name names hi)

theorem hears_stated : Directive.Hears t.stated t.heard.stated := by
  rw [stated_eq, stated_eq, facts_heard, created_heard, due_heard]
  have hdue := Directive.Hears.dates .due (fun d more h => h) (fun d ds hs => .due) t.due
    t.hears_labels
  exact .append t.legible_facts
    (.dates .created (fun d more h => h) (fun d ds hs => .created) t.created hdue)

end

theorem heard_eq_iff {t : Task} : t.heard = t ↔ t.Legible := by
  constructor
  · intro heq
    have hcreated := t.created_heard
    have hdue := t.due_heard
    rw [heq] at hcreated hdue
    refine ⟨fun d hd => ?_, fun d hd => ?_, fun i hi htags => ?_⟩
    · rw [hd] at hcreated
      simpa using (Option.filter_eq_some_iff.1 hcreated.symm).2
    · rw [hd] at hdue
      simpa using (Option.filter_eq_some_iff.1 hdue.symm).2
    · by_contra hlegible
      have hlegible : ¬(Directive.image i).Legible true := fun h => hlegible (h rfl)
      obtain ⟨name, names, hnames⟩ := List.exists_cons_of_ne_nil htags
      have himage : t.heard.image = some (i.merged name) := by
        simp only [heard, hi, hnames, if_neg hlegible]
      rw [heq, hi, Option.some.injEq] at himage
      exact i.merged_ne hlegible name himage.symm
  · intro h
    have hfilter {date : Option Date} (hdate : ∀ d, date = some d → d.year ≤ 9999) :
        (date.filter fun d => d.year ≤ 9999) = date := by
      cases date with
      | none => rfl
      | some d => simp [Option.filter, hdate d rfl]
    have hdated : t.dated = t := by
      rw [dated, hfilter h.created, hfilter h.due]
    unfold heard
    split
    · next i name names hi hnames =>
      have hlegible : (Directive.image i).Legible true := fun _ => h.image i hi (by simp [hnames])
      rw [if_pos hlegible, hdated]
    · exact hdated

end Task

end TaskMarkup

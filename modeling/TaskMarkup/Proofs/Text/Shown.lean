import TaskMarkup.Text.Bytes

namespace TaskMarkup.Text

/-- What the next character stands behind: a character of its line, a newline and perhaps some of
the indentation, or a backslash that has not been shown. -/
inductive Mode
  | line | indent | escape
  deriving DecidableEq, Repr

def step : Mode → Char → List Char × Mode
  | .escape, '\n' => (['\\', '\n'], .indent)
  | .escape, c => ([c], .line)
  | _, '\\' => ([], .escape)
  | _, '\n' => (['\n'], .indent)
  | .indent, ' ' | .indent, '\t' => ([], .indent)
  | _, c => ([c], .line)

def shown : Mode → List Char → List Char
  | .escape, [] => ['\\']
  | _, [] => []
  | m, c :: cs => (step m c).1 ++ shown (step m c).2 cs

example : shown .line "a\\* b\\\n \t c\\\\\\".toList = "a* b\\\nc\\\\".toList := by decide

/-- The stretch `cs` shows `ts`, whatever follows it, and leads from one mode to another. -/
def Shows (m : Mode) (cs ts : List Char) (n : Mode) : Prop :=
  ∀ ds, shown m (cs ++ ds) = ts ++ shown n ds

namespace Shows

variable {m n k : Mode} {as bs cs ds ts us : List Char} {c : Char}

theorem nil (m : Mode) : Shows m [] [] m := fun _ => rfl

theorem trans (h : Shows m cs ts n) (h' : Shows n ds us k) : Shows m (cs ++ ds) (ts ++ us) k := by
  intro es
  rw [List.append_assoc, h, h', List.append_assoc]

theorem shown_eq (h : Shows m cs ts n) : shown m cs = ts ++ shown n [] := by
  simpa using h []

theorem step (m : Mode) (c : Char) : Shows m [c] (Text.step m c).1 (Text.step m c).2 := by
  intro ds
  cases m <;> rfl

theorem plain (hm : m = .line ∨ m = .indent ∧ ∀ c ∈ cs.head?, c ≠ ' ' ∧ c ≠ '\t')
    (hne : cs ≠ []) (hb : '\\' ∉ cs) (hn : '\n' ∉ cs) : Shows m cs cs .line := by
  induction cs generalizing m with
  | nil => exact absurd rfl hne
  | cons c cs ih =>
    have hstep : Text.step m c = ([c], .line) := by
      have hb : c ≠ '\\' := fun h => hb (by simp [h])
      have hn : c ≠ '\n' := fun h => hn (by simp [h])
      rcases hm with rfl | ⟨rfl, hc⟩
      · simp [Text.step]
      · obtain ⟨hs, ht⟩ := hc c rfl
        simp [Text.step, hs, ht]
    have hone := step m c
    rw [hstep] at hone
    cases cs with
    | nil => exact hone
    | cons d ds =>
      exact hone.trans (ih (.inl rfl) (by simp) (fun h => hb (List.mem_cons_of_mem _ h))
        fun h => hn (List.mem_cons_of_mem _ h))

theorem escaped (hc : c ≠ '\n') (hb : '\\' ∉ cs) (hn : '\n' ∉ cs) :
    Shows .escape (c :: cs) (c :: cs) .line := by
  have hone := step .escape c
  rw [show Text.step .escape c = ([c], .line) by simp [Text.step]] at hone
  cases cs with
  | nil => exact hone
  | cons d ds => exact hone.trans (plain (.inl rfl) (by simp) hb hn)

theorem newline (m : Mode) : Shows m ['\n'] (shown m [] ++ ['\n']) .indent := by
  intro ds
  cases m <;> rfl

theorem blanks (h : ∀ c ∈ cs, c = ' ' ∨ c = '\t') : Shows .indent cs [] .indent := by
  induction cs with
  | nil => exact nil _
  | cons c cs ih =>
    have hone := step .indent c
    rcases h c (by simp) with rfl | rfl
    all_goals exact hone.trans (ih fun d hd => h d (by simp [hd]))

theorem backslash (hm : m ≠ .escape) : Shows m ['\\'] [] .escape := by
  intro ds
  cases m with
  | line | indent => rfl
  | escape => exact absurd rfl hm

end Shows

end TaskMarkup.Text

import TaskMarkup.Proofs.Document.Drains
import TaskMarkup.Settings.Layers

namespace TaskMarkup

namespace Settings

variable {α β : Type} {s t : Settings} {layers : List Layer}

structure Positive (s : Settings) : Prop where
  indentWidth : 0 < s.indentWidth
  maxDepth : 0 < s.maxDepth
  maxPeeks : 0 < s.maxPeeks

theorem validate_eq_ok_iff : s.validate = .ok t ↔ t = s ∧ s.Positive := by
  unfold validate
  constructor
  · intro h
    split at h
    · cases h
    · next hwidth =>
      split at h
      · cases h
      · next hdepth =>
        split at h
        · cases h
        · next hpeeks =>
          cases h
          exact ⟨rfl, Nat.pos_of_ne_zero hwidth, Nat.pos_of_ne_zero hdepth,
            Nat.pos_of_ne_zero hpeeks⟩
  · rintro ⟨rfl, hwidth, hdepth, hpeeks⟩
    rw [if_neg (Nat.ne_of_gt hwidth), if_neg (Nat.ne_of_gt hdepth), if_neg (Nat.ne_of_gt hpeeks)]

theorem exists_of_bind {x : Except SettingsError α} {next : α → Except SettingsError β} {b : β}
    (h : x >>= next = .ok b) : ∃ a, x = .ok a ∧ next a = .ok b := by
  cases x with
  | error e => cases h
  | ok a => exact ⟨a, rfl, h⟩

theorem positive_of_load (h : load layers = .ok s) : s.Positive := by
  obtain ⟨set, -, h⟩ := exists_of_bind h
  obtain ⟨store, -, h⟩ := exists_of_bind h
  obtain ⟨settled, -, h⟩ := exists_of_bind h
  obtain ⟨written, -, h⟩ := exists_of_bind h
  obtain ⟨found, -, h⟩ := exists_of_bind h
  obtain ⟨rfl, hpos⟩ := validate_eq_ok_iff.1 h
  exact hpos

end Settings

def Fault.IsStalledAfter (peeks : Nat) (f : Fault) : Prop := ∃ offset, f = .stalled peeks offset

namespace Parse

open Rule

variable {s : Lexer Cursor} {ruler : Ruler} {E : Empty → Lexer Cursor → Prop}

theorem ends_indentColumns_stalled (hs : s.Sound) (h : s.limit ≤ s.peeks + 1) :
    Ends (Fault.IsStalledAfter (s.peeks + 1)) (indentColumns ruler) s (fun _ _ => False) E := by
  refine Ends.bind (Ends.setPaused (Ends.bind ?_))
  have hs := hs.onCursor (f := .pause true)
  refine Ends.loop (fun _ t => t = s.onCursor (.pause true)) hs rfl ?_
  rintro columns _ rfl
  refine Ends.bind (Ends.count hs (by decide) (fun _ offset => ⟨offset, rfl⟩) ?_)
  intro u _ _ _ hlt
  exact absurd h (Nat.not_le.2 hlt)

theorem ends_lineStart_stalled (hs : s.Sound) (hp : s.atEof = false)
    (hline : s.observer.lineIndent = none) (h : s.limit ≤ s.peeks + 1) :
    Ends (Fault.IsStalledAfter (s.peeks + 1)) (lineStart ruler) s (fun _ _ => False) E := by
  refine Ends.loop (fun _ t => t = s) hs rfl ?_
  rintro - _ rfl
  refine Ends.bind (Ends.get ?_)
  rw [hp, if_neg (by decide)]
  refine Ends.bind (Ends.cursor ?_)
  rw [hline]
  exact Ends.bind (Ends.seq (ends_indentColumns_stalled hs h) fun _ _ h => h.elim)

end Parse

namespace Document

variable {o : Options} {text : String} {layers : List Layer} {s : Settings}

theorem exists_stalled (h : o.maxPeeks ≤ 1) (text : String) :
    ∃ offset, blocks o text = .error (.stalled 1 offset) := by
  have hlimit : (Reader.start o text).lexer.limit = 1 := Nat.max_eq_right h
  have hrule : Rule.Ends (Fault.IsStalledAfter 1) (Reader.rule o) (Reader.start o text).lexer
      (fun _ _ => False) fun _ _ => False := by
    rw [Reader.rule, Parse.nextBlock_eq]
    exact Rule.Ends.seq (Parse.ends_lineStart_stalled (Lexer.start_sound ..) rfl rfl
      (Nat.le_of_eq hlimit)) fun _ _ h => h.elim
  cases hres : Reader.rule o (Reader.start o text).lexer with
  | ok r t =>
    rw [Rule.Ends, hres] at hrule
    exact hrule.elim
  | error e t =>
    rw [Rule.Ends, hres] at hrule
    cases e with
    | rejected e => exact e.elim
    | fault f =>
      obtain ⟨offset, rfl⟩ := hrule
      have hnext := Reader.next_of_fault (r := Reader.start o text) rfl hres
      exact ⟨offset, by simp [blocks, read, readFrom, hnext]⟩

/-- Loaded settings have positive limits. With looks enough, an excess of columns is all that can go
wrong in a document, and nothing can where the text is short enough for the width of a level. -/
theorem blocks_of_load (h : Settings.load layers = .ok s) : s.Positive ∧
    (Lexer.defaultLimit ≤ s.maxPeeks → ∀ text,
      (∀ f, blocks s.options text = .error f → f.IsArithmetic) ∧
      (2 * ((2 * s.indentWidth + 1) * (Source.ofString text).size) ≤ Setting.maxNumber →
        ∃ bs, blocks s.options text = .ok bs)) := by
  have hpos := Settings.positive_of_load h
  refine ⟨hpos, fun hpeeks text => ⟨fun f hf => ?_, fun hcolumns => ?_⟩⟩
  · exact isArithmetic_of_fault hpeeks (blocks_eq_error_iff.1 hf)
  · refine exists_blocks hpeeks fun n hn => ?_
    have hwidth : s.options.ruler.widest = 2 * s.indentWidth + 1 := by
      rw [Ruler.widest]
      show 2 * max s.indentWidth 1 + 1 = _
      rw [Nat.max_eq_left hpos.indentWidth]
    have hmax : n = Setting.maxNumber := (Option.some.inj hn).symm
    rw [hwidth, hmax]
    exact hcolumns

theorem blocks_of_load_override :
    let layers := [Layer.override "lexer.max_peek_count" (.integer 150)]
    let s : Settings := { maxPeeks := 150 }
    Settings.load layers = .ok s ∧ s.Positive ∧ (∃ bs, blocks s.options "- a\n\t> b" = .ok bs) ∧
      ∀ f, blocks s.options "- a\n\t> b" = .error f → f.IsArithmetic := by
  intro layers s
  have hload : Settings.load layers = .ok s := by decide +kernel
  obtain ⟨hpos, hreads⟩ := blocks_of_load hload
  obtain ⟨hfault, hblocks⟩ := hreads (by decide) "- a\n\t> b"
  exact ⟨hload, hpos, hblocks (by decide +kernel), hfault⟩

/-- A limit on looks is accepted that no text can be read with. -/
theorem exists_load_stalled : ∃ (layers : List Layer) (s : Settings) (text : String) (f : Fault),
    Settings.load layers = .ok s ∧ blocks s.options text = .error f := by
  let content := "[lexer]\nmax_peek_count = 1\n".toUTF8.toList
  have hload : Settings.load [.file ⟨"c.toml", some content, true⟩] = .ok { maxPeeks := 1 } := by
    decide +kernel
  have hfault : (read (Settings.options { maxPeeks := 1 }) "a").fault = some (.stalled 1 0) := by
    decide +kernel
  exact ⟨_, _, "a", _, hload, blocks_eq_error_iff.2 hfault⟩

end Document

end TaskMarkup

import TaskMarkup.Proofs.Document.Markup
import TaskMarkup.Proofs.Task.Overlay

namespace TaskMarkup

namespace Parse

open Rule

variable {F : Fault → Prop} {E : Empty → Lexer Cursor → Prop} {s : Lexer Cursor} {ruler : Ruler}

theorem bodies_nil (room i : Nat) : Bodies F E (Parse.body ruler (room + 1)) i [] := by
  intro start kind s hs hk hp
  refine Ends.seq (Q := fun _ t => t.Sound ∧ t.atEof = true) ?_ ?_
  · refine Ends.seq (Ends.passInlineSpace hs hk (by decide)) ?_
    rintro - t ⟨ht, hkt, -⟩
    have hpt : t.pending = [] := (ht.pending_of_takeWhile.trans (by rw [hp]; rfl))
    refine Ends.bind (Ends.peekTag (.refl ht.sound) (by decide) hkt (by decide) fun u hu _ hz => ?_)
    refine Ends.setLineIndent ⟨hu.sound.onCursor, ?_⟩
    rw [Lexer.atEof_onCursor]
    exact (hu.sound.atEof_iff hz).2 (hu.pending.trans hpt)
  · rintro - t ⟨ht, het⟩
    refine Ends.seq (Q := fun _ _ => True) ?_ fun kids u _ =>
      Ends.bind (Ends.bind (Ends.endFrom (Ends.pure (Ends.pure ⟨_, kids, rfl⟩))))
    refine Ends.loop (fun _ u => u = t) ht rfl ?_
    rintro bs _ rfl
    refine Ends.seq (Q := fun r _ => r = none) ?_ fun _ _ hr => ?_
    · refine Ends.seq (ends_lineStart_of_atEof ht het) ?_
      rintro _ _ ⟨rfl, rfl⟩
      exact Ends.pure rfl
    · subst hr
      exact Ends.pure trivial

end Parse

namespace Document

open Directive

theorem task?_of_says {o : Options} {words : List String} {said : String → Option Directive}
    (hpeeks : 100 ≤ o.maxPeeks) (hdepth : o.maxDepth ≠ 0)
    (hsaid : ∀ w ∈ words, IsWord w ∧
      ∀ start, Says (Token.place start (Text.runs w.toList)) (said w)) :
    task? o ("[" ++ " ".intercalate words ++ "]") =
      some ((words.map fun w => ({} : Task).hear (said w)).foldl Task.overlay {}) := by
  obtain ⟨room, hroom⟩ := Nat.exists_eq_succ_of_ne_zero hdepth
  have htext : ("[" ++ " ".intercalate words ++ "]").toList =
      '[' :: ((" ".intercalate words).toList ++ [']']) := by simp
  obtain ⟨k, hp⟩ := exists_tokenize_brackets (" ".intercalate words).toList []
  rw [← htext] at hp
  rw [task?_of_lists hpeeks hdepth hp (lists_words hsaid 1) rfl rfl ?_, Task.foldl_obey_flatMap]
  rw [show o.level.room = room + 1 from hroom]
  exact Parse.bodies_nil room 0

theorem task?_word {o : Options} {w : String} {said : Option Directive} (hpeeks : 100 ≤ o.maxPeeks)
    (hdepth : o.maxDepth ≠ 0) (hw : IsWord w)
    (hsaid : ∀ start, Says (Token.place start (Text.runs w.toList)) said) :
    task? o ("[" ++ w ++ "]") = some (({} : Task).hear said) := by
  have hsays : ∀ v ∈ [w], IsWord v ∧ ∀ start, Says (Token.place start (Text.runs v.toList)) said := by
    simpa using ⟨hw, hsaid⟩
  have halone := task?_of_says hpeeks hdepth hsays
  rwa [String.intercalate_singleton, List.map_singleton, List.foldl_cons, List.foldl_nil,
    Task.overlay_hear] at halone

/-- What words say together is what each says by itself, one laid over the other from left to right.
A word that spells a directive says that one; any other says nothing, and may as well be left out. -/
theorem task?_words (o : Options) {words : List String} (hpeeks : 100 ≤ o.maxPeeks)
    (hdepth : o.maxDepth ≠ 0) (hwords : ∀ w ∈ words, IsWord w) :
    (∃ tasks : List Task, words.map (fun w => task? o ("[" ++ w ++ "]")) = tasks.map some ∧
      task? o ("[" ++ " ".intercalate words ++ "]") = some (tasks.foldl Task.overlay {})) ∧
    (∀ w ∈ words, ∀ d : Directive, d.Spells (tokenize w.toList) →
      task? o ("[" ++ w ++ "]") = some (({} : Task).obey d)) ∧
    ∀ before w behind, words = before ++ w :: behind →
      (∀ d : Directive, ¬d.Spells (tokenize w.toList)) →
      task? o ("[" ++ w ++ "]") = some {} ∧
        task? o ("[" ++ " ".intercalate words ++ "]") =
          task? o ("[" ++ " ".intercalate (before ++ behind) ++ "]") := by
  obtain ⟨said, hsaid⟩ := exists_said
  have hall {ws : List String} (hws : ∀ w ∈ ws, IsWord w) :
      task? o ("[" ++ " ".intercalate ws ++ "]") =
        some ((ws.map fun w => ({} : Task).hear (said w)).foldl Task.overlay {}) :=
    task?_of_says hpeeks hdepth fun w hw => ⟨hws w hw, hsaid w (hws w hw)⟩
  have halone (w : String) (hw : IsWord w) :
      task? o ("[" ++ w ++ "]") = some (({} : Task).hear (said w)) :=
    task?_word hpeeks hdepth hw (hsaid w hw)
  refine ⟨⟨words.map fun w => ({} : Task).hear (said w), ?_, hall hwords⟩, fun w hw d hd => ?_, ?_⟩
  · rw [List.map_map]
    exact List.map_congr_left fun w hw => halone w (hwords w hw)
  · exact task?_word hpeeks hdepth (hwords w hw) ((hwords w hw).says_some hd)
  · rintro before w behind rfl hmalformed
    have hw := hwords w (by simp)
    have hnothing := task?_word hpeeks hdepth hw (hw.says_none hmalformed)
    have hempty : ({} : Task).hear (said w) = {} := Option.some.inj ((halone w hw).symm.trans hnothing)
    have hrest : ∀ v ∈ before ++ behind, IsWord v := by
      intro v hv
      rcases List.mem_append.1 hv with hv | hv
      · exact hwords v (by simp [hv])
      · exact hwords v (by simp [hv])
    refine ⟨hnothing, ?_⟩
    rw [hall hwords, hall hrest, List.map_append, List.map_append, List.map_cons, hempty,
      Task.foldl_overlay_append_empty]

theorem task?_words_malformed :
    let words := ["due:2023-2-30", "@a", "#1a", "due:2024-2-29", "x:", "due:2024-3-1", "pin"]
    100 ≤ ({} : Options).maxPeeks ∧ ({} : Options).maxDepth ≠ 0 ∧ (∀ w ∈ words, IsWord w) ∧
      words.map (fun w => task? {} ("[" ++ w ++ "]")) =
        [some {}, some { tags := Tags.empty.insert "a" }, some {},
          some { due := Date.ofYearMonthDay? 2024 2 29 }, some {},
          some { due := Date.ofYearMonthDay? 2024 3 1 }, some { pin := true }] ∧
      task? {} ("[" ++ " ".intercalate words ++ "]") = some
        { due := Date.ofYearMonthDay? 2024 3 1, tags := Tags.empty.insert "a", pin := true } := by
  intro words
  have hwords : ∀ w ∈ words, IsWord w := by decide
  obtain ⟨⟨tasks, hmap, htask⟩, -⟩ := task?_words {} (Nat.le_refl _) (by decide) hwords
  have heach : words.map (fun w => task? {} ("[" ++ w ++ "]")) =
      [({} : Task), { tags := Tags.empty.insert "a" }, {}, { due := Date.ofYearMonthDay? 2024 2 29 }, {},
        { due := Date.ofYearMonthDay? 2024 3 1 }, { pin := true }].map some := by decide +kernel
  obtain rfl := List.map_injective_iff.2 (Option.some_injective Task) (hmap.symm.trans heach)
  exact ⟨Nat.le_refl _, by decide, hwords, heach, htask.trans (by decide +kernel)⟩

end Document

end TaskMarkup

import TaskMarkup.Proofs.Grammar.Advances
import TaskMarkup.Proofs.Grammar.Paragraph

namespace TaskMarkup

open Parse Rule

/-- A turn from `s` on, with what was collected so far. -/
inductive Origin.Step (p : ParagraphContext) (stops : List Style)
    (inner : List Style → Parse (List Inline × InlineStop)) (c : InlineContent) (s : Lexer Cursor) :
    Turn (List Inline × InlineStop) InlineContent → Lexer Cursor → Prop
  | halt {t : Lexer Cursor} : s.Looks t → Halts p (s.ahead 0).tag →
      Step p stops inner c s (.done (c.flush p.indent, .over)) t
  | stop {ending : InlineStop} {t : Lexer Cursor} : s.Looks t → stops ≠ [] → ending ≠ .over →
      Step p stops inner c s (.done (c.flush p.indent, ending)) t
  | part {u t : Lexer Cursor} : s.Looks u → (s.ahead 0).tag = .newline → p.mode = .block →
      continueParagraph p u = .ok none t →
      Step p stops inner c s (.done (c.flush p.indent, .over)) t
  | line {newline : Token} {u t : Lexer Cursor} : s.Looks u → stops.any Style.singleLine = false →
      p.mode = .block → continueParagraph p u = .ok (some newline) t →
      Step p stops inner c s (.again (c.push newline ['\n'])) t
  | literal {tok : Token} {t : Lexer Cursor} : s.Eats tok t → tok.tag ≠ .newline →
      Step p stops inner c s (.again (c.push tok tok.text)) t
  | escape {c' : InlineContent} {u t : Lexer Cursor} : s.Looks u → escape c u = .ok c' t →
      Step p stops inner c s (.again c') t
  | styled {style : Style} {node : Inline} {ending : InlineStop} {u t : Lexer Cursor} : s.Looks u →
      Style.choose stops (s.ahead 0).tag ((s.ahead 0).run s.pending).length = some style →
      style ∉ stops →
      styled p.indent style (inner (style :: stops)) u = .ok (node, ending) t →
      Step p stops inner c s (if ending = .over then .done ((c.add p.indent node).nodes, .over)
        else .again (c.add p.indent node)) t
  | raw {node : Inline} {u t : Lexer Cursor} : s.Looks u →
      rawInline p.indent (s.ahead 0) u = .ok node t →
      Step p stops inner c s (.again (c.add p.indent node)) t
  | link {node : Inline} {u t : Lexer Cursor} : s.Looks u → link p.indent u = .ok node t →
      Step p stops inner c s (.again (c.add p.indent node)) t
  | tagRef {sign name : Token} {rest : List Token} {node : Inline} {u t : Lexer Cursor} :
      s.Looks u → s.pending = sign :: name :: rest → isTagName name.text = true →
      tagRef p.indent u = .ok node t → Step p stops inner c s (.again (c.add p.indent node)) t

namespace Parse

open Origin

variable {p : ParagraphContext} {stops : List Style}
  {inner : List Style → Parse (List Inline × InlineStop)} {c : InlineContent} {s t : Lexer Cursor}

theorem cases_step : InlineCases (fun _ => True) (fun _ _ => True) p stops inner c 0 s
    fun turn t => Step p stops inner c s turn t where
  halt ht _ _ hhalts := .halt ht (ht.ahead 0 ▸ hhalts)
  stop ht _ hstops hover _ := .stop ht hstops hover
  line ht _ hp htag hsingle hmode := by
    have htag := (Lexer.ahead_zero_of_cons hp).symm ▸ htag
    rw [ht.ahead] at htag
    refine Ends.any.self.imp ?_
    rintro (- | newline) u ⟨-, hr⟩
    · exact .part ht htag hmode hr
    · exact .line ht hsingle hmode hr
  literal ht _ hp _ hnl :=
    Ends.bind (Ends.eat ht (Lexer.spare_true _ 0) (by decide) (ht.pending.symm.trans hp)
      fun _ hu _ _ => Ends.pure (.literal hu hnl))
  escape ht _ _ _ := Ends.any.self.imp fun _ _ hc => .escape ht hc.2
  styled ht _ hp hchoose hnew _ := by
    rw [← Lexer.ahead_zero_of_cons hp, ht.ahead, ht.pending] at hchoose
    exact Ends.any.self.imp fun _ _ hnode => .styled ht hchoose hnew hnode.2
  raw ht _ hp _ := by
    rw [← Lexer.ahead_zero_of_cons hp, ht.ahead]
    exact Ends.any.self.imp fun _ _ hnode => .raw ht hnode.2
  link ht _ _ _ := Ends.any.self.imp fun _ _ hnode => .link ht hnode.2
  tagRef ht _ hp _ _ hname :=
    Ends.any.self.imp fun _ _ hnode => .tagRef ht (ht.pending.symm.trans hp) hname hnode.2

theorem ends_inlineTurn_step (hs : s.Sound) :
    Ends (fun _ => True) (inlineTurn p stops inner c) s
      (fun turn t => Step p stops inner c s turn t) fun _ _ => True :=
  ends_inlineTurn_of_cases hs (s.spare_true 0) (by decide) cases_step

end Parse

end TaskMarkup

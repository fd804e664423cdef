import TaskMarkup.Proofs.Grammar.Inline

namespace TaskMarkup

def Tag.isLiteral (mode : ParagraphMode) : Tag → Bool
  | .eof | .newline | .backslash | .asterisk | .tilde | .caret | .backtick | .leftAngle | .at => false
  | .pipe => mode ≠ .cellLine
  | _ => true

namespace Parse

open Rule

variable {F : Fault → Prop} {E : Empty → Lexer Cursor → Prop} {s : Lexer Cursor} {k : Nat}
  {p : ParagraphContext} {stops : List Style} {c : InlineContent} {tok : Token} {rest : List Token}
  {inner : List Style → Parse (List Inline × InlineStop)}

theorem ends_inlineTurn_literal (hs : s.Sound) (hp : s.pending = tok :: rest)
    (htok : tok.tag.isLiteral p.mode = true) (hk : s.Spare F k) (hk' : k < 97) :
    Ends F (inlineTurn p stops inner c) s (fun turn t => turn = .again (c.push tok tok.text) ∧
      s.Eats tok t ∧ t.pending = rest ∧ t.Spare F 0) E := by
  refine Ends.bind (Ends.peek (.refl hs) (by decide) hk (by omega) fun t ht hkt _ => ?_)
  rw [Lexer.ahead_zero_of_cons hp]
  have hliteral : Ends F (literal c >>= fun c' => Pure.pure (Turn.again c') :
      Parse (Turn (List Inline × InlineStop) InlineContent)) t (fun turn u =>
        turn = .again (c.push tok tok.text) ∧ s.Eats tok u ∧ u.pending = rest ∧ u.Spare F 0) E :=
    Ends.seq (Ends.bind (Ends.eat ht hkt (by omega) hp fun u hu hrest hku => Ends.pure
      (Q := fun c' u => c' = c.push tok tok.text ∧ s.Eats tok u ∧ u.pending = rest ∧ u.Spare F 0)
      ⟨rfl, hu, hrest, hku⟩)) fun c' u ⟨hc, hu⟩ => Ends.pure ⟨by rw [hc], hu⟩
  split
  case h_3 htag =>
    split
    · next hmode => simp [htag, hmode, Tag.isLiteral] at htok
    · exact hliteral
  case h_11 => exact hliteral
  all_goals
    next htag => simp [htag, Tag.isLiteral] at htok

end Parse

end TaskMarkup

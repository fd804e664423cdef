import TaskMarkup.Proofs.Lexer.Watched

namespace TaskMarkup

namespace Text

def isInlineSpace (c : Char) : Bool := c == ' ' || c == '\t'

end Text

namespace Token

variable {ts : List Token}

theorem texts_takeWhile_line (hts : ∀ t ∈ ts, t.Spelled) :
    texts (ts.takeWhile fun t => !(t.tag == .newline)) =
      (texts ts).takeWhile fun c => !(c == '\n') := by
  refine texts_takeWhile hts fun t ht c hc => congrArg (!·) ?_
  rw [Bool.eq_iff_iff, beq_iff_eq, beq_iff_eq]
  refine ⟨?_, fun htag => ?_⟩
  · rintro rfl
    by_contra htag
    exact (hts t ht).newline_not_mem htag hc
  · rw [(hts t ht).newline htag] at hc
    exact List.mem_singleton.1 hc

theorem texts_takeWhile_isInlineSpace (hts : ∀ t ∈ ts, t.Spelled) :
    texts (ts.takeWhile fun t => t.tag.isInlineSpace) =
      (texts ts).takeWhile Text.isInlineSpace := by
  refine texts_takeWhile hts fun t ht c hc => ?_
  by_cases hnl : t.tag = .newline
  · rw [(hts t ht).newline hnl, List.mem_singleton] at hc
    rw [hnl, hc]
    rfl
  · cases hspace : t.tag.isInlineSpace with
    | true => simpa [Text.isInlineSpace] using (hts t ht).blank hspace c hc
    | false =>
      have hsolid := (hts t ht).solid hspace hnl c hc
      simp [Text.isInlineSpace, hsolid.1, hsolid.2.1]

end Token

namespace Lexer

/-- A place of the source with the text `cs` ahead, from which on all that is eaten counts. -/
structure Faces (src : Source) (cs : List Char) (s : Lexer Cursor) : Prop where
  sound : s.Sound
  unpaused : s.observer.paused = false
  source : s.source = src
  texts : Token.texts s.pending = cs

namespace Faces

variable {src : Source} {s t : Lexer Cursor} {as bs cs : List Char} {ts : List Token} {c : Char}

theorem spelled (h : Faces src cs s) : ∀ t ∈ s.pending, t.Spelled := fun _ => h.sound.spelled

theorem looks (h : Faces src cs s) (ht : s.Looks t) : Faces src cs t where
  sound := ht.sound
  unpaused := by rw [ht.observer, h.unpaused]
  source := ht.source.trans h.source
  texts := by rw [ht.pending, h.texts]

theorem onLine (h : Faces src cs s) (m : Option Nat) : Faces src cs (s.onCursor (.onLine m)) :=
  ⟨h.sound.onCursor, h.unpaused, h.source, h.texts⟩

theorem behind (h : Faces src (as ++ bs) s) (ht : t.Sound) (hsrc : t.source = s.source)
    (hpaused : t.observer.paused = false) (hp : s.pending = ts ++ t.pending)
    (hts : Token.texts ts = as) :
    Faces src bs t ∧ t.nextOffset = s.nextOffset + Text.byteSize as := by
  refine ⟨⟨ht, hpaused, hsrc.trans h.source, ?_⟩, hts ▸ nextOffset_of_pending h.sound ht hsrc hp⟩
  have htexts := h.texts
  rw [hp, Token.texts_append, hts] at htexts
  exact List.append_cancel_left htexts

theorem took (h : Faces src (as ++ bs) s) (ht : s.Took ts t) (hts : Token.texts ts = as) :
    Faces src bs t ∧ t.nextOffset = s.nextOffset + Text.byteSize as :=
  h.behind ht.sound ht.source (ht.paused.trans h.unpaused) ht.pending hts

theorem size (h : Faces src cs s) : src.size = s.nextOffset + Text.byteSize cs := by
  obtain ⟨hchars, hsize, -⟩ := h.sound.position
  rw [src.size_eq, ← h.source, hchars, Text.byteSize_append, hsize, h.texts]

theorem slice (h : Faces src (as ++ (bs ++ cs)) s) :
    src.slice (s.nextOffset + Text.byteSize as)
      (s.nextOffset + Text.byteSize as + Text.byteSize bs) = bs := by
  obtain ⟨hchars, hsize, -⟩ := h.sound.position
  have hslice := Text.slice_append_append (s.consumed ++ as) bs cs
  rw [Text.byteSize_append, Text.byteSize_append, Text.byteSize_append, hsize] at hslice
  rw [Source.slice, ← h.source, hchars, h.texts, ← List.append_assoc, ← List.append_assoc]
  exact hslice

theorem pending_nil (h : Faces src [] s) : s.pending = [] := by
  cases hp : s.pending with
  | nil => rfl
  | cons tok rest =>
    have htexts := h.texts
    rw [hp, Token.texts_cons] at htexts
    exact absurd (List.append_eq_nil_iff.1 htexts).1 (h.spelled tok (by simp [hp])).text_ne_nil

theorem pending_cons {tag : Tag} (h : Faces src (c :: cs) s) (hc : tag.char? = some c) :
    ∃ tok rest, s.pending = tok :: rest ∧ tok.tag = tag :=
  have ⟨tok, rest, hp, htag, _⟩ := Token.exists_cons_of_char? h.spelled hc h.texts
  ⟨tok, rest, hp, htag⟩

theorem ahead_ne_eof (h : Faces src (c :: cs) s) : (s.ahead 0).tag ≠ .eof := by
  refine (h.sound.tag_ahead_zero.resolve_left fun hnil => ?_).1
  have htexts := h.texts
  simp [hnil.2] at htexts

theorem ahead_ne {tag : Tag} {d : Char} (h : Faces src (c :: cs) s) (hd : tag.char? = some d)
    (hne : c ≠ d) : (s.ahead 0).tag ≠ tag := by
  obtain ⟨-, hp⟩ := h.sound.tag_ahead_zero.resolve_left fun hnil => h.ahead_ne_eof hnil.1
  intro htag
  have htext := (h.spelled (s.ahead 0) (hp ▸ List.mem_cons_self ..)).text_of_char? (htag ▸ hd)
  have htexts := h.texts
  rw [hp, Token.texts_cons, htext] at htexts
  exact hne (List.cons.inj htexts).1.symm

theorem eats {tok : Token} {tag : Tag} (h : Faces src (c :: cs) s) (hc : tag.char? = some c)
    (ht : s.Eats tok t) (htok : tok.tag = tag) :
    Faces src cs t ∧ t.nextOffset = s.nextOffset + c.utf8Size := by
  have htext := (h.spelled tok (by simp [ht.pending])).text_of_char? (htok ▸ hc)
  have hfaces : Faces src ([c] ++ cs) s := h
  simpa using hfaces.took ht.took (by simp [htext])

end Faces

end Lexer

namespace Rule.Ends

variable {ε : Type} {F : Fault → Prop} {E : ε → Lexer Cursor → Prop} {s : Lexer Cursor} {k : Nat}
  {src : Source} {line tail : List Char}

open Lexer

theorem eatUntil_newline (h : Faces src (line ++ tail) s) (hline : '\n' ∉ line)
    (htail : ∀ c ∈ tail.head?, c = '\n') (hk : s.Spare F k) (hk' : k < 97) :
    Ends F (Rule.eatUntil fun t => t.tag == .newline) s (fun _ t => Faces src tail t ∧
      t.nextOffset = s.nextOffset + Text.byteSize line ∧
      (line ≠ [] → t.observer.lastEnd = t.nextOffset)) E := by
  refine (eatUntil h.sound hk hk').imp ?_
  rintro - t ⟨ht, -⟩
  have htexts : Token.texts (s.pending.takeWhile fun t => !(t.tag == .newline)) = line := by
    have hstop : tail.takeWhile (fun c => !(c == '\n')) = [] := by
      cases tail with
      | nil => rfl
      | cons c tail => simp [htail c rfl]
    rw [Token.texts_takeWhile_line h.spelled, h.texts, List.takeWhile_append_of_pos ?_, hstop,
      List.append_nil]
    rintro c hc
    simp only [Bool.not_eq_true', beq_eq_false_iff_ne]
    rintro rfl
    exact hline hc
  obtain ⟨hfaces, hnext⟩ := h.took ht htexts
  refine ⟨hfaces, hnext, fun hne => ht.lastEnd_eq h.sound h.unpaused ?_⟩
  rintro hnil
  rw [hnil] at htexts
  exact hne htexts.symm

end Rule.Ends

end TaskMarkup

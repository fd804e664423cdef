import TaskMarkup.Proofs.Grammar.Inline
import TaskMarkup.Proofs.Token.Spelling
import TaskMarkup.Proofs.Token.Tiling

namespace TaskMarkup

namespace Style

def sign : Style → Char
  | .italic | .bold | .highlight => '*'
  | .sub | .strike => '~'
  | .sup => '^'

def delimiters (style : Style) : List Char := List.replicate style.length style.sign

variable {style style' : Style}

theorem ofChar?_sign (style : Style) : Tag.ofChar? style.sign = some style.mark.1 := by
  cases style <;> rfl

theorem sign_eq_of_mark (h : style.mark.1 = style'.mark.1) : style.sign = style'.sign := by
  cases style <;> cases style' <;> first | rfl | exact absurd h (by decide)

end Style

inductive Prose
  | text (letters : List Char)
  | styled (style : Style) (children : List Prose)

namespace Prose

def isText : Prose → Bool
  | .text _ => true
  | .styled .. => false

mutual

def render : Prose → List Char
  | .text letters => letters
  | .styled style cs => style.delimiters ++ (renderAll cs ++ style.delimiters)

def renderAll : List Prose → List Char
  | [] => []
  | c :: cs => c.render ++ renderAll cs

end

mutual

def inline (indent start : Nat) : Prose → Inline
  | .text letters => .text ⟨start, start + Text.byteSize letters, indent⟩ (String.ofList letters)
  | .styled style cs =>
    .styled ⟨start, start + Text.byteSize (render (.styled style cs)), indent⟩ style
      (inlines indent (start + style.length) cs)

def inlines (indent start : Nat) : List Prose → List Inline
  | [] => []
  | c :: cs => c.inline indent start :: inlines indent (start + Text.byteSize c.render) cs

end

mutual

/-- Texts are letters. A span stands inside of `outer`, of which those of its character have longer
delimiters, and begins and ends with a text. -/
def Fits (outer : List Style) : Prose → Prop
  | .text letters => letters ≠ [] ∧ ∀ c ∈ letters, c.isAlpha = true
  | .styled style cs =>
    (∀ s ∈ outer, s.sign = style.sign → style.length < s.length) ∧
      cs.head?.any isText = true ∧ cs.getLast?.any isText = true ∧ AllFit (style :: outer) cs

def AllFit (outer : List Style) : List Prose → Prop
  | [] => True
  | c :: cs => c.Fits outer ∧ (∀ d ∈ cs.head?, d.isText ≠ c.isText) ∧ AllFit outer cs

end

variable {outer : List Style} {c : Prose} {cs ds : List Prose} {indent start : Nat}

theorem renderAll_append : renderAll (cs ++ ds) = renderAll cs ++ renderAll ds := by
  induction cs with
  | nil => rfl
  | cons c cs ih => simp [renderAll, ih]

theorem inlines_concat : inlines indent start (cs ++ [c]) =
    inlines indent start cs ++ [c.inline indent (start + Text.byteSize (renderAll cs))] := by
  induction cs generalizing start with
  | nil => rfl
  | cons d cs ih => simp [inlines, renderAll, ih, Nat.add_assoc]

end Prose

def Token.Quiet (ts : List Token) : Prop := ∀ t ∈ ts.head?, t.tag = .word

def Style.Marks (style : Style) (ts : List Token) : Prop :=
  ts.map Token.tag = List.replicate style.length style.mark.1

inductive Prose.Written : List Style → List Token → List Prose → List Token → Prop
  | nil {outer : List Style} {rest : List Token} : Written outer rest [] rest
  | text {outer : List Style} {rest ts : List Token} {t : Token} {ps : List Prose} :
      t.tag = .word → (∀ u ∈ ts.head?, u.tag ≠ .word) → Written outer rest ps ts →
      Written outer rest (.text t.text :: ps) (t :: ts)
  | styled {outer : List Style} {rest body ts opening closing : List Token} {style : Style}
      {cs ps : List Prose} :
      (∀ s ∈ outer, s.mark.1 = style.mark.1 → style.length < s.length) →
      style.Marks opening → style.Marks closing → Token.Quiet body → Token.Quiet ts →
      Written (style :: outer) (closing ++ ts) cs body → Written outer rest ps ts →
      Written outer rest (.styled style cs :: ps) (opening ++ body)

theorem Prose.Written.suffix {outer : List Style} {rest ts : List Token} {ps : List Prose}
    (h : Written outer rest ps ts) : rest <:+ ts := by
  induction h with
  | nil => exact List.suffix_refl _
  | text _ _ _ ih => exact ih.trans (List.suffix_cons ..)
  | styled _ _ _ _ _ _ _ ihbody ih =>
    exact ih.trans ((List.suffix_append ..).trans (ihbody.trans (List.suffix_append ..)))

namespace Text

def Sealed (cs : List Char) : Prop := ∀ c ∈ cs.head?, (Tag.ofChar? c).isSome = true

theorem sealed_nil : Sealed [] := by simp [Sealed]

theorem sealed_cons {c : Char} {tag : Tag} (h : Tag.ofChar? c = some tag) (cs : List Char) :
    Sealed (c :: cs) := by simp [Sealed, h]

theorem sealed_lines {α : Type} (f : α → List Char) (ls : List α) {tail : List Char}
    (htail : tail = [] ∨ tail = ['\n']) : Sealed (ls.flatMap (fun l => '\n' :: f l) ++ tail) := by
  have hnewline : Tag.ofChar? '\n' = some .newline := rfl
  cases ls with
  | nil =>
    rcases htail with rfl | rfl
    · exact sealed_nil
    · exact sealed_cons hnewline []
  | cons l ls => exact sealed_cons hnewline _

theorem sealed_delimiters (style : Style) (cs : List Char) : Sealed (style.delimiters ++ cs) := by
  obtain ⟨n, hn⟩ := Nat.exists_eq_succ_of_ne_zero (Nat.ne_of_gt style.length_pos)
  simp [Sealed, Style.delimiters, hn, List.replicate_succ, style.ofChar?_sign]

theorem isDigit_of_isAlpha {c : Char} (h : c.isAlpha = true) : c.isDigit = false := by
  rw [Bool.eq_false_iff]
  intro hdigit
  have hletter : (decide (c.val ≥ 'A'.val ∧ c.val ≤ 'Z'.val) ||
      (c.val ≥ 'a'.val && c.val ≤ 'z'.val)) = true := h
  have h9 : '9'.val.toNat = 57 := rfl
  have hA : 'A'.val.toNat = 65 := rfl
  have ha : 'a'.val.toNat = 97 := rfl
  simp only [Char.isDigit, Bool.or_eq_true, Bool.and_eq_true, decide_eq_true_eq, ge_iff_le,
    UInt32.le_iff_toNat_le] at hletter hdigit
  omega

theorem byteSize_delimiters (style : Style) : byteSize style.delimiters = style.length := by
  rw [Style.delimiters, byteSize_replicate, Tag.utf8Size_of_char?
    (Tag.ofChar?_eq_some_iff.1 style.ofChar?_sign), Nat.mul_one]

theorem runs_delimiters (style : Style) (cs : List Char) : runs (style.delimiters ++ cs) =
    List.replicate style.length [style.sign] ++ runs cs := by
  unfold Style.delimiters
  induction style.length with
  | zero => rfl
  | succ n ih =>
    rw [List.replicate_succ, List.cons_append, runs_cons style.ofChar?_sign, ih,
      List.replicate_succ, List.cons_append]

end Text

namespace Token

theorem marks_place (style : Style) (start : Nat) :
    style.Marks (place start (List.replicate style.length [style.sign])) := by
  unfold Style.Marks
  generalize style.length = n
  induction n generalizing start with
  | zero => rfl
  | succ n ih =>
    rw [List.replicate_succ, List.replicate_succ, place, List.map_cons, ih,
      Tag.ofRun_reserved style.ofChar?_sign]

theorem place_delimiters (style : Style) (cs : List Char) (start : Nat) :
    place start (Text.runs (style.delimiters ++ cs)) =
      place start (List.replicate style.length [style.sign]) ++
        place (start + style.length) (Text.runs cs) := by
  have hflat : (List.replicate style.length [style.sign]).flatten = style.delimiters := by
    simp [Style.delimiters]
  rw [Text.runs_delimiters, place_append, hflat, Text.byteSize_delimiters]

variable {letters tail : List Char}

theorem tag_ne_word_of_sealed (h : Text.Sealed tail) (start : Nat) :
    ∀ t ∈ (place start (Text.runs tail)).head?, t.tag ≠ .word := by
  cases tail with
  | nil => simp [place]
  | cons c cs =>
    obtain ⟨tag, htag⟩ := Option.isSome_iff_exists.1 (h c (by simp))
    rw [Text.runs_cons htag, place, Tag.ofRun_reserved htag]
    simp only [List.head?_cons, Option.mem_def, Option.some.injEq, forall_eq']
    rintro rfl
    simp [Tag.ofChar?_eq_some_iff, Tag.char?] at htag

theorem ofRun_letters (hne : letters ≠ []) (hletters : ∀ c ∈ letters, c.isAlpha = true) :
    Tag.ofRun letters = .word := by
  have hplain : ∀ c ∈ letters, Text.isPlain c = true := fun c hc =>
    Text.isPlain_of_alphanum (by simp [Char.isAlphanum, hletters c hc])
  obtain ⟨c, cs, rfl⟩ := List.exists_cons_of_ne_nil hne
  have hdigit := Text.isDigit_of_isAlpha (hletters c (by simp))
  rw [Tag.ofRun_of_isPlain hne hplain, if_neg]
  simp [Text.isNumeral, hdigit]

theorem place_letters (hne : letters ≠ []) (hletters : ∀ c ∈ letters, c.isAlpha = true)
    (htail : Text.Sealed tail) (start : Nat) :
    place start (Text.runs (letters ++ tail)) =
      ⟨.word, start, letters⟩ :: place (start + Text.byteSize letters) (Text.runs tail) := by
  have hplain : ∀ c ∈ letters, Text.isPlain c = true := fun c hc =>
    Text.isPlain_of_alphanum (by simp [Char.isAlphanum, hletters c hc])
  have hseam : ∀ a ∈ letters.getLast?, ∀ b ∈ tail.head?, Text.joins a b = false := by
    intro a _ b hb
    obtain ⟨tag, htag⟩ := Option.isSome_iff_exists.1 (htail b hb)
    rw [Text.joins_comm]
    exact Text.joins_eq_false_of_reserved htag a
  rw [Text.runs_append hseam, Text.runs_of_isPlain hne hplain, List.singleton_append, place,
    ofRun_letters hne hletters]

end Token

namespace Prose

open Text Token

variable {outer : List Style} {ps : List Prose} {tail : List Char}

theorem sealed_renderAll (h : ∀ p ∈ ps.head?, p.isText = false) (htail : Sealed tail) :
    Sealed (renderAll ps ++ tail) := by
  cases ps with
  | nil => exact htail
  | cons p ps =>
    cases p with
    | text letters => simp [isText] at h
    | styled style cs =>
      rw [renderAll, render, List.append_assoc, List.append_assoc]
      exact sealed_delimiters style _

theorem quiet_renderAll (hps : AllFit outer ps) (hhead : ps.head?.any isText = true)
    (htail : Sealed tail) (start : Nat) : Quiet (place start (runs (renderAll ps ++ tail))) := by
  match ps with
  | .text letters :: ps =>
    obtain ⟨⟨hne, hletters⟩, halt, -⟩ := hps
    rw [renderAll, render, List.append_assoc, place_letters hne hletters
      (sealed_renderAll (by simpa [isText] using halt) htail)]
    simp [Quiet]

theorem quiet_behind {style : Style} {cs : List Prose} (hps : AllFit outer (.styled style cs :: ps))
    (htail : Sealed tail)
    (hlast : tail ≠ [] → ∀ p ∈ (Prose.styled style cs :: ps).getLast?, p.isText = true)
    (start : Nat) : Quiet (place start (runs (renderAll ps ++ tail))) := by
  obtain ⟨-, halt, hps⟩ := hps
  cases ps with
  | nil =>
    obtain rfl : tail = [] := by
      by_contra hne
      simpa [isText] using hlast hne _ rfl
    simp [renderAll, place, Quiet]
  | cons p ps => exact quiet_renderAll hps (by simpa [isText] using halt) htail start

theorem written {outer : List Style} {ps : List Prose} {tail : List Char}
    (hps : AllFit outer ps) (htail : Sealed tail)
    (hlast : tail ≠ [] → ∀ p ∈ ps.getLast?, p.isText = true) (start : Nat) :
    Written outer (place (start + byteSize (renderAll ps)) (runs tail)) ps
      (place start (runs (renderAll ps ++ tail))) := by
  match ps with
  | [] => exact .nil
  | .text letters :: ps =>
    obtain ⟨⟨hne, hletters⟩, halt, hps⟩ := hps
    have hnext := sealed_renderAll (by simpa [isText] using halt) htail
    have hrest := written hps htail (fun hne p hp => hlast hne p (List.mem_getLast?_cons hp))
      (start + byteSize letters)
    rw [renderAll, render, List.append_assoc, place_letters hne hletters hnext, byteSize_append,
      ← Nat.add_assoc]
    exact .text (t := ⟨.word, start, letters⟩) rfl (tag_ne_word_of_sealed hnext _) hrest
  | .styled style cs :: ps =>
    have hquiet := quiet_behind hps htail hlast (start + byteSize (render (.styled style cs)))
    obtain ⟨⟨hshort, hhead, hend, hcs⟩, -, hps⟩ := hps
    have hbehind := Text.sealed_delimiters style (renderAll ps ++ tail)
    have hbody := quiet_renderAll hcs hhead hbehind (start + style.length)
    have hinner := written hcs hbehind (fun _ p hp => by simpa [Option.mem_def.1 hp] using hend)
      (start + style.length)
    have hrest := written hps htail (fun hne p hp => hlast hne p (List.mem_getLast?_cons hp))
      (start + byteSize (render (.styled style cs)))
    have hsize : start + byteSize (render (.styled style cs)) =
        start + style.length + byteSize (renderAll cs) + style.length := by
      rw [render, byteSize_append, byteSize_append, byteSize_delimiters]
      omega
    rw [place_delimiters, ← hsize] at hinner
    rw [renderAll, byteSize_append, ← Nat.add_assoc]
    rw [render, List.append_assoc, List.append_assoc, List.append_assoc, place_delimiters]
    exact .styled (fun s hs hmark => hshort s hs (Style.sign_eq_of_mark hmark))
      (marks_place ..) (marks_place ..) hbody hquiet hinner hrest

end Prose

end TaskMarkup

import TaskMarkup.Proofs.Token.Prose
import TaskMarkup.Proofs.Token.Scanning

namespace TaskMarkup

/-- A word and the points below it, which have dashes or are numbered from `first` on. -/
inductive Point
  | mk (word : List Char) (first : Option Nat) (points : List Point)

namespace Point

structure Line where
  depth : Nat
  number : Option Nat
  word : List Char

def sign : Option Nat → List Char
  | none => ['-']
  | some n => Nat.toDigits 10 n ++ ['.']

def Line.render (width : Nat) (l : Line) : List Char :=
  List.replicate (width * l.depth) ' ' ++ (sign l.number ++ ' ' :: l.word)

mutual

def lines (depth : Nat) (number : Option Nat) : Point → List Line
  | .mk word first points => ⟨depth, number, word⟩ :: allLines (depth + 1) first points

def allLines (depth : Nat) (number : Option Nat) : List Point → List Line
  | [] => []
  | p :: ps => p.lines depth number ++ allLines depth (number.map (· + 1)) ps

end

def render (width : Nat) (first : Option Nat) (points : List Point) : List Char :=
  ['\n'].intercalate ((allLines 0 first points).map (Line.render width))

mutual

/-- Words are letters, and numbers have no more than eight digits. -/
def Fits : Point → Prop
  | .mk word first points => word ≠ [] ∧ (∀ c ∈ word, c.isAlpha = true) ∧ AllFit first points

def AllFit (number : Option Nat) : List Point → Prop
  | [] => True
  | p :: ps => (∀ n ∈ number, n < 10 ^ 8) ∧ p.Fits ∧ AllFit (number.map (· + 1)) ps

end

mutual

def height : Point → Nat
  | .mk _ _ points => heights points + 1

def heights : List Point → Nat
  | [] => 0
  | p :: ps => max p.height (heights ps)

end

structure Line.Sane (l : Line) : Prop where
  word : l.word ≠ []
  letters : ∀ c ∈ l.word, c.isAlpha = true
  number : ∀ n ∈ l.number, n < 10 ^ 8

mutual

theorem Fits.lines {p : Point} {depth : Nat} {number : Option Nat} (h : p.Fits)
    (hnumber : ∀ n ∈ number, n < 10 ^ 8) : ∀ l ∈ p.lines depth number, l.Sane := by
  match p with
  | .mk word first points =>
    obtain ⟨hne, hletters, hpoints⟩ := h
    intro l hl
    rcases List.mem_cons.1 hl with rfl | hl
    · exact ⟨hne, hletters, hnumber⟩
    · exact AllFit.lines hpoints l hl

theorem AllFit.lines {ps : List Point} {depth : Nat} {number : Option Nat} (h : AllFit number ps) :
    ∀ l ∈ allLines depth number ps, l.Sane := by
  match ps with
  | [] => simp [allLines]
  | p :: ps =>
    obtain ⟨hnumber, hp, hps⟩ := h
    intro l hl
    rcases List.mem_append.1 hl with hl | hl
    · exact hp.lines hnumber l hl
    · exact AllFit.lines hps l hl

end

inductive Signs : Option Nat → List Token → Prop
  | dash {t : Token} : t.tag = .dash → Signs none [t]
  | number {t dot : Token} {n : Nat} : t.tag = .number → t.value? = some n → dot.tag = .dot →
      Signs (some n) [t, dot]

mutual

inductive Ahead (width : Nat) : List Line → List Token → Prop
  | line {l : Line} {ls : List Line} {signs ts : List Token} {space word : Token} :
      Signs l.number signs → space.tag = .spaces → word.tag = .word → word.text = l.word →
      Behind width ls ts → Ahead width (l :: ls) (signs ++ space :: word :: ts)

inductive Behind (width : Nat) : List Line → List Token → Prop
  | nil : Behind width [] []
  | newline {nl : Token} : nl.tag = .newline → Behind width [] [nl]
  | line {l : Line} {ls : List Line} {nl : Token} {gap ts : List Token} : nl.tag = .newline →
      (∀ t ∈ gap, t.tag = .spaces) → Text.byteSize (Token.texts gap) = width * l.depth →
      Ahead width (l :: ls) ts → Behind width (l :: ls) (nl :: (gap ++ ts))

end

end Point

namespace Text

theorem runs_replicate_space {n : Nat} {tail : List Char} (hn : n ≠ 0)
    (htail : ∀ c ∈ tail.head?, c ≠ ' ') :
    runs (List.replicate n ' ' ++ tail) = List.replicate n ' ' :: runs tail := by
  have hseam : ∀ a ∈ (List.replicate n ' ').getLast?, ∀ b ∈ tail.head?, joins a b = false := by
    intro a ha b hb
    rw [List.eq_of_mem_replicate (List.mem_of_getLast? ha), joins_comm, joins_space]
    simpa using htail b hb
  have hchain : (List.replicate n ' ').IsChain fun a b => joins a b :=
    List.isChain_replicate_of_rel n (by decide)
  rw [runs_append hseam, runs_of_isChain (by simpa using hn) hchain, List.singleton_append]

end Text

namespace Token

variable {tail : List Char}

theorem exists_place_spaces (n : Nat) (htail : ∀ c ∈ tail.head?, c ≠ ' ') (start : Nat) :
    ∃ gap start', (∀ t ∈ gap, t.tag = .spaces) ∧ Text.byteSize (texts gap) = n ∧
      place start (Text.runs (List.replicate n ' ' ++ tail)) =
        gap ++ place start' (Text.runs tail) := by
  by_cases hn : n = 0
  · subst hn
    exact ⟨[], start, by simp, rfl, rfl⟩
  · obtain ⟨t, start', htag, htext, hplace⟩ :=
      exists_place_cons start (List.replicate n ' ') (Text.runs tail)
    obtain ⟨m, rfl⟩ := Nat.exists_eq_succ_of_ne_zero hn
    refine ⟨[t], start', ?_, ?_, ?_⟩
    · simp [htag, Tag.ofRun, List.replicate_succ, Text.ofChar?_space]
    · rw [texts_cons, texts_nil, List.append_nil, htext, Text.byteSize_replicate]
      exact Nat.mul_one _
    · rw [Text.runs_replicate_space hn htail, hplace, List.singleton_append]

end Token

namespace Point

open Text Token

variable {width : Nat} {number : Option Nat} {l : Line} {ls : List Line} {tail : List Char}

theorem head_sign_ne_space (number : Option Nat) (cs : List Char) :
    ∀ c ∈ (sign number ++ cs).head?, c ≠ ' ' := by
  rintro _ hc rfl
  cases number with
  | none => simp [sign] at hc
  | some n =>
    rw [sign, List.append_assoc, List.head?_append_of_ne_nil _ Nat.toDigits_ne_nil] at hc
    have hdigit := Nat.isDigit_of_mem_toDigits (by decide) (by decide) (List.mem_of_head? hc)
    exact absurd hdigit (by decide)

theorem exists_place_sign (hnumber : ∀ n ∈ number, n < 10 ^ 8) (htail : ∀ c ∈ tail.head?, c ≠ ' ')
    (start : Nat) : ∃ signs space start', Signs number signs ∧ space.tag = .spaces ∧
      place start (runs (sign number ++ ' ' :: tail)) =
        signs ++ space :: place start' (runs tail) := by
  cases number with
  | none =>
    have hdash : Tag.ofChar? '-' = some .dash := rfl
    rw [sign, List.singleton_append, runs_cons hdash, runs_space_cons htail]
    exact ⟨[_], _, _, .dash rfl, rfl, rfl⟩
  | some n =>
    have hdot : Tag.ofChar? '.' = some .dot := rfl
    rw [sign, List.append_assoc, List.singleton_append, runs_append_cons hdot, runs_toDigits,
      runs_space_cons htail]
    have htag := Tag.ofRun_toDigits (hnumber n rfl)
    exact ⟨[_, _], _, _, .number htag (value?_of_toDigits htag rfl) rfl, rfl, rfl⟩

theorem Line.Sane.ahead (h : l.Sane) (htail : Sealed tail)
    (hbehind : ∀ start, Behind width ls (place start (runs tail))) (start : Nat) :
    Ahead width (l :: ls) (place start (runs (sign l.number ++ ' ' :: (l.word ++ tail)))) := by
  have hword : ∀ c ∈ (l.word ++ tail).head?, c ≠ ' ' := by
    rintro _ hc rfl
    rw [List.head?_append_of_ne_nil _ h.word] at hc
    exact absurd (h.letters _ (List.mem_of_head? hc)) (by decide)
  obtain ⟨signs, space, start', hsigns, hspace, hplace⟩ := exists_place_sign h.number hword start
  rw [hplace, place_letters h.word h.letters htail]
  exact .line hsigns hspace rfl rfl (hbehind _)

theorem behind_lines (hls : ∀ l ∈ ls, l.Sane) (htail : tail = [] ∨ tail = ['\n']) (start : Nat) :
    Behind width ls
      (place start (runs (ls.flatMap (fun l => '\n' :: l.render width) ++ tail))) := by
  induction ls generalizing start with
  | nil =>
    rcases htail with rfl | rfl
    · exact .nil
    · exact .newline rfl
  | cons l ls ih =>
    have hrest := ih fun l hl => hls l (List.mem_cons_of_mem _ hl)
    have hnewline : Tag.ofChar? '\n' = some .newline := rfl
    rw [List.flatMap_cons, List.cons_append, List.cons_append, runs_cons hnewline, place,
      Line.render, List.append_assoc, List.append_assoc, List.append_assoc, List.cons_append]
    obtain ⟨gap, start', hgap, hsize, hplace⟩ := exists_place_spaces (width * l.depth)
      (head_sign_ne_space l.number _) (start + byteSize ['\n'])
    rw [hplace]
    exact .line rfl hgap hsize ((hls l (by simp)).ahead (sealed_lines _ ls htail) hrest start')

theorem allLines_cons (depth : Nat) (number first : Option Nat) (word : List Char)
    (points ps : List Point) : allLines depth number (.mk word first points :: ps) =
      ⟨depth, number, word⟩ ::
        (allLines (depth + 1) first points ++ allLines depth (number.map (· + 1)) ps) := by
  simp [allLines, lines]

theorem exists_allLines {points : List Point} (hne : points ≠ []) (depth : Nat)
    (number : Option Nat) :
    ∃ word ls, allLines depth number points = ⟨depth, number, word⟩ :: ls := by
  obtain ⟨⟨word, first, points'⟩, ps, rfl⟩ := List.exists_cons_of_ne_nil hne
  exact ⟨word, _, allLines_cons ..⟩

theorem heights_pos {points : List Point} (hne : points ≠ []) : 0 < heights points := by
  obtain ⟨⟨word, first, points'⟩, ps, rfl⟩ := List.exists_cons_of_ne_nil hne
  rw [heights, height]
  omega

theorem ahead_render {first : Option Nat} {points : List Point} (hne : points ≠ [])
    (hfit : AllFit first points) (htail : tail = [] ∨ tail = ['\n']) :
    Ahead width (allLines 0 first points) (tokenize (render width first points ++ tail)) := by
  obtain ⟨⟨word, first', points'⟩, ps, rfl⟩ := List.exists_cons_of_ne_nil hne
  have hlines : ∀ l ∈ allLines 0 first _, l.Sane := hfit.lines
  rw [render, allLines_cons] at *
  generalize allLines _ _ _ ++ allLines _ _ _ = ls at *
  have hls : ∀ l ∈ ls, l.Sane := fun l hl => hlines l (List.mem_cons_of_mem _ hl)
  have hfirst : List.replicate (width * 0) ' ' = [] := rfl
  rw [List.map_cons, intercalate_cons, List.flatMap_map, Line.render, hfirst, List.nil_append,
    List.append_assoc, List.append_assoc, List.cons_append]
  exact (hlines _ (by simp)).ahead (sealed_lines _ ls htail) (behind_lines hls htail) 0

end Point

end TaskMarkup

import TaskMarkup.Span
import TaskMarkup.Token

namespace TaskMarkup

inductive Style
  | italic | bold | highlight | sub | strike | sup
  deriving DecidableEq, Repr

namespace Style

def mark : Style → Tag × Nat
  | .italic => (.asterisk, 1)
  | .bold => (.asterisk, 2)
  | .highlight => (.asterisk, 3)
  | .sub => (.tilde, 1)
  | .strike => (.tilde, 2)
  | .sup => (.caret, 1)

def singleLine : Style → Bool
  | .sub | .sup => true
  | .italic | .bold | .highlight | .strike => false

def name : Style → String
  | .italic => "Italic"
  | .bold => "Bold"
  | .highlight => "Highlight"
  | .sub => "Sub"
  | .strike => "Strike"
  | .sup => "Sup"

def all : List Style := [.italic, .bold, .highlight, .sub, .strike, .sup]

theorem mem_all (s : Style) : s ∈ all := by cases s <;> decide

end Style

/-- Text has its escapes resolved and keeps line breaks, so it may differ from the source it
covers. -/
inductive Inline
  | text (span : Span) (text : String)
  | styled (span : Span) (style : Style) (children : List Inline)
  | raw (span : Span) (monospace : Bool) (children : List Inline)
  | link (span : Span) (target : String) (caption : Option String)
  | tagRef (span : Span) (child : Inline)
  deriving Repr

namespace Inline

def span : Inline → Span
  | .text s _ | .styled s _ _ | .raw s _ _ | .link s _ _ | .tagRef s _ => s

def children : Inline → List Inline
  | .text .. | .link .. => []
  | .styled _ _ cs | .raw _ _ cs => cs
  | .tagRef _ c => [c]

def kindName : Inline → String
  | .text .. => "Text"
  | .styled _ style _ => style.name
  | .raw .. => "RawInline"
  | .link .. => "Link"
  | .tagRef .. => "TagRef"

mutual

def plainText : Inline → String
  | .text _ t => t
  | .styled _ _ cs => plainTexts cs
  | .raw _ _ cs => plainTexts cs
  | .link _ target caption => caption.getD target
  | .tagRef _ c => "@" ++ c.plainText

def plainTexts : List Inline → String
  | [] => ""
  | c :: cs => c.plainText ++ plainTexts cs

end

mutual

def mapSpan (f : Span → Span) : Inline → Inline
  | .text s t => .text (f s) t
  | .styled s style cs => .styled (f s) style (mapSpans f cs)
  | .raw s monospace cs => .raw (f s) monospace (mapSpans f cs)
  | .link s target caption => .link (f s) target caption
  | .tagRef s c => .tagRef (f s) (c.mapSpan f)

def mapSpans (f : Span → Span) : List Inline → List Inline
  | [] => []
  | c :: cs => c.mapSpan f :: mapSpans f cs

end

theorem mapSpans_eq_map (f : Span → Span) (cs : List Inline) :
    mapSpans f cs = cs.map (mapSpan f) := by
  induction cs with
  | nil => rfl
  | cons c cs ih => simp [mapSpans, ih]

theorem plainTexts_eq_join (cs : List Inline) :
    plainTexts cs = String.join (cs.map plainText) := by
  induction cs with
  | nil => rfl
  | cons c cs ih => simp [plainTexts, ih]

end Inline

end TaskMarkup

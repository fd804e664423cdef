import TaskMarkup.Proofs.Document.Drains

namespace TaskMarkup

variable {F : Fault → Prop} {o : Options} {src : Source} {lo n : Nat} {r : Reader}

theorem Reader.Stands.renders (hr : Reader.Excused F o src) (h : Stands F o src lo r) :
    Block.AllParagraphs (Inline.Renders src) (Document.readFrom n r).blocks := by
  induction n generalizing r lo with
  | zero => trivial
  | succ n ih =>
    cases h.steps hr with
    | @block b r' u hnext hopens _ _ hstands _ =>
      have hsrc : u.source = src := hopens.skips.source.trans h.source
      simp only [Document.readFrom, hnext]
      exact ⟨hsrc ▸ hopens.spans.faithful.renders, ih hstands⟩
    | dummy hnext hdummy _ hfinished _ _ =>
      subst hdummy
      simp only [Document.readFrom, hnext, (readFrom_of_finished hfinished).1]
      exact ⟨trivial, trivial⟩
    | last hnext _ _ _ =>
      simp only [Document.readFrom, hnext]
      trivial
    | fault hnext _ =>
      simp only [Document.readFrom, hnext]
      trivial

namespace Document

/-- In every paragraph of a document each character is white space or a delimiter of a style or lies
in exactly one leaf. The texts of raw leaves and of tags are the source as it stands, the others the
source with its escapes resolved and without the indentation of its lines. -/
theorem read_renders (o : Options) (text : String) :
    Block.AllParagraphs (Inline.Renders (Source.ofString text)) (read o text).blocks :=
  (Reader.start_stands (F := fun _ => True) text (.inl fun _ => trivial)).renders
    (Reader.excused_true o _)

end Document

end TaskMarkup

import TaskMarkup.Proofs.Document.Drains

namespace TaskMarkup

variable {F : Fault → Prop} {o : Options} {src : Source} {lo n : Nat} {r : Reader}

theorem Reader.Stands.lo_le_size (h : Stands F o src lo r) : lo ≤ src.size := by
  have := h.steady.sound.isBoundary_nextOffset.le_size
  rw [h.source] at this
  exact Nat.le_trans h.lo_le this

theorem Reader.Stands.blocks (hr : Reader.Excused F o src) (h : Stands F o src lo r) :
    Blocks src lo src.size (Document.readFrom n r).blocks := by
  induction n generalizing r lo with
  | zero => exact .nil h.lo_le_size
  | succ n ih =>
    cases h.steps hr with
    | block hnext _ hfit hlo hstands _ =>
      simp only [Document.readFrom, hnext]
      exact (Row.singleton hfit hlo hfit.tidy.le (Nat.le_refl _)).append (ih hstands)
    | dummy hnext hdummy hstart hfinished _ _ =>
      subst hdummy
      simp only [Document.readFrom, hnext, (readFrom_of_finished hfinished).1]
      have hlo : lo ≤ 0 := h.fresh hstart ▸ h.lo_le
      exact .singleton (dummy_fits src) hlo (Nat.le_refl _) (Nat.zero_le _)
    | last hnext _ _ _ =>
      simp only [Document.readFrom, hnext]
      exact .nil h.lo_le_size
    | fault hnext _ =>
      simp only [Document.readFrom, hnext]
      exact .nil h.lo_le_size

/-- All nodes of a document cover stretches of it between two characters, siblings one behind the
other and inside their parent, and no block ends within an indentation. -/
theorem Document.read_fits (o : Options) (text : String) :
    Blocks (Source.ofString text) 0 (Source.ofString text).size (read o text).blocks :=
  (Reader.start_stands (F := fun _ => True) text (.inl fun _ => trivial)).blocks
    (Reader.excused_true o _)

end TaskMarkup

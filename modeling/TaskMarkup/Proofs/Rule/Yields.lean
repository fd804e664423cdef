import TaskMarkup.Proofs.Rule.Advances

namespace TaskMarkup.Rule

variable {ε α β : Type} {src : Source} {rule : Rule ε Cursor α} {P P' : α → Prop} {Q : β → Prop}

theorem Ends.given {s : Lexer Cursor} {C : Prop} {R : α → Lexer Cursor → Prop}
    (h : C → Ends (fun _ => True) rule s R fun _ _ => True) :
    Ends (fun _ => True) rule s (fun a t => C → R a t) fun _ _ => True := by
  by_cases hc : C
  · exact (h hc).imp fun _ _ hr _ => hr
  · exact Ends.any.imp fun _ _ _ hc' => absurd hc' hc

def Yields (src : Source) (rule : Rule ε Cursor α) (P : α → Prop) : Prop :=
  ∀ s : Lexer Cursor, s.Placed → s.source = src →
    Ends (fun _ => True) rule s (fun a t => s.Moves t ∧ P a) fun _ _ => True

namespace Yields

theorem of_ends (h : Advances rule) (hp : ∀ s : Lexer Cursor, s.Placed → s.source = src →
    Ends (fun _ => True) rule s (fun a _ => P a) fun _ _ => True) : Yields src rule P :=
  fun s hs hsrc => ((h s hs).and (hp s hs hsrc)).mono (fun _ _ h => h) fun _ _ _ => trivial

theorem of_advances (h : Advances rule) : Yields src rule fun _ => True :=
  .of_ends h fun _ _ _ => Ends.any

theorem imp (h : Yields src rule P) (hP : ∀ a, P a → P' a) : Yields src rule P' :=
  fun s hs hsrc => (h s hs hsrc).imp fun a _ h => ⟨h.1, hP a h.2⟩

theorem pure {a : α} (h : P a) : Yields src (Pure.pure a : Rule ε Cursor α) P :=
  fun _ hs _ => Ends.pure ⟨.refl hs, h⟩

theorem throw (f : Fault) : Yields src (throw (.fault f) : Rule ε Cursor α) P :=
  fun _ _ _ => Ends.throw trivial

theorem bind {next : α → Rule ε Cursor β} (h : Yields src rule P)
    (hn : ∀ a, P a → Yields src (next a) Q) : Yields src (rule >>= next) Q := by
  intro s hs hsrc
  refine Ends.seq (h s hs hsrc) fun a t ⟨ht, ha⟩ => ?_
  have hsrc' := ht.source.trans hsrc
  exact (hn a ha t ht.placed hsrc').imp fun b u hb => ⟨ht.trans hb.1, hb.2⟩

theorem after {next : α → Rule ε Cursor β} (h : Advances rule)
    (hn : ∀ a, Yields src (next a) Q) : Yields src (rule >>= next) Q :=
  bind (.of_advances h) fun a _ => hn a

theorem loop {step : β → Rule ε Cursor (Turn α β)} (I : β → Prop) {b : β} (hb : I b)
    (hstep : ∀ b, I b → Yields src (step b) fun turn => turn.Gives P I) :
    Yields src (Rule.loop step b) P := by
  intro s hs hsrc
  refine Ends.loop_true (fun b t => s.Moves t ∧ I b) ⟨.refl hs, hb⟩ ?_
  rintro b t ⟨ht, hb⟩
  refine (hstep b hb t ht.placed (ht.source.trans hsrc)).imp ?_
  rintro turn u ⟨hu, hturn⟩
  cases turn with
  | done a => exact ⟨ht.trans hu, hturn⟩
  | again b => exact ⟨ht.trans hu, hturn⟩

end Yields

end TaskMarkup.Rule

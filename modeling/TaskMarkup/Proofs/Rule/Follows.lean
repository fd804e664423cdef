import TaskMarkup.Proofs.Rule.Advances

/-!
Two runs side by side: a rule on a whole text, and a rule on an excerpt of it. `Follows L rule rule'
s e Q E` says of the results that the first gives from `s` that the second gives related ones from
`e`. Where the first run gets lost, as `L` has it, no more is said than that the second is over, and
the second may be ended by a defect of its grammar, of which it is known otherwise that there is
none.
-/

namespace TaskMarkup

variable {ε ε' δ δ' α α' β β' : Type}

namespace Lexer

variable {s t : Lexer Cursor} {cut : Nat}

structure Lost (cut : Nat) (s : Lexer Cursor) : Prop extends s.Placed where
  lt : cut < s.observer.lastEnd

theorem Lost.moves (h : s.Lost cut) (ht : s.Moves t) : t.Lost cut :=
  ⟨ht.placed, Nat.lt_of_lt_of_le h.lt ht.lastEnd_le⟩

end Lexer

/-- How the first of two runs gets lost, and how the second is over then. -/
structure Rule.Loss where
  lost : Lexer Cursor → Prop
  ended : Lexer Cursor → Prop

def Rule.Loss.none : Loss := ⟨fun _ => False, fun _ => False⟩

def Rule.Loses (L : Lexer Cursor → Prop) (rule : Rule ε Cursor α) (s : Lexer Cursor) : Prop :=
  Rule.Ends (fun _ => True) rule s (fun _ t => L t) fun _ t => L t

def Rule.Stays (L : Lexer Cursor → Prop) (rule : Rule ε Cursor α) : Prop :=
  ∀ s, L s → Rule.Loses L rule s

namespace Rule

variable {rule : Rule ε Cursor α} {next : α → Rule ε Cursor β} {s : Lexer Cursor} {cut : Nat}

theorem Advances.stays (h : Advances rule) : Stays (Lexer.Lost cut) rule := by
  intro s hs
  apply (h s hs.toPlaced).mono
  · exact fun _ _ ht => hs.moves ht
  · exact fun _ _ ht => hs.moves ht

theorem stays_false : Stays (fun _ => False) rule := fun _ h => h.elim

theorem Loses.bind {L : Lexer Cursor → Prop} (h : Loses L rule s) (hn : ∀ a, Stays L (next a)) :
    Loses L (rule >>= next) s :=
  Ends.bind (Ends.imp h fun a t ht => hn a t ht)

theorem Loses.either {L : Lexer Cursor → Prop} {Q : α → Lexer Cursor → Prop}
    (h : Loses L rule s) : Ends (fun _ => True) rule s (fun a t => L t ∨ Q a t) fun _ t => L t :=
  Ends.imp h fun _ _ => .inl

end Rule

def Rule.Follows (L : Loss) (rule : Rule ε Cursor α) (rule' : Rule ε' Cursor α')
    (s e : Lexer Cursor) (Q : α → α' → Lexer Cursor → Lexer Cursor → Prop)
    (E : Lexer Cursor → Lexer Cursor → Prop) : Prop :=
  Rule.Ends (fun _ => True) rule s
    (fun a t => L.lost t ∧ Rule.Loses L.ended rule' e ∨
      Rule.Ends Fault.IsInternal rule' e (Q a · t ·) fun _ _ => False)
    fun _ t => L.lost t ∧ Rule.Loses L.ended rule' e ∨
      Rule.Ends Fault.IsInternal rule' e (fun _ _ => False) fun _ => E t

namespace Rule.Follows

variable {L : Loss} {rule : Rule ε Cursor α} {rule' : Rule ε' Cursor α'}
  {s e : Lexer Cursor} {Q Q' : α → α' → Lexer Cursor → Lexer Cursor → Prop}
  {E E' : Lexer Cursor → Lexer Cursor → Prop} {cut : Nat}

theorem of_ends_or {P : α → Lexer Cursor → Prop} {P' : α' → Lexer Cursor → Prop}
    (h : Ends (fun _ => True) rule s (fun a t => L.lost t ∨ P a t) fun _ t => L.lost t)
    (h' : Ends Fault.IsInternal rule' e P' fun _ _ => False)
    (hQ : ∀ a a' t t', P a t → P' a' t' → Q a a' t t') (hover : Loses L.ended rule' e) :
    Follows L rule rule' s e Q E := by
  apply Ends.mono h
  · intro a t ht
    apply ht.imp fun ht => ⟨ht, hover⟩
    exact fun ht => h'.imp fun a' t' ht' => hQ a a' t t' ht ht'
  · exact fun _ _ ht => .inl ⟨ht, hover⟩

theorem of_ends {P : α → Lexer Cursor → Prop} {P' : α' → Lexer Cursor → Prop}
    (h : Ends (fun _ => True) rule s P fun _ _ => False)
    (h' : Ends Fault.IsInternal rule' e P' fun _ _ => False)
    (hQ : ∀ a a' t t', P a t → P' a' t' → Q a a' t t') : Follows L rule rule' s e Q E := by
  apply Ends.mono h
  · exact fun a t ht => .inr (h'.imp fun a' t' ht' => hQ a a' t t' ht ht')
  · exact fun _ _ h => h.elim

theorem of_loses (h : Loses L.lost rule s) (hover : Loses L.ended rule' e) :
    Follows L rule rule' s e Q E :=
  Ends.mono h (fun _ _ h => .inl ⟨h, hover⟩) fun _ _ h => .inl ⟨h, hover⟩

theorem mono (h : Follows L rule rule' s e Q E) (hQ : ∀ a a' t t', Q a a' t t' → Q' a a' t t')
    (hE : ∀ t t', E t t' → E' t t') : Follows L rule rule' s e Q' E' :=
  Ends.mono h
    (fun a t ha => ha.imp id fun h' => h'.imp fun a' t' => hQ a a' t t')
    fun _ t ha => ha.imp id fun h' => h'.mono (fun _ _ h => h) fun _ t' => hE t t'

theorem imp (h : Follows L rule rule' s e Q E) (hQ : ∀ a a' t t', Q a a' t t' → Q' a a' t t') :
    Follows L rule rule' s e Q' E :=
  h.mono hQ fun _ _ h => h

theorem weaken (h : Follows .none rule rule' s e Q E) : Follows L rule rule' s e Q E :=
  Ends.mono h (fun _ _ ha => .inr (ha.resolve_left And.left)) fun _ _ ha =>
    .inr (ha.resolve_left And.left)

theorem and {P : α → Lexer Cursor → Prop} {P' : α' → Lexer Cursor → Prop}
    {PE : ε → Lexer Cursor → Prop} {PE' : ε' → Lexer Cursor → Prop}
    (h : Follows L rule rule' s e Q E) (hP : Ends (fun _ => True) rule s P PE)
    (hP' : Ends (fun _ => True) rule' e P' PE') :
    Follows L rule rule' s e (fun a a' t t' => Q a a' t t' ∧ P a t ∧ P' a' t') E := by
  apply (Ends.and h hP).mono
  · rintro a t ⟨h, ha⟩
    apply h.imp id
    intro h
    exact (h.and hP').mono (fun a' t' h => ⟨h.1, ha, h.2⟩) fun _ _ h => h.1
  · exact fun _ _ h => h.1

theorem self (h : Follows L rule rule' s e Q E) :
    Follows L rule rule' s e (fun a a' t t' => Q a a' t t' ∧ rule' e = .ok a' t') E :=
  (h.and Ends.any Ends.any.self).imp fun _ _ _ _ h => ⟨h.1, h.2.2.2⟩

theorem pure {a : α} {a' : α'} (h : Q a a' s e) :
    Follows L (Pure.pure a : Rule ε Cursor α) (Pure.pure a' : Rule ε' Cursor α') s e Q E :=
  .inr h

theorem reject {x : ε} {x' : ε'} (h : E s e) :
    Follows L (Rule.reject x : Rule ε Cursor α) (Rule.reject x' : Rule ε' Cursor α') s e Q E :=
  .inr h

theorem throw {f : Fault} :
    Follows L (throw (.fault f) : Rule ε Cursor α) rule' s e Q E := trivial

theorem exchange {A : α' → Lexer Cursor → β → Lexer Cursor → Prop}
    {B : α' → Lexer Cursor → ε → Lexer Cursor → Prop} {F : Fault → Prop}
    {r : Rule ε Cursor β} (h : Ends F rule' e
      (fun a' t' => Ends (fun _ => True) r s (A a' t') (B a' t')) fun _ _ => False) :
    Ends (fun _ => True) r s
      (fun b u => Ends F rule' e (fun a' t' => A a' t' b u) fun _ _ => False)
      fun x u => Ends F rule' e (fun a' t' => B a' t' x u) fun _ _ => False := by
  unfold Ends
  split
  · next b u hr => exact h.imp fun a' t' h => by simpa only [Ends, hr] using h
  · next x u hr => exact h.imp fun a' t' h => by simpa only [Ends, hr] using h
  · trivial

theorem split {F : Fault → Prop} {p : Prop} {A B : α' → Lexer Cursor → Prop}
    (h : Ends F rule' e (fun a' t' => p ∧ A a' t' ∨ B a' t') fun _ _ => False) :
    p ∧ Ends (fun _ => True) rule' e A (fun _ _ => False) ∨
      Ends F rule' e B fun _ _ => False := by
  unfold Ends at *
  split at h
  · exact h
  · exact h.elim
  · exact .inr h

theorem chain {L' : Loss} {next : α → Rule ε Cursor β}
    {next' : α' → Rule ε' Cursor β'} {R : β → β' → Lexer Cursor → Lexer Cursor → Prop}
    (h : Follows L' rule rule' s e (fun a a' t t' => Follows L (next a) (next' a') t t' R E) E)
    (hl : ∀ t, L'.lost t → L.lost t ∧ ∀ f, L'.ended f → L.ended f)
    (hn : ∀ a t, L'.lost t → Loses L.lost (next a) t)
    (hn' : ∀ t, L'.lost t → ∀ a', Stays L.ended (next' a')) :
    Follows L (rule >>= next) (rule' >>= next') s e R E := by
  have hover (t : Lexer Cursor) (ht : L'.lost t) (h : Loses L'.ended rule' e) :
      Loses L.ended rule' e := h.mono (fun _ => (hl t ht).2) fun _ => (hl t ht).2
  apply Ends.bind
  apply Ends.mono h
  · intro a t h
    rcases h with ⟨ht, h⟩ | h
    · exact of_loses (hn a t ht) ((hover t ht h).bind (hn' t ht))
    · apply (exchange h).mono
      · intro b u hb
        exact (split hb).imp (fun h => ⟨h.1, Ends.bind (h.2.mono (fun _ _ h => h)
          fun _ _ h => h.elim)⟩) Ends.bind
      · intro x u hx
        refine (split hx).imp (fun h => ⟨h.1, Ends.bind (h.2.mono (fun _ _ h => h)
          fun _ _ h => h.elim)⟩) fun h => ?_
        exact Ends.bind (h.mono (fun a' t' h => h) fun _ _ h => h.elim)
  · intro x t h
    refine h.imp (fun h => ⟨(hl t h.1).1, (hover t h.1 h.2).bind (hn' t h.1)⟩) fun h => ?_
    exact Ends.bind (h.mono (fun _ _ h => h.elim) fun _ _ h => h)

theorem bind {next : α → Rule ε Cursor β} {next' : α' → Rule ε' Cursor β'}
    {R : β → β' → Lexer Cursor → Lexer Cursor → Prop}
    (h : Follows .none rule rule' s e
      (fun a a' t t' => Follows L (next a) (next' a') t t' R E) E) :
    Follows L (rule >>= next) (rule' >>= next') s e R E :=
  chain h (fun _ h => h.elim) (fun _ _ h => h.elim) fun _ h => h.elim

theorem seq {next : α → Rule ε Cursor β} {next' : α' → Rule ε' Cursor β'}
    {R : β → β' → Lexer Cursor → Lexer Cursor → Prop}
    (h : Follows .none rule rule' s e Q E)
    (hn : ∀ a a' t t', Q a a' t t' → Follows L (next a) (next' a') t t' R E) :
    Follows L (rule >>= next) (rule' >>= next') s e R E :=
  bind (h.imp hn)

theorem seqLost {next : α → Rule ε Cursor β} {next' : α' → Rule ε' Cursor β'}
    {R : β → β' → Lexer Cursor → Lexer Cursor → Prop} (h : Follows L rule rule' s e Q E)
    (ha : ∀ a, Stays L.lost (next a)) (ha' : ∀ a', Stays L.ended (next' a'))
    (hn : ∀ a a' t t', Q a a' t t' → Follows L (next a) (next' a') t t' R E) :
    Follows L (rule >>= next) (rule' >>= next') s e R E :=
  chain (h.imp hn) (fun _ h => ⟨h, fun _ h => h⟩) (fun a => ha a) fun _ _ => ha'

theorem attempt {Q : Except ε α → Except ε' α' → Lexer Cursor → Lexer Cursor → Prop}
    (h : Follows L rule rule' s e (fun a a' t t' => Q (.ok a) (.ok a') t t')
      fun t t' => ∀ x x', Q (.error x) (.error x') t t') :
    Follows L (Rule.attempt rule : Rule δ Cursor _) (Rule.attempt rule' : Rule δ' Cursor _)
      s e Q E := by
  apply Ends.attempt
  have hover (h : Loses L.ended rule' e) :
      Loses L.ended (Rule.attempt rule' : Rule δ' Cursor _) e :=
    Ends.attempt (h.mono (fun _ _ h => h) fun _ _ h => h)
  apply Ends.mono h
  · exact fun a t ha => ha.imp (And.imp_right hover) fun h =>
      Ends.attempt (h.mono (fun _ _ h => h) fun _ _ h => h.elim)
  · exact fun x t hx => hx.imp (And.imp_right hover) fun h =>
      Ends.attempt (h.mono (fun _ _ h => h.elim) fun x' t' h => h x x')

end Rule.Follows

namespace Rule

variable {step : β → Rule ε Cursor (Turn α β)} {P : α → Prop} {s t : Lexer Cursor} {a : α}
  {b b' : β}

theorem exists_of_bind {rule : Rule ε Cursor α} {next : α → Rule ε Cursor β} {c : β}
    (h : (rule >>= next) s = .ok c t) : ∃ a u, rule s = .ok a u ∧ next a u = .ok c t := by
  cases hrule : rule s with
  | ok a u => exact ⟨a, u, rfl, by rw [← h, bind_of_ok hrule]⟩
  | error e u => simp [Bind.bind, EStateM.bind, hrule] at h

def Leads (step : β → Rule ε Cursor (Turn α β)) (P : α → Prop) (b : β) (s : Lexer Cursor) : Prop :=
  ∃ n a t, Rule.turns step n b s = .ok a t ∧ P a

namespace Leads

theorem of_loop (h : Rule.loop step b s = .ok a t) (ha : P a) : Leads step P b s := by
  obtain ⟨_, _, ⟨⟩, h⟩ := exists_of_bind h
  exact ⟨_, a, t, h, ha⟩

theorem exists_turn (h : Leads step P b s) : ∃ turn t, step b s = .ok turn t ∧
    turn.Gives P fun b => Leads step P b t := by
  obtain ⟨n, a, u, h, ha⟩ := h
  cases n with
  | zero =>
    have h : EStateM.Result.error (Failure.fault Fault.exhausted) s = .ok a u := h
    cases h
  | succ n =>
    obtain ⟨turn, t, hstep, h⟩ := exists_of_bind h
    refine ⟨turn, t, hstep, ?_⟩
    cases turn with
    | done a' =>
      obtain ⟨rfl, rfl⟩ := EStateM.Result.ok.inj h
      exact ha
    | again b' => exact ⟨n, a, u, h, ha⟩

theorem of_done (h : Leads step P b s) (hstep : step b s = .ok (.done a) t) : P a := by
  obtain ⟨turn, u, hstep', h⟩ := h.exists_turn
  obtain ⟨rfl, rfl⟩ := EStateM.Result.ok.inj (hstep.symm.trans hstep')
  exact h

theorem of_again (h : Leads step P b s) (hstep : step b s = .ok (.again b') t) :
    Leads step P b' t := by
  obtain ⟨turn, u, hstep', h⟩ := h.exists_turn
  obtain ⟨rfl, rfl⟩ := EStateM.Result.ok.inj (hstep.symm.trans hstep')
  exact h

end Leads

end Rule

inductive Turn.Both (done : α → α' → Prop) (again : β → β' → Prop) (alone : β → α' → Prop) :
    Turn α β → Turn α' β' → Prop
  | done {a : α} {a' : α'} : done a a' → Both done again alone (.done a) (.done a')
  | again {b : β} {b' : β'} : again b b' → Both done again alone (.again b) (.again b')
  | alone {b : β} {a' : α'} : alone b a' → Both done again alone (.again b) (.done a')

namespace Rule.Follows

variable {L : Loss} {s e : Lexer Cursor} {step : β → Rule ε Cursor (Turn α β)}
  {step' : β' → Rule ε' Cursor (Turn α' β')} {Q : α → α' → Lexer Cursor → Lexer Cursor → Prop}
  {E : Lexer Cursor → Lexer Cursor → Prop} {b : β} {b' : β'} {a' : α'} {n n' : Nat}

theorem stays_turns {L : Lexer Cursor → Prop} (h : ∀ b, Stays L (step b)) (n : Nat) (b : β) :
    Stays L (Rule.turns step n b) := by
  induction n generalizing b with
  | zero => exact fun _ _ => Ends.throw trivial
  | succ n ih =>
    intro s hs
    apply (h b s hs).bind
    intro turn
    cases turn with
    | done a => exact fun _ ht => Ends.pure ht
    | again b => exact ih b

theorem loses_loop {L : Lexer Cursor → Prop} (h : Loses L (step b) s) (hs : ∀ b, Stays L (step b)) :
    Loses L (Rule.loop step b) s := by
  apply Ends.bind
  apply Ends.get
  apply Loses.bind h
  intro turn
  cases turn with
  | done a => exact fun _ ht => Ends.pure ht
  | again b => exact stays_turns hs _ b

theorem turns_alone (J : β → α' → Lexer Cursor → Lexer Cursor → Prop)
    (hJ : ∀ b s, J b a' s e → Ends (fun _ => True) (step b) s
      (fun turn t => L.lost t ∨ turn.Gives (Q · a' t e) (J · a' t e)) fun _ t => L.lost t)
    (hs : ∀ b, Stays L.lost (step b)) (hb : J b a' s e) :
    Ends (fun _ => True) (Rule.turns step n b) s (fun a t => L.lost t ∨ Q a a' t e) fun _ t => L.lost t := by
  induction n generalizing b s with
  | zero => exact Ends.throw trivial
  | succ n ih =>
    apply Ends.bind
    apply (hJ b s hb).imp
    intro turn t h
    cases turn with
    | done a => exact Ends.pure h
    | again b =>
      rcases h with hl | h
      · exact Ends.imp (stays_turns hs n b t hl) fun _ _ h => .inl h
      · exact ih h

theorem turns (I : β → β' → Lexer Cursor → Lexer Cursor → Prop)
    (J : β → α' → Lexer Cursor → Lexer Cursor → Prop)
    (hI : ∀ b b' s e, I b b' s e → Follows L (step b) (step' b') s e
      (fun turn turn' t t' => turn.Both (Q · · t t') (I · · t t') (J · · t t') turn') E)
    (hJ : ∀ b a' s e, J b a' s e → Ends (fun _ => True) (step b) s
      (fun turn t => L.lost t ∨ turn.Gives (Q · a' t e) (J · a' t e)) fun _ t => L.lost t)
    (hs : ∀ b, Stays L.lost (step b))
    (hs' : ∀ t, L.lost t → ∀ b', Stays L.ended (step' b'))
    (hover : ∀ b a' s e, J b a' s e → ∀ t, L.lost t → L.ended e) (hb : I b b' s e) :
    Follows L (Rule.turns step n b) (Rule.turns step' n' b') s e Q E := by
  induction n generalizing n' b b' s e with
  | zero => exact throw
  | succ n ih =>
    cases n' with
    | zero =>
      have hx {Q' E'} : Ends Fault.IsInternal (Rule.turns step' 0 b') e Q' E' :=
        Ends.throw id
      exact Ends.any.mono (fun _ _ _ => .inr hx) fun _ _ _ => .inr hx
    | succ n' =>
      refine chain ((hI b b' s e hb).imp ?_) (fun _ h => ⟨h, fun _ h => h⟩) ?_ ?_
      · intro turn turn' t t' h
        cases h with
        | done h => exact pure h
        | again h => exact ih h
        | alone h =>
          have hlost : ∀ u, L.lost u → L.ended t' := hover _ _ _ _ h
          apply (turns_alone J (fun b s => hJ b _ s _) hs h).mono
          · exact fun a u h => h.imp (fun h => ⟨h, Ends.pure (hlost u h)⟩) fun h => Ends.pure h
          · exact fun _ u h => .inl ⟨h, Ends.pure (hlost u h)⟩
      · intro turn
        cases turn with
        | done a => exact fun _ ht => Ends.pure ht
        | again b => exact stays_turns hs n b
      · intro t ht turn'
        cases turn' with
        | done a' => exact fun _ ht => Ends.pure ht
        | again b' => exact stays_turns (hs' t ht) n' b'

theorem loop (I : β → β' → Lexer Cursor → Lexer Cursor → Prop)
    (J : β → α' → Lexer Cursor → Lexer Cursor → Prop) (hb : I b b' s e)
    (hI : ∀ b b' s e, I b b' s e → Follows L (step b) (step' b') s e
      (fun turn turn' t t' => turn.Both (Q · · t t') (I · · t t') (J · · t t') turn') E)
    (hJ : ∀ b a' s e, J b a' s e → Ends (fun _ => True) (step b) s
      (fun turn t => L.lost t ∨ turn.Gives (Q · a' t e) (J · a' t e)) fun _ t => L.lost t)
    (hs : ∀ b, Stays L.lost (step b)) (hs' : ∀ t, L.lost t → ∀ b', Stays L.ended (step' b'))
    (hover : ∀ b a' s e, J b a' s e → ∀ t, L.lost t → L.ended e) :
    Follows L (Rule.loop step b) (Rule.loop step' b') s e Q E :=
  bind (Ends.get (.inr (Ends.get (turns I J hI hJ hs hs' hover hb))))

theorem loopBoth (I : β → β' → Lexer Cursor → Lexer Cursor → Prop) (hb : I b b' s e)
    (hI : ∀ b b' s e, I b b' s e → Follows .none (step b) (step' b') s e
      (fun turn turn' t t' => turn.Both (Q · · t t') (I · · t t') (fun _ _ => False) turn') E) :
    Follows L (Rule.loop step b) (Rule.loop step' b') s e Q E :=
  weaken (loop I (fun _ _ _ _ => False) hb hI (fun _ _ _ _ h => h.elim) (fun _ => stays_false)
    (fun _ h => h.elim) fun _ _ _ _ h => h.elim)

end Rule.Follows

end TaskMarkup

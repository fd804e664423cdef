import TaskMarkup.Lexer.Repeat
import TaskMarkup.Proofs.Lexer.Pending

/-!
What a rule does from a given lexer on. `Ends F rule s Q E` says that `rule` gives a result as in `Q`
or rejects the input as in `E`, unless one of the faults in `F` ends it. With `F` empty that is total
correctness; with every fault in `F` it speaks of the results only, and then nothing has to be known
of the looks that are left (`Spare`).
-/

namespace TaskMarkup

def Fault.IsArithmetic : Fault → Prop
  | .overflow _ | .capacity => True
  | .lookahead _ | .stalled .. | .exhausted | .outside .. | .insideChar .. => False

/-- A fault that no source brings about. Where these are excused, nothing has to be known of the
looks and the turns that are left. -/
abbrev Fault.IsInternal (f : Fault) : Prop := ¬f.IsArithmetic

variable {ε σ α β : Type} {F : Fault → Prop}

abbrev Turn.Gives (done : α → Prop) (again : β → Prop) : Turn α β → Prop
  | .done a => done a
  | .again b => again b

def Rule.Ends (F : Fault → Prop) (rule : Rule ε σ α) (s : Lexer σ) (Q : α → Lexer σ → Prop)
    (E : ε → Lexer σ → Prop) : Prop :=
  match rule s with
  | .ok a t => Q a t
  | .error (.rejected e) t => E e t
  | .error (.fault f) _ => F f

/-- At most `n` of a hundred looks have been taken, unless too many of them are excused. -/
def Lexer.Spare (F : Fault → Prop) (n : Nat) (s : Lexer σ) : Prop :=
  (∀ peeks offset, F (.stalled peeks offset)) ∨ Lexer.defaultLimit ≤ s.limit ∧ s.peeks ≤ n

namespace Lexer

variable {s t : Lexer σ} {m n : Nat}

theorem spare_true (s : Lexer σ) (n : Nat) : s.Spare (fun _ => True) n := .inl fun _ _ => trivial

theorem spare_internal (s : Lexer σ) (n : Nat) : s.Spare Fault.IsInternal n := .inl fun _ _ => id

theorem Spare.mono (h : s.Spare F m) (hmn : m ≤ n) : s.Spare F n :=
  h.imp id fun h => ⟨h.1, Nat.le_trans h.2 hmn⟩

theorem Eats.spare [Observer σ] {tok : Token} (h : Eats s tok t) (hs : s.Spare F n) :
    t.Spare F 0 :=
  hs.imp id fun hs => ⟨h.limit ▸ hs.1, Nat.le_of_eq h.peeks⟩

theorem Looks.eats [Observer σ] {u : Lexer σ} {tok : Token} (h : Looks s t) (h' : Eats t tok u) :
    Eats s tok u where
  source := h'.source.trans h.source
  limit := h'.limit.trans h.limit
  observer := h.observer ▸ h'.observer
  pending := h.pending ▸ h'.pending
  sound := h'.sound
  peeks := h'.peeks

end Lexer

theorem Rule.bind_of_ok {rule : Rule ε σ α} {next : α → Rule ε σ β} {s t : Lexer σ} {a : α}
    (h : rule s = .ok a t) : (rule >>= next) s = next a t := by
  simp only [Bind.bind, EStateM.bind, h]

namespace Rule.Ends

variable {rule : Rule ε σ α} {s t : Lexer σ} {Q Q' : α → Lexer σ → Prop} {E E' : ε → Lexer σ → Prop}

theorem mono (h : Ends F rule s Q E) (hQ : ∀ a t, Q a t → Q' a t)
    (hE : ∀ e t, E e t → E' e t) : Ends F rule s Q' E' := by
  unfold Ends at *
  split at h
  · exact hQ _ _ h
  · exact hE _ _ h
  · exact h

theorem imp (h : Ends F rule s Q E) (hQ : ∀ a t, Q a t → Q' a t) : Ends F rule s Q' E :=
  h.mono hQ fun _ _ h => h

theorem any : Ends (fun _ => True) rule s (fun _ _ => True) fun _ _ => True := by
  unfold Ends
  split <;> trivial

theorem and {F' : Fault → Prop} (h : Ends F rule s Q E) (h' : Ends F' rule s Q' E') :
    Ends F rule s (fun a t => Q a t ∧ Q' a t) fun e t => E e t ∧ E' e t := by
  unfold Ends at *
  split at h
  · next a t hr => exact ⟨h, by simpa only [hr] using h'⟩
  · next e t hr => exact ⟨h, by simpa only [hr] using h'⟩
  · exact h

theorem also {F' : Fault → Prop} (h : Ends F rule s Q E) (h' : Ends F' rule s Q' E') :
    Ends F rule s (fun a t => Q a t ∧ Q' a t) E :=
  (h.and h').mono (fun _ _ h => h) fun _ _ h => h.1

theorem meet {F' G : Fault → Prop} (h : Ends F rule s Q E) (h' : Ends F' rule s Q' E')
    (hG : ∀ f, F f → F' f → G f) :
    Ends G rule s (fun a t => Q a t ∧ Q' a t) fun e t => E e t ∧ E' e t := by
  unfold Ends at *
  split at h
  · next a t hr => exact ⟨h, by simpa only [hr] using h'⟩
  · next e t hr => exact ⟨h, by simpa only [hr] using h'⟩
  · next f t hr => exact hG f h (by simpa only [hr] using h')

theorem self (h : Ends F rule s Q E) : Ends F rule s (fun a t => Q a t ∧ rule s = .ok a t) E := by
  unfold Ends at *
  split at h
  · next hr => exact ⟨h, hr⟩
  · exact h
  · exact h

theorem of_ok {a : α} (h : Ends F rule s Q E) (ha : rule s = .ok a t) : Q a t := by
  rw [Ends, ha] at h
  exact h

theorem exists_ok (h : Ends (fun _ => False) rule s Q E) (hE : ∀ e t, ¬E e t) :
    ∃ a t, rule s = .ok a t ∧ Q a t := by
  unfold Ends at h
  split at h
  · next a t hr => exact ⟨a, t, hr, h⟩
  · exact absurd h (hE _ _)
  · exact h.elim

theorem pure {a : α} (h : Q a s) : Ends F (Pure.pure a) s Q E := h

theorem bind {next : α → Rule ε σ β} {R : β → Lexer σ → Prop}
    (h : Ends F rule s (fun a t => Ends F (next a) t R E) E) : Ends F (rule >>= next) s R E := by
  unfold Ends at h ⊢
  simp only [Bind.bind, EStateM.bind]
  cases hr : rule s with
  | ok a t => simpa only [hr] using h
  | error e t => cases e <;> simpa only [hr] using h

theorem seq {next : α → Rule ε σ β} {R : β → Lexer σ → Prop} (h : Ends F rule s Q E)
    (hn : ∀ a t, Q a t → Ends F (next a) t R E) : Ends F (rule >>= next) s R E :=
  bind (h.imp hn)

theorem last {next : α → Rule ε σ β} {R : β → Lexer σ → Prop}
    (h : ∀ a t, Ends (fun _ => True) (next a) t R fun _ _ => True) :
    Ends (fun _ => True) (rule >>= next) s R fun _ _ => True :=
  seq any fun a t _ => h a t

theorem throw {f : Fault} (h : F f) : Ends F (throw (.fault f) : Rule ε σ α) s Q E := h

theorem reject {e : ε} (h : E e s) : Ends F (Rule.reject e : Rule ε σ α) s Q E := h

theorem get {Q : Lexer σ → Lexer σ → Prop} (h : Q s s) :
    Ends F (get : Rule ε σ (Lexer σ)) s Q E := h

theorem modify {g : Lexer σ → Lexer σ} {Q : Unit → Lexer σ → Prop} (h : Q () (g s)) :
    Ends F (modify g : Rule ε σ Unit) s Q E := h

theorem attempt {δ : Type} {Q : Except ε α → Lexer σ → Prop} {E' : δ → Lexer σ → Prop}
    (h : Ends F rule s (fun a t => Q (.ok a) t) fun e t => Q (.error e) t) :
    Ends F (Rule.attempt rule : Rule δ σ (Except ε α)) s Q E' := by
  unfold Ends Rule.attempt at *
  split at h
  · next hr => simpa only [hr] using h
  · next hr => simpa only [hr] using h
  · next hr => simpa only [hr] using h

theorem count {Q : Token → Lexer σ → Prop} {n : Nat} (hs : s.Sound) (hn : n < lookaheadSize)
    (hstall : s.limit ≤ s.peeks + 1 → ∀ offset, F (.stalled (s.peeks + 1) offset))
    (hQ : ∀ u, s.Looks u → u.peeks = s.peeks + 1 → 0 < u.ready.size → s.peeks + 1 < s.limit →
      Q (s.ahead n) u) : Ends F (Rule.peek n) s Q E := by
  let s' : Lexer σ := { s with peeks := s.peeks + 1 }
  have hl : s.Looks s' := ⟨rfl, rfl, rfl, rfl, ⟨hs.pending, hs.ready⟩, Nat.le_refl _⟩
  obtain ⟨hf, hp, hz⟩ := Lexer.fill_looks (n := n + 1) hl.sound hn
  have hu := hl.trans hf
  have hrun : Rule.peek (ε := ε) n s = if s.limit ≤ s.peeks + 1 then
      .error (.fault (.stalled (s.peeks + 1) s'.nextOffset)) s'
      else .ok ((s'.fill (n + 1)).ready.get n) (s'.fill (n + 1)) := by
    simp only [Rule.peek, if_neg (Nat.not_le.2 hn)]
    rfl
  unfold Ends
  rw [hrun]
  by_cases hlim : s.limit ≤ s.peeks + 1
  · rw [if_pos hlim]
    exact hstall hlim _
  · rw [if_neg hlim]
    simp only
    rw [hf.sound.get_ready hz, hu.ahead]
    exact hQ _ hu hp (by omega) (by omega)

theorem peek {Q : Token → Lexer σ → Prop} {k n : Nat} (h : s.Looks t) (hn : n < lookaheadSize)
    (hk : t.Spare F k) (hk' : k < 98)
    (hQ : ∀ u, s.Looks u → u.Spare F (k + 1) → 0 < u.ready.size → Q (s.ahead n) u) :
    Ends F (Rule.peek n) t Q E := by
  apply count h.sound hn
  · intro hlim offset
    rcases hk with hk | ⟨hd, hk⟩
    · exact hk ..
    · simp only [Lexer.defaultLimit] at hd
      omega
  · intro u hu hp hz _
    rw [h.ahead]
    refine hQ u (h.trans hu) (hk.imp id fun hk => ⟨?_, ?_⟩) hz
    · rw [hu.limit]
      exact hk.1
    · rw [hp]
      exact Nat.add_le_add_right hk.2 1

theorem peekTag {Q : Tag → Lexer σ → Prop} {k n : Nat} (h : s.Looks t) (hn : n < lookaheadSize)
    (hk : t.Spare F k) (hk' : k < 98)
    (hQ : ∀ u, s.Looks u → u.Spare F (k + 1) → 0 < u.ready.size → Q (s.ahead n).tag u) :
    Ends F (Rule.peekTag n) t Q E :=
  bind (peek h hn hk hk' fun u hu hs hz => pure (hQ u hu hs hz))

theorem look {next : Tag → Rule ε σ α} {n : Nat} (h : s.Looks t) (hn : n < lookaheadSize)
    (hnext : ∀ u, s.Looks u → Ends Fault.IsInternal (next (s.ahead n).tag) u Q E) :
    Ends Fault.IsInternal (Rule.peekTag n >>= next) t Q E :=
  bind (peekTag h hn (t.spare_internal 0) (by decide) fun u hu _ _ => hnext u hu)

theorem eat [Observer σ] {Q : Token → Lexer σ → Prop} {k : Nat} {tok : Token}
    {rest : List Token} (h : s.Looks t) (hk : t.Spare F k) (hk' : k < 98)
    (hp : s.pending = tok :: rest)
    (hQ : ∀ u, s.Eats tok u → u.pending = rest → u.Spare F 0 → Q tok u) :
    Ends F Rule.eat t Q E := by
  refine bind (peek h (by decide) hk hk' fun u hu hs hz => ?_)
  have htok : s.ahead 0 = tok := by simp [Lexer.ahead, hp]
  rw [htok]
  have he := Lexer.advance_eats hu.sound hz (hu.pending.trans hp)
  have hes := hu.eats he
  have hrest : (u.advance tok).pending = rest := by simpa [hp] using hes.pending.symm
  exact bind (modify (pure (hQ _ hes hrest (he.spare hs))))

theorem turns {step : β → Rule ε σ (Turn α β)} {I : β → Lexer σ → Prop}
    (hstep : ∀ b s, I b s → Ends F (step b) s (fun turn t => turn.Gives (fun a => Q a t)
      fun b => I b t ∧ t.pending.length < s.pending.length) E)
    {n : Nat} {b : β} (hb : I b s) (hn : s.pending.length < n) :
    Ends F (Rule.turns step n b) s Q E := by
  induction n generalizing b s with
  | zero => omega
  | succ n ih =>
    refine bind ((hstep b s hb).imp fun turn t ht => ?_)
    cases turn with
    | done a => exact pure ht
    | again b => exact ih ht.1 (by omega)

theorem loop {step : β → Rule ε σ (Turn α β)} (I : β → Lexer σ → Prop)
    (hs : s.Sound) {b : β} (hb : I b s)
    (hstep : ∀ b s, I b s → Ends F (step b) s (fun turn t => turn.Gives (fun a => Q a t)
      fun b => I b t ∧ t.pending.length < s.pending.length) E) :
    Ends F (Rule.loop step b) s Q E := by
  have := hs.length_pending_le
  exact bind (get (turns hstep hb (by omega)))

theorem turns_of_exhausted (hF : F .exhausted) {step : β → Rule ε σ (Turn α β)}
    {I : β → Lexer σ → Prop}
    (hstep : ∀ b s, I b s → Ends F (step b) s
      (fun turn t => turn.Gives (fun a => Q a t) fun b => I b t) E) {n : Nat} {b : β} (hb : I b s) :
    Ends F (Rule.turns step n b) s Q E := by
  induction n generalizing b s with
  | zero => exact throw hF
  | succ n ih =>
    refine bind ((hstep b s hb).imp fun turn t ht => ?_)
    cases turn with
    | done a => exact pure ht
    | again b => exact ih ht

theorem loop_of_exhausted (hF : F .exhausted) {step : β → Rule ε σ (Turn α β)}
    (I : β → Lexer σ → Prop) {b : β} (hb : I b s)
    (hstep : ∀ b s, I b s → Ends F (step b) s
      (fun turn t => turn.Gives (fun a => Q a t) fun b => I b t) E) :
    Ends F (Rule.loop step b) s Q E :=
  bind (get (turns_of_exhausted hF hstep hb))

theorem loop_true {step : β → Rule ε σ (Turn α β)} (I : β → Lexer σ → Prop) {b : β} (hb : I b s)
    (hstep : ∀ b s, I b s → Ends (fun _ => True) (step b) s
      (fun turn t => turn.Gives (fun a => Q a t) fun b => I b t) E) :
    Ends (fun _ => True) (Rule.loop step b) s Q E :=
  loop_of_exhausted trivial I hb hstep

end Rule.Ends

end TaskMarkup

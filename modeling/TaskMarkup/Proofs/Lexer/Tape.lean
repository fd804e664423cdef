import TaskMarkup.Proofs.Rule.Ends

/-!
The lexer as a place on a tape. The tape holds the tokens of the source and end sentinels behind them
for good; all that is known of a lexer is how many of them were eaten and how many looks were taken
since. Every operation is a list of accesses to the tape, which the tokens ahead decide. The main
statement is that the lexer with its ring gives the replies that the tape gives, comes to the same
fault, and shows its observer the tokens that were eaten, each once and in order.
-/

namespace TaskMarkup

def Source.token (s : Source) (n : Nat) : Token :=
  (tokenize s.chars).getD n (Token.eof s.size)

/-- How an operation goes to the tokens. Eating a token is a look at it as well. -/
inductive Access
  | look (distance : Nat)
  | eat
  deriving DecidableEq, Repr

def Access.distance : Access → Nat
  | .look n => n
  | .eat => 0

structure Tape where
  source : Source
  /-- How many tokens were eaten, end sentinels included. -/
  index : Nat
  /-- How many accesses there were since a token was eaten that is no end sentinel. -/
  looks : Nat
  limit : Nat

namespace Tape

def start (source : Source) (limit : Nat) : Tape := ⟨source, 0, 0, max limit 1⟩

def ahead (t : Tape) (n : Nat) : Token := t.source.token (t.index + n)

def eaten (t : Tape) : List Token := (List.range t.index).map t.source.token

def rest (t : Tape) : List Token := (tokenize t.source.chars).drop t.index

def skip (t : Tape) (n : Nat) : Tape := { t with index := t.index + n }

/-- The fault of an access: it goes too far, or it is the last of too many. -/
def fault? (t : Tape) (a : Access) : Option Fault :=
  if lookaheadSize ≤ a.distance then some (.lookahead a.distance)
  else if t.limit ≤ t.looks + 1 then some (.stalled (t.looks + 1) (t.ahead 0).start)
  else none

def after (t : Tape) : Access → Tape
  | .look _ => { t with looks := t.looks + 1 }
  | .eat =>
    { t with index := t.index + 1, looks := if (t.ahead 0).tag = .eof then t.looks + 1 else 0 }

def play : List Access → Tape → Option Fault × Tape
  | [], t => (none, t)
  | a :: as, t =>
    match t.fault? a with
    | some f => (some f, t)
    | none => play as (t.after a)

def agreeing (t : Tape) (n : Nat) : List Tag → Nat
  | [] => 0
  | tag :: tags => if (t.ahead n).tag = tag then t.agreeing (n + 1) tags + 1 else 0

def peekAll (t : Tape) (n : Nat) (tags : List Tag) : List Access :=
  (List.range' n (min (t.agreeing n tags + 1) tags.length)).map .look

def before (t : Tape) (stop : Token → Bool) : Nat := (t.rest.takeWhile fun u => !stop u).length

end Tape

inductive Operation
  | peek (n : Nat)
  | eat
  | peekIf (tag : Tag) (n : Nat)
  | eatIf (tag : Tag)
  | peekAll (tags : List Tag)
  | eatMany (n : Nat)
  | eatUntil (stop : Token → Bool)
  | eatLine
  | eatWhitespace

inductive Reply
  | token (t : Token)
  | token? (t : Option Token)
  | flag (b : Bool)
  | none
  deriving DecidableEq, Repr

namespace Tape

def eatIf (t : Tape) (tag : Tag) : List Access :=
  if (t.ahead 0).tag = tag then [.look 0, .eat] else [.look 0]

def eatUntil (t : Tape) (stop : Token → Bool) : List Access :=
  (List.replicate (t.before stop) [.look 0, .eat]).flatten ++ [.look 0]

def accesses (t : Tape) : Operation → List Access
  | .peek n | .peekIf _ n => [.look n]
  | .eat => [.eat]
  | .eatIf tag => t.eatIf tag
  | .peekAll tags => t.peekAll 0 tags
  | .eatMany n => List.replicate n .eat
  | .eatUntil stop => t.eatUntil stop
  | .eatLine =>
    let stop (u : Token) := u.tag == .newline
    t.eatUntil stop ++ (t.skip (t.before stop)).eatIf .newline
  | .eatWhitespace => t.eatUntil fun u => !(u.tag.isInlineSpace || u.tag == .newline)

def reply (t : Tape) : Operation → Reply
  | .peek n => .token (t.ahead n)
  | .eat => .token (t.ahead 0)
  | .peekIf tag n => .token? (if (t.ahead n).tag = tag then some (t.ahead n) else none)
  | .eatIf tag => .token? (if (t.ahead 0).tag = tag then some (t.ahead 0) else none)
  | .peekAll tags => .flag (t.agreeing 0 tags = tags.length)
  | .eatMany _ | .eatUntil _ | .eatLine | .eatWhitespace => .none

def run (t : Tape) : List Operation → List Reply × Option Fault × Tape
  | [] => ([], none, t)
  | op :: ops =>
    match play (t.accesses op) t with
    | (some f, u) => ([], some f, u)
    | (none, u) =>
      let (replies, fault, v) := u.run ops
      (t.reply op :: replies, fault, v)

end Tape

namespace Operation

variable {σ : Type} [Observer σ]

def rule : Operation → Rule Empty σ Reply
  | peek n => return .token (← Rule.peek n)
  | eat => return .token (← Rule.eat)
  | peekIf tag n => return .token? (← Rule.peekIf tag n)
  | eatIf tag => return .token? (← Rule.eatIf tag)
  | peekAll tags => return .flag (← Rule.peekAll 0 tags)
  | eatMany n => do
    Rule.eatMany n
    return .none
  | eatUntil stop => do
    Rule.eatUntil stop
    return .none
  | eatLine => do
    Rule.eatLine
    return .none
  | eatWhitespace => do
    Rule.eatWhitespace
    return .none

def run : List Operation → Lexer σ → List Reply × Option Fault × Lexer σ
  | [], s => ([], none, s)
  | op :: ops, s =>
    match op.rule s with
    | .error (.fault f) t => ([], some f, t)
    | .ok reply t =>
      let (replies, fault, u) := run ops t
      (reply :: replies, fault, u)

end Operation

section

variable {ε σ α β : Type} [Observer σ] {o : σ} {s : Lexer σ} {t u : Tape}

def Tape.watched (t : Tape) (o : σ) : σ := t.eaten.foldl (fun o tok => Observer.onEat tok o) o

structure Tape.Holds (t : Tape) (o : σ) (s : Lexer σ) : Prop where
  sound : s.Sound
  source : s.source = t.source
  limit : s.limit = t.limit
  peeks : s.peeks = t.looks
  pending : s.pending = t.rest
  observer : s.observer = t.watched o

/-- The rule makes these accesses to the tape and gives `a`, unless a fault ends them. -/
def Rule.Plays (o : σ) (rule : Rule ε σ α) (s : Lexer σ) (t : Tape) (as : List Access) (a : α) :
    Prop :=
  match Tape.play as t with
  | (none, u) => ∃ s', rule s = .ok a s' ∧ u.Holds o s'
  | (some f, u) => ∃ s', rule s = .error (.fault f) s' ∧ s'.observer = u.watched o

namespace Tape

theorem start_holds (source : Source) (limit : Nat) (o : σ) :
    (start source limit).Holds o (Lexer.start source limit o) where
  sound := Lexer.start_sound source limit o
  source := rfl
  limit := rfl
  peeks := rfl
  pending := by simp [rest, start]
  observer := rfl

theorem Holds.ahead_eq (h : t.Holds o s) (n : Nat) : s.ahead n = t.ahead n := by
  simp [Lexer.ahead, h.pending, h.source, rest, Tape.ahead, Source.token,
    List.getD_eq_getElem?_getD]

theorem Holds.nextOffset_eq (h : t.Holds o s) : s.nextOffset = (t.ahead 0).start := by
  rw [h.sound.nextOffset_eq, ← h.ahead_eq, Lexer.ahead]
  cases s.pending <;> rfl

theorem play_append (as bs : List Access) (t : Tape) :
    play (as ++ bs) t = match play as t with
      | (none, u) => play bs u
      | (some f, u) => (some f, u) := by
  induction as generalizing t with
  | nil => rfl
  | cons a as ih =>
    simp only [List.cons_append, play]
    split
    · rfl
    · exact ih _

end Tape

namespace Lexer

theorem advance_sentinel (h : s.Sound) (hp : s.pending = []) (tok : Token) :
    (s.advance tok).Sound ∧ (s.advance tok).pending = [] := by
  obtain ⟨ahead, k, hr, ha, hk⟩ := h.ready
  have hpend : ahead ++ s.upcoming = [] := by
    rw [← hp, pending, hr, filter_tag_ne_eof ha]
  obtain ⟨rfl, hup⟩ := List.append_eq_nil_iff.1 hpend
  have hpop : (s.advance tok).ready.toList = [] ++ List.replicate (k - 1) (Token.eof s.source.size) := by
    simp [advance, Lookahead.toList_pop, hr]
  have hpend' : (s.advance tok).pending = [] := by
    rw [pending, hpop, filter_tag_ne_eof (by simp)]
    exact hup
  refine ⟨⟨?_, [], k - 1, hpop, by simp, .inr hup⟩, hpend'⟩
  rw [hpend', ← hp]
  exact h.pending

end Lexer

namespace Tape

theorem eq_foldl_of_play {as : List Access} (h : play as t = (none, u)) : u = as.foldl after t := by
  induction as generalizing t with
  | nil => exact (Prod.mk.inj h).2.symm
  | cons a as ih =>
    unfold play at h
    split at h
    · simp at h
    · exact ih h

@[simp] theorem agreeing_look (t : Tape) (m n : Nat) (tags : List Tag) :
    (t.after (.look m)).agreeing n tags = t.agreeing n tags := by
  induction tags generalizing n with
  | nil => rfl
  | cons tag tags ih =>
    simp only [agreeing, ih]
    rfl

theorem rest_cases (t : Tape) : (t.ahead 0).tag = .eof ∧ t.rest = [] ∨
    (t.ahead 0).tag ≠ .eof ∧ t.rest = t.ahead 0 :: (t.skip 1).rest := by
  have hahead : t.ahead 0 = t.rest.headD (Token.eof t.source.size) := by
    simp [ahead, Source.token, rest, List.getD_eq_getElem?_getD, List.headD_eq_head?_getD]
  have htail : (t.skip 1).rest = t.rest.tail := by simp [rest, skip]
  rw [hahead, htail]
  cases hr : t.rest with
  | nil => exact .inl ⟨rfl, rfl⟩
  | cons tok rest =>
    have htok : tok ∈ tokenize t.source.chars := List.mem_of_mem_drop (i := t.index) (by
      rw [← Tape.rest, hr]
      simp)
    exact .inr ⟨(spelled_of_mem_tokenize htok).tag_ne_eof, rfl⟩

theorem eatUntil_of_stop (t : Tape) {stop : Token → Bool}
    (h : (t.ahead 0).tag = .eof ∨ stop (t.ahead 0) = true) : t.eatUntil stop = [.look 0] := by
  have hbefore : t.before stop = 0 := by
    rcases t.rest_cases with ⟨-, hrest⟩ | ⟨htag, hrest⟩
    · simp [before, hrest]
    · simp [before, hrest, h.resolve_left htag]
  simp [eatUntil, hbefore]

theorem eatUntil_of_not_stop (t : Tape) {stop : Token → Bool}
    (h : ¬((t.ahead 0).tag = .eof ∨ stop (t.ahead 0) = true)) :
    t.rest.length = (t.skip 1).rest.length + 1 ∧
      t.eatUntil stop = [.look 0, .eat] ++ (t.skip 1).eatUntil stop := by
  rw [not_or, Bool.not_eq_true] at h
  obtain ⟨-, hrest⟩ := t.rest_cases.resolve_left fun hr => h.1 hr.1
  have hbefore : t.before stop = (t.skip 1).before stop + 1 := by
    rw [before, hrest, List.takeWhile_cons_of_pos (by simp [h.2])]
    rfl
  refine ⟨by rw [hrest, List.length_cons], ?_⟩
  rw [eatUntil, eatUntil, hbefore, List.replicate_succ, List.flatten_cons, List.append_assoc]

theorem foldl_after (as : List Access) (t : Tape) :
    (as.foldl after t).source = t.source ∧
      (as.foldl after t).index = t.index + as.count .eat := by
  induction as generalizing t with
  | nil => exact ⟨rfl, rfl⟩
  | cons a as ih =>
    obtain ⟨hsource, hindex⟩ := ih (t.after a)
    refine ⟨hsource.trans ?_, hindex.trans ?_⟩
    · cases a <;> rfl
    · cases a with
      | look n => simp [after]
      | eat =>
        simp [after]
        omega

theorem eatIf_of_play {stop : Token → Bool} (h : play (t.eatUntil stop) t = (none, u)) (tag : Tag) :
    u.eatIf tag = (t.skip (t.before stop)).eatIf tag := by
  obtain rfl := eq_foldl_of_play h
  obtain ⟨hsource, hindex⟩ := foldl_after (t.eatUntil stop) t
  have hcount : (t.eatUntil stop).count .eat = t.before stop := by
    simp [eatUntil, List.count_flatten, List.map_replicate]
  rw [hcount] at hindex
  have hahead : ((t.eatUntil stop).foldl after t).ahead 0 = (t.skip (t.before stop)).ahead 0 := by
    simp only [ahead, hsource, hindex, skip]
  rw [eatIf, eatIf, hahead]

theorem watched_after_eat (t : Tape) (o : σ) :
    (t.after .eat).watched o = Observer.onEat (t.ahead 0) (t.watched o) := by
  simp [watched, eaten, after, List.range_succ, ahead]

theorem Holds.advance (h : (t.after (.look 0)).Holds o s) (hs : 0 < s.ready.size) :
    (t.after .eat).Holds o (s.advance (t.ahead 0)) := by
  have hobserver : (s.advance (t.ahead 0)).observer = (t.after .eat).watched o := by
    rw [watched_after_eat]
    exact congrArg (Observer.onEat (t.ahead 0)) h.observer
  have hpeeks : (s.advance (t.ahead 0)).peeks = (t.after .eat).looks := by
    simp only [Lexer.advance, after, h.peeks]
  have hpend : s.pending = t.rest := h.pending
  rcases t.rest_cases with ⟨-, hrest⟩ | ⟨-, hrest⟩
  · have hafter : (t.skip 1).rest = [] := by
      rw [Tape.rest, List.drop_eq_nil_iff] at hrest ⊢
      exact Nat.le_succ_of_le hrest
    obtain ⟨hsound, hnil⟩ := Lexer.advance_sentinel h.sound (hpend.trans hrest) (t.ahead 0)
    exact ⟨hsound, h.source, h.limit, hpeeks, hnil.trans hafter.symm, hobserver⟩
  · have he := Lexer.advance_eats h.sound hs (hpend.trans hrest)
    refine ⟨he.sound, h.source, h.limit, hpeeks, ?_, hobserver⟩
    have := he.pending
    rw [hpend, hrest] at this
    exact (List.cons.inj this).2.symm

end Tape

theorem Rule.look_run (h : t.Holds o s) (n : Nat) :
    (t.fault? (.look n) = none → ∃ s', (Rule.peek n : Rule ε σ Token) s = .ok (t.ahead n) s' ∧
      (t.after (.look n)).Holds o s' ∧ 0 < s'.ready.size) ∧
    ∀ f, t.fault? (.look n) = some f → ∃ s',
      (Rule.peek n : Rule ε σ Token) s = .error (.fault f) s' ∧ s'.observer = t.watched o := by
  let s' : Lexer σ := { s with peeks := s.peeks + 1 }
  have hrun : Rule.peek (ε := ε) n s = if lookaheadSize ≤ n then .error (.fault (.lookahead n)) s
      else if s.limit ≤ s.peeks + 1 then .error (.fault (.stalled (s.peeks + 1) s'.nextOffset)) s'
      else .ok ((s'.fill (n + 1)).ready.get n) (s'.fill (n + 1)) := rfl
  have hs' : s'.nextOffset = (t.ahead 0).start := h.nextOffset_eq
  rw [h.limit, h.peeks, hs'] at hrun
  rw [hrun]
  unfold Tape.fault? Access.distance
  by_cases hn : lookaheadSize ≤ n
  · rw [if_pos hn, if_pos hn]
    exact ⟨by simp, fun f hf => ⟨s, by rw [Option.some.inj hf], h.observer⟩⟩
  rw [if_neg hn, if_neg hn]
  by_cases hlim : t.limit ≤ t.looks + 1
  · rw [if_pos hlim, if_pos hlim]
    exact ⟨by simp, fun f hf => ⟨s', by rw [Option.some.inj hf], h.observer⟩⟩
  rw [if_neg hlim, if_neg hlim]
  have hl : s.Looks s' := ⟨rfl, rfl, rfl, rfl, ⟨h.sound.pending, h.sound.ready⟩, Nat.le_refl _⟩
  obtain ⟨hf, hp, hz⟩ := Lexer.fill_looks (n := n + 1) hl.sound (Nat.lt_of_not_le hn)
  have hu := hl.trans hf
  refine ⟨fun _ => ⟨s'.fill (n + 1), ?_, ⟨hu.sound, ?_, ?_, ?_, ?_, ?_⟩, by omega⟩, by simp⟩
  · rw [hf.sound.get_ready hz, hu.ahead, h.ahead_eq]
  · exact hu.source.trans h.source
  · exact hu.limit.trans h.limit
  · exact hp.trans (congrArg (· + 1) h.peeks)
  · exact hu.pending.trans h.pending
  · exact hu.observer.trans h.observer

namespace Rule.Plays

variable {rule : Rule ε σ α} {next : α → Rule ε σ β} {as bs : List Access} {a : α} {b : β}

theorem pure (h : t.Holds o s) : Plays o (Pure.pure a : Rule ε σ α) s t [] a := ⟨s, rfl, h⟩

theorem bind (h : Plays o rule s t as a)
    (hn : ∀ s' u, Tape.play as t = (none, u) → u.Holds o s' → Plays o (next a) s' u bs b) :
    Plays o (rule >>= next) s t (as ++ bs) b := by
  unfold Plays at h ⊢
  rw [Tape.play_append]
  cases hp : Tape.play as t with
  | mk fault u =>
    rw [hp] at h
    cases fault with
    | none =>
      obtain ⟨s', hs', hu⟩ := h
      rw [bind_of_ok hs']
      exact hn s' u hp hu
    | some f =>
      obtain ⟨s', hs', hu⟩ := h
      refine ⟨s', ?_, hu⟩
      simp only [Bind.bind, EStateM.bind, hs']

theorem map (h : Plays o rule s t as a) (g : α → β) :
    Plays o (do return g (← rule)) s t as (g a) := by
  rw [← List.append_nil as]
  exact h.bind fun _ _ _ hu => pure hu

theorem peek (h : t.Holds o s) (n : Nat) :
    Plays o (Rule.peek n : Rule ε σ Token) s t [.look n] (t.ahead n) := by
  have hlook := look_run (ε := ε) h n
  unfold Plays Tape.play
  cases hf : t.fault? (.look n) with
  | none =>
    obtain ⟨s', hs', hu, -⟩ := hlook.1 hf
    exact ⟨s', hs', hu⟩
  | some f => exact hlook.2 f hf

theorem eat (h : t.Holds o s) : Plays o (Rule.eat : Rule ε σ Token) s t [.eat] (t.ahead 0) := by
  have hlook := look_run (ε := ε) h 0
  have hfault : t.fault? .eat = t.fault? (.look 0) := rfl
  unfold Plays Tape.play
  cases hf : t.fault? (.look 0) with
  | none =>
    obtain ⟨s', hs', hu, hz⟩ := hlook.1 hf
    simp only [hfault, hf]
    refine ⟨s'.advance (t.ahead 0), ?_, hu.advance hz⟩
    rw [Rule.eat, bind_of_ok hs']
    rfl
  | some f =>
    obtain ⟨s', hs', hu⟩ := hlook.2 f hf
    simp only [hfault, hf]
    refine ⟨s', ?_, hu⟩
    simp only [Rule.eat, Bind.bind, EStateM.bind, hs']

theorem peekIf (h : t.Holds o s) (tag : Tag) (n : Nat) :
    Plays o (Rule.peekIf tag n : Rule ε σ (Option Token)) s t [.look n]
      (if (t.ahead n).tag = tag then some (t.ahead n) else none) :=
  (peek h n).map fun u => if u.tag = tag then some u else none

theorem eatIf (h : t.Holds o s) (tag : Tag) :
    Plays o (Rule.eatIf tag : Rule ε σ (Option Token)) s t (t.eatIf tag)
      (if (t.ahead 0).tag = tag then some (t.ahead 0) else none) := by
  unfold Rule.eatIf Tape.eatIf
  by_cases htag : (t.ahead 0).tag = tag
  · have hlook := peekIf (ε := ε) h tag 0
    rw [if_pos htag] at hlook ⊢
    rw [if_pos htag]
    change Plays o _ s t ([.look 0] ++ [.eat]) _
    refine hlook.bind fun s' u hp hu => ?_
    obtain rfl := Tape.eq_foldl_of_play hp
    exact (eat hu).map some
  · have hlook := peekIf (ε := ε) h tag 0
    rw [if_neg htag] at hlook ⊢
    rw [if_neg htag]
    change Plays o _ s t ([.look 0] ++ []) _
    exact hlook.bind fun _ _ _ hu => pure hu

theorem peekAll (h : t.Holds o s) (n : Nat) (tags : List Tag) :
    Plays o (Rule.peekAll n tags : Rule ε σ Bool) s t (t.peekAll n tags)
      (t.agreeing n tags = tags.length) := by
  induction tags generalizing n s t with
  | nil => exact pure h
  | cons tag tags ih =>
    have hlook := (peek (ε := ε) h n).map Token.tag
    by_cases htag : (t.ahead n).tag = tag
    · have hplay : t.peekAll n (tag :: tags) =
          [.look n] ++ (t.after (.look n)).peekAll (n + 1) tags := by
        simp only [Tape.peekAll, Tape.agreeing, if_pos htag, List.length_cons,
          Nat.add_min_add_right, List.range'_succ, Tape.agreeing_look]
        rfl
      rw [hplay]
      refine hlook.bind fun s' u hp hu => ?_
      obtain rfl := Tape.eq_foldl_of_play hp
      rw [if_pos htag]
      have hflag := ih hu (n + 1)
      simpa [Tape.agreeing, htag, Tape.agreeing_look] using hflag
    · have hplay : t.peekAll n (tag :: tags) = [.look n] ++ [] := by
        simp [Tape.peekAll, Tape.agreeing, htag]
      rw [hplay]
      refine hlook.bind fun s' u hp hu => ?_
      rw [if_neg htag]
      simpa [Tape.agreeing, htag] using pure (a := false) hu

theorem eatMany (h : t.Holds o s) (n : Nat) :
    Plays o (Rule.eatMany n : Rule ε σ Unit) s t (List.replicate n .eat) () := by
  induction n generalizing s t with
  | zero => exact pure h
  | succ n ih =>
    rw [List.replicate_succ, ← List.singleton_append]
    exact (eat h).bind fun _ _ _ hu => ih hu

theorem get {next : Lexer σ → Rule ε σ α} (h : Plays o (next s) s t as a) :
    Plays o (do next (← get)) s t as a := h

theorem turns_done {step : β → Rule ε σ (Turn α β)} {n : Nat} (h : Plays o (step b) s t as (.done a)) :
    Plays o (Rule.turns step (n + 1) b) s t as a := by
  rw [← List.append_nil as]
  exact h.bind fun _ _ _ hu => pure hu

theorem turns_again {step : β → Rule ε σ (Turn α β)} {n : Nat} {c : β}
    (h : Plays o (step c) s t as (.again b))
    (hn : ∀ s' u, Tape.play as t = (none, u) → u.Holds o s' →
      Plays o (Rule.turns step n b) s' u bs a) :
    Plays o (Rule.turns step (n + 1) c) s t (as ++ bs) a :=
  h.bind hn

theorem eatUntil (h : t.Holds o s) (stop : Token → Bool) :
    Plays o (Rule.eatUntil stop : Rule ε σ Unit) s t (t.eatUntil stop) () := by
  unfold Rule.eatUntil Rule.loop
  apply get
  have hlen : t.rest.length < s.source.size + 1 := by
    rw [← h.pending]
    exact Nat.lt_succ_of_le h.sound.length_pending_le
  generalize s.source.size + 1 = n at hlen
  induction n generalizing s t with
  | zero => omega
  | succ n ih =>
    by_cases hstop : (t.ahead 0).tag = .eof ∨ stop (t.ahead 0) = true
    · rw [t.eatUntil_of_stop hstop]
      apply turns_done
      change Plays o _ s t ([.look 0] ++ []) _
      refine bind (peek h 0) fun s' u _ hu => ?_
      rw [if_pos (by simpa using hstop)]
      exact pure hu
    · obtain ⟨hcons, hplay⟩ := t.eatUntil_of_not_stop hstop
      rw [hplay]
      refine turns_again (b := ()) ?_ fun s' u hp hu => ?_
      · change Plays o _ s t ([.look 0] ++ [.eat]) _
        refine bind (peek h 0) fun s' u _ hu => ?_
        rw [if_neg (by simpa using hstop)]
        exact (eat hu).map fun _ => Turn.again ()
      · obtain rfl := Tape.eq_foldl_of_play hp
        have hrest : (t.skip 1).rest.length < n := by omega
        exact ih hu hrest

theorem eatLine (h : t.Holds o s) :
    Plays o (Rule.eatLine : Rule ε σ Unit) s t (t.accesses .eatLine) () := by
  refine (eatUntil h _).bind fun s' u hp hu => ?_
  rw [← Tape.eatIf_of_play hp]
  exact (eatIf hu .newline).map fun _ => ()

end Rule.Plays

theorem Operation.plays (h : t.Holds o s) (op : Operation) :
    Rule.Plays o op.rule s t (t.accesses op) (t.reply op) := by
  cases op with
  | peek n => exact (Rule.Plays.peek h n).map Reply.token
  | eat => exact (Rule.Plays.eat h).map Reply.token
  | peekIf tag n => exact (Rule.Plays.peekIf h tag n).map Reply.token?
  | eatIf tag => exact (Rule.Plays.eatIf h tag).map Reply.token?
  | peekAll tags => exact (Rule.Plays.peekAll h 0 tags).map Reply.flag
  | eatMany n => exact (Rule.Plays.eatMany h n).map fun _ => Reply.none
  | eatUntil stop => exact (Rule.Plays.eatUntil h stop).map fun _ => Reply.none
  | eatLine => exact (Rule.Plays.eatLine h).map fun _ => Reply.none
  | eatWhitespace => exact (Rule.Plays.eatUntil h _).map fun _ => Reply.none

theorem Operation.run_eq (h : t.Holds o s) (ops : List Operation) :
    (run ops s).1 = (t.run ops).1 ∧ (run ops s).2.1 = (t.run ops).2.1 ∧
      (run ops s).2.2.observer = (t.run ops).2.2.watched o := by
  induction ops generalizing s t with
  | nil => exact ⟨rfl, rfl, h.observer⟩
  | cons op ops ih =>
    have hplays := plays h op
    unfold Rule.Plays at hplays
    unfold run Tape.run
    cases hp : Tape.play (t.accesses op) t with
    | mk fault u =>
      rw [hp] at hplays
      cases fault with
      | none =>
        obtain ⟨s', hs', hu⟩ := hplays
        obtain ⟨hreplies, hfault, hobs⟩ := ih hu
        rw [hs']
        exact ⟨congrArg _ hreplies, hfault, hobs⟩
      | some f =>
        obtain ⟨s', hs', hu⟩ := hplays
        rw [hs']
        exact ⟨rfl, rfl, hu⟩

/-- Whatever is asked of a lexer, it replies as the tape does, it comes to the same fault at the same
operation, and its observer saw just the tokens eaten from the tape, in order. -/
theorem Lexer.run_start_eq (source : Source) (limit : Nat) (o : σ) (ops : List Operation) :
    let tape := (Tape.start source limit).run ops
    let lexer := Operation.run ops (Lexer.start source limit o)
    lexer.1 = tape.1 ∧ lexer.2.1 = tape.2.1 ∧
      lexer.2.2.observer = tape.2.2.eaten.foldl (fun o tok => Observer.onEat tok o) o :=
  Operation.run_eq (Tape.start_holds source limit o) ops

end

end TaskMarkup

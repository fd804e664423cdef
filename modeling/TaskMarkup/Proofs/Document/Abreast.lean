import TaskMarkup.Proofs.Document.Excerpts
import TaskMarkup.Proofs.Seam.Block

namespace TaskMarkup

namespace Reader

variable {F : Fault → Prop} {o : Options} {src src' : Source} {lo lo' : Nat} {r r' e : Reader}
  {s t u f : Lexer Cursor} {b : Block} {x : Stretch}

theorem Stands.between (hr : Stands (fun _ => True) o src lo r)
    (he : Stands Fault.IsArithmetic o src' lo' e) (h : x.Near r.lexer e.lexer) :
    Parse.Between x 0 r.lexer e.lexer :=
  ⟨h, hr.steady, he.steady, hr.rests, Rests.of_stalled he.rests fun _ _ => id⟩

theorem Stands.rule_follows {c : Option Block} (hr : Stands (fun _ => True) o src lo r)
    (he : Stands Fault.IsArithmetic o src' lo' e) (h : x.Near r.lexer e.lexer) (hfree : x.free)
    (hrule : rule o r.lexer = .ok c t) (hlost : ¬ t.Lost x.cut) :
    ∃ c' f, rule o e.lexer = .ok c' f ∧ c = c'.map (.moved x.origin) ∧ x.Near t f := by
  have hfollows := (Parse.follows_nextBlock (E := fun _ _ => False)
    (fun hroom : o.level.room ≠ 0 => Parse.nested_body hroom) (hr.between he h)
    (.inl hfree)).of_ok hrule
  have hends := Parse.ends_nextBlock (E := fun e _ => e.elim)
    (Parse.excused_arithmetic _) (fun hroom : o.level.room ≠ 0 => Parse.bodied_body hroom)
    he.steady he.rests
  obtain ⟨c', f, hrule', ⟨hc, hn⟩, -⟩ := ((hfollows.resolve_left fun h => hlost h.1).meet
    (G := fun _ => False) hends fun _ h h' => h h').exists_ok fun _ _ h => h.1
  exact ⟨c', f, hrule', hc, hn⟩

theorem Opens.rule (h : Opens F o s u b t) : rule o s = .ok (some b) t := by
  obtain ⟨measured, hline, -⟩ := h.line
  rw [Reader.rule, Parse.nextBlock_eq, Rule.bind_of_ok hline]
  exact Rule.bind_of_ok h.opened

theorem Stands.next_some (hr : Excused F o src) (h : Stands F o src lo r)
    (hrule : rule o r.lexer = .ok (some b) t) :
    ∃ r', next.run r = .ok (some b) r' ∧ r'.lexer = t ∧ r'.started = true ∧
      Stands F o src b.stop r' := by
  have hnext := next_of_some h.unfinished (h.options ▸ hrule)
  refine ⟨_, hnext, rfl, rfl, ?_⟩
  cases h.steps hr with
  | block hnext' _ _ _ hstands _ =>
    rw [hnext] at hnext'
    injection hnext' with hb hr'
    obtain rfl := Option.some.inj hb
    exact hr' ▸ hstands
  | dummy hnext' hdummy _ hfinished _ _ =>
    rw [hnext] at hnext'
    injection hnext' with hb hr'
    rw [← hr'] at hfinished
    exact absurd (h.unfinished.symm.trans hfinished) (by decide)
  | last hnext' _ _ _ => simp [hnext] at hnext'
  | fault hnext' _ => simp [hnext] at hnext'

theorem Stands.of_next_some (hr : Excused F o src) (h : Stands F o src lo r)
    (hnext : next.run r = .ok (some b) r') :
    (∃ u, Opens F o r.lexer u b r'.lexer ∧ Stands F o src b.stop r' ∧ r'.started = true) ∨
      b = .dummy ⟨0, 0, 0⟩ ∧ r.started = false ∧ r'.finished = true ∧ r.lexer.Skips r'.lexer ∧
        r'.lexer.pending = [] := by
  cases h.steps hr with
  | block hnext' hopens _ _ hstands _ =>
    obtain ⟨_, hnext₁, -, hstarted, -⟩ := h.next_some hr hopens.rule
    rw [hnext] at hnext' hnext₁
    injection hnext' with hb heq
    obtain rfl := Option.some.inj hb
    subst heq
    injection hnext₁ with _ heq
    subst heq
    exact .inl ⟨_, hopens, hstands, hstarted⟩
  | dummy hnext' hdummy hstart hfinished hskips hnil =>
    rw [hnext] at hnext'
    injection hnext' with hb heq
    obtain rfl := Option.some.inj hb
    subst heq
    exact .inr ⟨hdummy, hstart, hfinished, hskips, hnil⟩
  | last hnext' _ _ _ => simp [hnext] at hnext'
  | fault hnext' _ => simp [hnext] at hnext'

theorem Stands.of_next_none (hr : Excused F o src) (h : Stands F o src lo r)
    (hnext : next.run r = .ok none r') : r.lexer.Skips r'.lexer ∧ r'.lexer.pending = [] := by
  cases h.steps hr with
  | block hnext' _ _ _ _ _ => simp [hnext] at hnext'
  | dummy hnext' _ _ _ _ _ => simp [hnext] at hnext'
  | last hnext' _ hskips hnil =>
    rw [hnext] at hnext'
    injection hnext' with _ heq
    subst heq
    exact ⟨hskips, hnil⟩
  | fault hnext' _ => simp [hnext] at hnext'

theorem Stands.drains_nil (h : Stands F o src lo r) (hstarted : r.started = true)
    (hrule : rule o r.lexer = .ok none t) : r.Drains [] := by
  have hnext := next_of_none h.unfinished (h.options ▸ hrule)
  rw [if_pos hstarted] at hnext
  exact .last hnext (next_of_finished rfl)

theorem Drains.eq {bs bs' : List Block} (h : r.Drains bs) (h' : r.Drains bs') : bs = bs' := by
  induction h generalizing bs' with
  | last hnext _ =>
    cases h' with
    | last _ _ => rfl
    | block hnext' _ => simp [hnext] at hnext'
  | block hnext _ ih =>
    cases h' with
    | last hnext' _ => simp [hnext] at hnext'
    | block hnext' h' =>
      rw [hnext] at hnext'
      injection hnext' with hb hr
      rw [← Option.some.inj hb, ih (hr ▸ h')]

theorem Drains.fault_eq_none {bs : List Block} (h : r.Drains bs) (n : Nat) :
    (Document.readFrom n r).fault = none := by
  induction h generalizing n with
  | last hnext _ =>
    cases n with
    | zero => rfl
    | succ n => simp [Document.readFrom, hnext]
  | block hnext _ ih =>
    cases n with
    | zero => rfl
    | succ n => simpa [Document.readFrom, hnext] using ih n

theorem Stands.rule_of_next {c : Option Block} (h : Stands F o src lo r)
    (hstarted : r.started = true) (hnext : next.run r = .ok c r') :
    rule o r.lexer = .ok c r'.lexer := by
  cases hrule : rule o r.lexer with
  | ok c' t =>
    cases c' with
    | none =>
      rw [next_of_none h.unfinished (h.options ▸ hrule), if_pos hstarted] at hnext
      injection hnext with hc hr'
      rw [← hc, ← hr']
    | some b =>
      rw [next_of_some h.unfinished (h.options ▸ hrule)] at hnext
      injection hnext with hc hr'
      rw [← hc, ← hr']
  | error e t =>
    cases e with
    | fault f => simp [next_of_fault h.unfinished (h.options ▸ hrule)] at hnext
    | rejected e => exact e.elim

theorem advances_rule (o : Options) : Rule.Advances (rule o) :=
  Parse.advances_nextBlock fun _ => Parse.advances_body _

theorem Stands.lastEnd_le_size {c : Option Block} (h : Stands (fun _ => True) o src lo r)
    (hrule : rule o r.lexer = .ok c t) : t.observer.lastEnd ≤ src.size := by
  have hadvances := (advances_rule o r.lexer h.steady.placed).of_ok hrule
  have hsize := hadvances.placed.sound.isBoundary_nextOffset.le_size
  rw [hadvances.source, h.source] at hsize
  exact Nat.le_trans hadvances.placed.lastEnd_le hsize

theorem Drains.follows {bs : List Block} (h : r.Drains bs) (hfree : x.free)
    (hsize : src.size ≤ x.cut)
    (hr : Stands (fun _ => True) o src lo r) (he : Stands Fault.IsArithmetic o src' lo' e)
    (hn : x.Near r.lexer e.lexer) (hstarted : r.started = true) (hstarted' : e.started = true) :
    ∃ bs', e.Drains bs' ∧ bs = bs'.map (.moved x.origin) := by
  induction h generalizing lo lo' e with
  | @last r r' hnext _ =>
    have hrule := hr.rule_of_next hstarted hnext
    have hle := hr.lastEnd_le_size hrule
    obtain ⟨c, f, hrule', hc, -⟩ := hr.rule_follows he hn hfree hrule fun hlost => by
      have := hlost.lt
      omega
    obtain rfl : c = none := by simpa using hc.symm
    exact ⟨[], he.drains_nil hstarted' hrule', rfl⟩
  | @block r r' b bs hnext _ ih =>
    have hrule := hr.rule_of_next hstarted hnext
    have hle := hr.lastEnd_le_size hrule
    obtain ⟨c, f, hrule', hc, hn'⟩ := hr.rule_follows he hn hfree hrule fun hlost => by
      have := hlost.lt
      omega
    obtain ⟨b', rfl, rfl⟩ := Option.map_eq_some_iff.1 hc.symm
    obtain ⟨r'', hnext', hr'', hstarted'', hstands⟩ := hr.next_some (excused_true o _) hrule
    obtain ⟨e', hnexte, rfl, hstartede, hstandse⟩ := he.next_some (excused_arithmetic o _) hrule'
    rw [hnext] at hnext'
    injection hnext' with _ heq
    subst heq
    obtain ⟨bs', hdrains, rfl⟩ := ih hstands hstandse hn' hstarted'' hstartede
    exact ⟨b' :: bs', .block hnexte hdrains, rfl⟩

end Reader

end TaskMarkup

import SqlLayout.Proofs.Verbs

/-! When a statement is refused, and with which error: only for a quotation without its end or for
brackets that do not pair up in the statement as a whole. Whatever goes wrong inside a bracket or a
`CASE` costs its layout and nothing else.
-/

set_option autoImplicit false

namespace SqlLayout

def netDepth : List Token → Int
  | [] => 0
  | .openParen :: rest => netDepth rest + 1
  | .closeParen :: rest => netDepth rest - 1
  | _ :: rest => netDepth rest

def Token.turn : Token → Int
  | .openParen => 1
  | .closeParen => -1
  | _ => 0

theorem netDepth_cons (t : Token) (ts : List Token) : netDepth (t :: ts) = t.turn + netDepth ts := by
  cases t <;> simp only [netDepth, Token.turn] <;> omega

def Balanced (ts : List Token) : Prop := (∀ p, p <+: ts → 0 ≤ netDepth p) ∧ netDepth ts = 0

/-- One step of the check: the depth moves by one token and must not fall below zero. -/
theorem checkBalance_cons (d : Nat) (t : Token) (ts : List Token) : checkBalance d (t :: ts) =
    if d + t.turn < 0 then .error (.unbalancedBracket (-1))
    else checkBalance (d + t.turn).toNat ts := by
  cases t with
  | openParen =>
    rw [checkBalance, if_neg (by simp only [Token.turn]; omega)]
    rfl
  | closeParen =>
    cases d with
    | zero => rfl
    | succ d =>
      rw [checkBalance, if_neg (by simp only [Token.turn]; omega)]
      congr
      simp only [Token.turn]
      omega
  | _ =>
    rw [checkBalance, if_neg (by simp only [Token.turn]; omega)]
    · simp [Token.turn]
    all_goals simp

theorem checkBalance_below {d : Nat} {ts p : List Token} (hp : p <+: ts)
    (hd : d + netDepth p < 0) : checkBalance d ts = .error (.unbalancedBracket (-1)) := by
  induction ts generalizing d p with
  | nil =>
    obtain rfl := List.prefix_nil.1 hp
    simp only [netDepth] at hd
    omega
  | cons t ts ih =>
    rw [checkBalance_cons]
    by_cases ht : d + t.turn < 0
    · rw [if_pos ht]
    · rw [if_neg ht]
      rcases List.prefix_cons_iff.1 hp with rfl | ⟨q, rfl, hq⟩
      · simp only [netDepth] at hd
        omega
      · rw [netDepth_cons] at hd
        exact ih hq (by omega)

theorem checkBalance_above {d : Nat} {ts : List Token}
    (h : ∀ p, p <+: ts → 0 ≤ d + netDepth p) : checkBalance d ts =
      if d + netDepth ts = 0 then .ok () else .error (.unbalancedBracket (d + netDepth ts)) := by
  induction ts generalizing d with
  | nil => simp [checkBalance, netDepth]
  | cons t ts ih =>
    have ht : 0 ≤ d + t.turn := by
      have := h [t] (by simp)
      rw [netDepth_cons, netDepth] at this
      omega
    have hstep : ∀ p, p <+: ts → 0 ≤ ((d + t.turn).toNat : Int) + netDepth p := by
      intro p hp
      have := h (t :: p) (List.cons_prefix_cons.2 ⟨rfl, hp⟩)
      rw [netDepth_cons] at this
      omega
    have hsum : ((d + t.turn).toNat : Int) + netDepth ts = d + netDepth (t :: ts) := by
      rw [netDepth_cons]
      omega
    rw [checkBalance_cons, if_neg (by omega), ih hstep, hsum]

def Token.Lacks : Construct → Token → Prop
  | .string, .string t => Quoted.isClosed t = false
  | .quotedName, .quotedName t => Quoted.isClosed t = false
  | _, _ => False

/-- What is wrong with a statement, and the error that says so. -/
inductive Fault (ts : List Token) : FormatError → Prop where
  /-- The first quotation without its end. -/
  | unclosed {l r : List Token} {t : Token} {what : Construct} (hts : ts = l ++ t :: r)
      (hl : ∀ u ∈ l, u.Closed) (ht : t.Lacks what) : Fault ts (.unterminated what)
  /-- Some beginning of the statement closes more brackets than it opens. -/
  | below {p : List Token} (hq : ∀ t ∈ ts, t.Closed) (hp : p <+: ts) (hd : netDepth p < 0) :
      Fault ts (.unbalancedBracket (-1))
  /-- Brackets are left open. -/
  | above (hq : ∀ t ∈ ts, t.Closed) (hp : ∀ p, p <+: ts → 0 ≤ netDepth p)
      (hd : 0 < netDepth ts) : Fault ts (.unbalancedBracket (netDepth ts))

theorem Token.closed_or_lacks (t : Token) : t.Closed ∨ ∃ what, t.Lacks what := by
  cases t with
  | string x =>
    cases hx : Quoted.isClosed x with
    | true => exact .inl hx
    | false => exact .inr ⟨.string, hx⟩
  | quotedName x =>
    cases hx : Quoted.isClosed x with
    | true => exact .inl hx
    | false => exact .inr ⟨.quotedName, hx⟩
  | _ => exact .inl trivial

theorem Token.Lacks.open {t : Token} {what : Construct} (h : t.Lacks what) : ¬t.Closed := by
  intro hc
  cases t with
  | string x =>
    cases what with
    | string => exact Bool.eq_false_iff.1 h hc
    | _ => exact h
  | quotedName x =>
    cases what with
    | quotedName => exact Bool.eq_false_iff.1 h hc
    | _ => exact h
  | _ => cases what <;> exact h

theorem checkQuotes_closed {t : Token} (h : t.Closed) (ts : List Token) :
    checkQuotes (t :: ts) = checkQuotes ts := by
  cases t with
  | string x => exact if_pos h
  | quotedName x => exact if_pos h
  | _ => rfl

theorem checkQuotes_lacks {t : Token} {what : Construct} (h : t.Lacks what) (ts : List Token) :
    checkQuotes (t :: ts) = .error (.unterminated what) := by
  have hopen := h.open
  cases t with
  | string x =>
    cases what with
    | string => exact if_neg hopen
    | _ => exact False.elim h
  | quotedName x =>
    cases what with
    | quotedName => exact if_neg hopen
    | _ => exact False.elim h
  | _ => exact absurd trivial hopen

theorem checkQuotes_unclosed {l r : List Token} {t : Token} {what : Construct}
    (hl : ∀ u ∈ l, u.Closed) (ht : t.Lacks what) :
    checkQuotes (l ++ t :: r) = .error (.unterminated what) := by
  induction l with
  | nil => exact checkQuotes_lacks ht r
  | cons u l ih =>
    rw [List.cons_append, checkQuotes_closed (hl u (by simp))]
    exact ih fun v hv => hl v (by simp [hv])

theorem checkQuotes_error {ts : List Token} {e : FormatError} (h : checkQuotes ts = .error e) :
    ∃ l t r what, ts = l ++ t :: r ∧ (∀ u ∈ l, u.Closed) ∧ t.Lacks what ∧
      e = .unterminated what := by
  induction ts with
  | nil => simp [checkQuotes] at h
  | cons t ts ih =>
    rcases t.closed_or_lacks with ht | ⟨what, ht⟩
    · rw [checkQuotes_closed ht] at h
      obtain ⟨l, u, r, what, rfl, hl, hu, he⟩ := ih h
      exact ⟨t :: l, u, r, what, rfl, by simpa using ⟨ht, hl⟩, hu, he⟩
    · rw [checkQuotes_lacks ht] at h
      cases h
      exact ⟨[], t, ts, what, rfl, by simp, ht, rfl⟩

theorem checkBalance_ok_iff (ts : List Token) : checkBalance 0 ts = .ok () ↔ Balanced ts := by
  constructor
  · intro h
    have hp : ∀ p, p <+: ts → 0 ≤ netDepth p := by
      intro p hp
      by_contra hd
      rw [checkBalance_below hp (by simpa using hd)] at h
      cases h
    rw [checkBalance_above (by simpa using hp)] at h
    refine ⟨hp, ?_⟩
    by_contra hd
    rw [if_neg (by simpa using hd)] at h
    cases h
  · intro h
    rw [checkBalance_above (by simpa using h.1), if_pos (by simpa using h.2)]

theorem Fault.error {ts : List Token} {e : FormatError} (h : Fault ts e) :
    checkQuotes ts = .error e ∨ checkQuotes ts = .ok () ∧ checkBalance 0 ts = .error e := by
  cases h with
  | unclosed hts hl ht => exact .inl (hts ▸ checkQuotes_unclosed hl ht)
  | below hq hp hd =>
    exact .inr ⟨checkQuotes_of_closed hq, checkBalance_below hp (by simpa using hd)⟩
  | above hq hp hd =>
    refine .inr ⟨checkQuotes_of_closed hq, ?_⟩
    rw [checkBalance_above (by simpa using hp), if_neg (by simp; omega)]
    simp

theorem fault_of_checkQuotes {ts : List Token} {e : FormatError} (h : checkQuotes ts = .error e) :
    Fault ts e := by
  obtain ⟨l, t, r, what, hts, hl, ht, rfl⟩ := checkQuotes_error h
  exact .unclosed hts hl ht

theorem fault_of_checkBalance {ts : List Token} {e : FormatError} (hq : checkQuotes ts = .ok ())
    (h : checkBalance 0 ts = .error e) : Fault ts e := by
  have hclosed := closed_of_checkQuotes hq
  by_cases hp : ∀ p, p <+: ts → 0 ≤ netDepth p
  · rw [checkBalance_above (by simpa using hp)] at h
    split at h
    · cases h
    · rename_i hd
      have hpos := hp ts List.prefix_rfl
      obtain rfl : .unbalancedBracket (netDepth ts) = e := by simpa using h
      exact .above hclosed hp (by omega)
  · push Not at hp
    obtain ⟨p, hp, hd⟩ := hp
    rw [checkBalance_below hp (by omega)] at h
    cases h
    exact .below hclosed hp (by omega)

/-- Past the two checks nothing fails. -/
theorem formatTokens_error {o : Options} {tokens : List Token} {source : Text} {e : FormatError}
    (hc : isCommand (solid tokens) = false) : formatTokens o tokens source = .error e ↔
      checkQuotes (solid tokens) = .error e ∨
        checkQuotes (solid tokens) = .ok () ∧ checkBalance 0 (solid tokens) = .error e := by
  rw [formatTokens_statement hc]
  generalize solid tokens = ts
  by_cases hne : ts = []
  · subst hne
    simp [checkQuotes, checkBalance]
  rw [if_neg (by simpa using hne)]
  cases hq : checkQuotes ts with
  | error f => simp [bind, Except.bind]
  | ok u =>
    cases hb : checkBalance 0 ts with
    | error f => simp [bind, Except.bind]
    | ok v =>
      -- the walk meets no bracket without its partner, and what fails inside is echoed
      obtain ⟨nested, hrun⟩ := arrange_eq_run o.nestingLimit o.nestingLimit
      obtain ⟨items, hitems⟩ : ∃ items, Arrange.run nested .statement [] ts = .ok items :=
        Arrange.run_of_closes rfl (closes_of_checkBalance hb)
      simp [bind, Except.bind, hrun, hitems, pure, Except.pure]

theorem Fault.unsound {ts : List Token} {e : FormatError} (h : Fault ts e) :
    (∃ t ∈ ts, ¬t.Closed) ∨ ¬Balanced ts := by
  cases h with
  | @unclosed l r t what hts hl ht => exact .inl ⟨t, by simp [hts], ht.open⟩
  | below hq hp hd =>
    refine .inr fun hb => ?_
    have := hb.1 _ hp
    omega
  | above hq hp hd =>
    refine .inr fun hb => ?_
    have := hb.2
    omega

theorem sound_of_ok {o : Options} {tokens : List Token} {source out : Text}
    (hc : isCommand (solid tokens) = false) (h : formatTokens o tokens source = .ok out) :
    (∀ t ∈ solid tokens, t.Closed) ∧ Balanced (solid tokens) := by
  rw [← checkBalance_ok_iff]
  rcases formatTokens_ok h hc with ⟨hnil, -⟩ | ⟨-, hq, hb, -⟩
  · rw [hnil]
    exact ⟨by simp, rfl⟩
  · exact ⟨closed_of_checkQuotes hq, hb⟩

theorem formatTokens_fault_iff {o : Options} {tokens : List Token} {source : Text}
    {e : FormatError} : formatTokens o tokens source = .error e ↔
      isCommand (solid tokens) = false ∧ Fault (solid tokens) e := by
  constructor
  · intro h
    have hc : isCommand (solid tokens) = false := by
      rw [← Bool.not_eq_true]
      intro hc
      rw [formatTokens_command hc] at h
      cases h
    rcases (formatTokens_error hc).1 h with hq | ⟨hq, hb⟩
    · exact ⟨hc, fault_of_checkQuotes hq⟩
    · exact ⟨hc, fault_of_checkBalance hq hb⟩
  · rintro ⟨hc, hf⟩
    exact (formatTokens_error hc).2 hf.error

/-- A statement fails exactly when it is no client command and a quotation in it lacks its end or
its brackets do not pair up. The error is that of the first such quotation, else that of the
brackets. No error from inside a bracket or a `CASE` gets out. -/
theorem formatTokens_fails_iff (o : Options) (tokens : List Token) (source : Text) :
    ((∃ e, formatTokens o tokens source = .error e) ↔ isCommand (solid tokens) = false ∧
      ((∃ t ∈ solid tokens, ¬t.Closed) ∨ ¬Balanced (solid tokens))) ∧
    (∀ e, formatTokens o tokens source = .error e ↔
      isCommand (solid tokens) = false ∧ Fault (solid tokens) e) ∧
    ∀ e, formatTokens o tokens source = .error e →
      (∀ limit, e ≠ .tooDeeplyNested limit) ∧ e ≠ .unterminated .caseExpression := by
  refine ⟨⟨?_, ?_⟩, fun e => formatTokens_fault_iff, fun e he => ?_⟩
  · rintro ⟨e, he⟩
    obtain ⟨hc, hf⟩ := formatTokens_fault_iff.1 he
    exact ⟨hc, hf.unsound⟩
  · rintro ⟨hc, hbad⟩
    cases hf : formatTokens o tokens source with
    | error e => exact ⟨e, rfl⟩
    | ok out =>
      obtain ⟨hclosed, hbalanced⟩ := sound_of_ok hc hf
      rcases hbad with ⟨t, ht, hopen⟩ | hb
      · exact absurd (hclosed t ht) hopen
      · exact absurd hbalanced hb
  · cases (formatTokens_fault_iff.1 he).2 with
    | @unclosed l r t what hts hl ht =>
      refine ⟨by simp, fun hw => ?_⟩
      obtain rfl : what = .caseExpression := by simpa using hw
      cases t <;> exact ht
    | below => simp
    | above => simp

end SqlLayout

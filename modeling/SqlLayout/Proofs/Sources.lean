import SqlLayout.Proofs.Partition

/-! The texts that tokens are read from. Together they are the whole text, so that whatever is
counted in it is counted in them.
-/

set_option autoImplicit false

namespace SqlLayout

open Scan

/-- Counts no blanks, and a letter in either case. -/
structure Fair (p : Char → Bool) : Prop where
  blank : ∀ {c : Char}, Text.isBlank c = true → p c = false
  lower : ∀ c : Char, p c.toLower = p c

namespace Fair

variable {p : Char → Bool} {s t : Text}

theorem count_folded (h : Fair p) (hs : Text.folded s = Text.folded t) : s.countP p = t.countP p := by
  have hcount : ∀ u : Text, (Text.folded u).countP p = u.countP p := fun u => by
    simp [Text.folded, List.countP_map, Function.comp_def, h.lower]
  rw [← hcount s, hs, hcount]

theorem count_blank (h : Fair p) (hs : ∀ c ∈ s, Text.isBlank c = true) : s.countP p = 0 :=
  List.countP_eq_zero.2 fun c hc => by simp [h.blank (hs c hc)]

theorem count_trim (h : Fair p) (t : Text) : (Text.trim t).countP p = t.countP p := by
  by_cases hb : Text.isBlankText t = true
  · have hall : ∀ c ∈ t, Text.isBlank c = true := List.all_eq_true.1 hb
    have hsub : ∀ c ∈ Text.trim t, c ∈ t := fun c hc =>
      (List.dropWhile_suffix _).subset ((Text.dropEndWhile_prefix _ _).subset hc)
    rw [h.count_blank hall, h.count_blank fun c hc => hall c (hsub c hc)]
  · obtain ⟨g, k, ht, hg, hk, -⟩ := Text.exists_trim (by simpa using hb)
    have := congrArg (List.countP p) ht
    rw [List.countP_append, List.countP_append, h.count_blank hg, h.count_blank hk] at this
    omega

theorem count_filter (h : Fair p) {q : Char → Bool}
    (hq : ∀ c, q c = false → Text.isBlank c = true) : (s.filter q).countP p = s.countP p := by
  rw [List.countP_filter]
  refine List.countP_congr fun c _ => ?_
  cases hc : q c with
  | true => simp
  | false => simp [h.blank (hq c hc)]

end Fair

def countCells (p : Char → Bool) (cs : List Cell) : Nat := (cs.map fun c => c.2.countP p).sum

theorem countCells_inked {p : Char → Bool} (h : Fair p) (cs : List Cell) :
    countCells p (inked cs) = countCells p cs := by
  induction cs with
  | nil => rfl
  | cons c cs ih =>
    by_cases hb : Text.isBlankText c.2 = true
    · have hzero := h.count_blank (s := c.2) (List.all_eq_true.1 hb)
      simp_all [countCells, inked]
    · simp_all [countCells, inked, h.count_trim]

theorem Line.count {R : Rule} {p : Char → Bool} (h : Fair p) {prev : Option Token} {cs : List Cell}
    {x : Text} (hl : Line R prev cs x) : x.countP p = countCells p cs := by
  have hgap : ∀ {g : Text}, (∀ c ∈ g, R.gap c = true) → g.countP p = 0 := fun hg =>
    h.count_blank fun c hc => R.blank c (hg c hc)
  induction hl with
  | done hg => exact hgap hg.1
  | cell hg _ _ ih =>
    rw [List.countP_append, List.countP_append, hgap hg.1, ih]
    simp [countCells]

def Token.Source : Token → Text → Prop
  | .keyword k, s => ∀ p, Fair p → s.countP p = k.text.countP p
  | .blockComment t, s => s = ['/', '*'] ++ t ++ ['*', '/'] ∨ s = ['/', '*'] ++ t
  | .gap _, s => ∀ c ∈ s, Text.isBlank c = true
  | t, s => t.Spells s

theorem Fair.count_respaced {p : Char → Bool} (h : Fair p) {k s : Text} (hs : Respaced k s) :
    s.countP p = k.countP p := by
  induction hs with
  | nil => rfl
  | letter _ hd _ ih => rw [List.countP_cons, List.countP_cons, ih, ← h.lower, hd, h.lower]
  | gap _ hg _ ih =>
    have hspace : p ' ' = false := h.blank rfl
    rw [List.countP_append, h.count_blank fun c hc => Text.isBlank_of_isGap (hg c hc), ih]
    simp [hspace]

theorem Token.Lexeme.source {t : Token} {rest s : Text} (h : t.Lexeme rest s) : t.Source s := by
  cases t with
  | keyword k => exact fun p hp => hp.count_respaced h
  | blockComment t => exact h.2.imp_right And.left
  | lineComment t => exact h.1
  | gap t =>
    obtain ⟨rfl, hg⟩ := h
    exact fun c hc => Text.isBlank_of_isGap (hg c hc)
  | _ => exact h

theorem next_source (c : Char) (cs : Text) :
    ∃ s, c :: cs = s ++ (next c cs).2 ∧ (next c cs).1.Source s := by
  obtain ⟨s, hs, hlex⟩ := next_lexeme c cs
  exact ⟨s, hs, hlex.source⟩

/-- A text is read from cells, with blanks around them. -/
theorem line_tokenize (x : Text) : ∃ cs : List Cell,
    List.Forall₂ (fun t c => c.1 = t ∧ t.isGap = false ∧ t.Source c.2) (solid (tokenize x)) cs ∧
      Line .loose none (inked cs) x := by
  have hjoin : ∀ {a b : List Cell} {s y : Text}, Line .loose none (inked a) s →
      Line .loose none (inked b) y → Line .loose none (inked (a ++ b)) (s ++ y) := by
    intro a b s y ha hb
    have := ha.append (g := []) hb (by simp) (by simp [Rule.loose])
    simpa using this
  fun_induction tokenize x with
  | case1 => exact ⟨[], .nil, .gap (by simp)⟩
  | case2 c cs hlen ih =>
    obtain ⟨cells, hcells, hline⟩ := ih
    obtain ⟨s, hs, hsource⟩ := next_source c cs
    cases hg : (next c cs).1.isGap with
    | true =>
      refine ⟨cells, by simpa [solid, hg] using hcells, ?_⟩
      have hblank : ∀ d ∈ s, Text.isBlank d = true := by
        cases hn : (next c cs).1 <;> simp_all [Token.isGap, Token.Source]
      rw [hs]
      exact hjoin (a := []) (.gap hblank) hline
    | false =>
      refine ⟨((next c cs).1, s) :: cells, ?_, ?_⟩
      · rw [solid, List.filter_cons_of_pos (by simp [hg]), ← solid]
        exact .cons ⟨rfl, hg, hsource⟩ hcells
      · rw [hs]
        exact hjoin (a := [((next c cs).1, s)]) (line_trimmed (fun _ => id) rfl) hline

theorem quotation_cases (q : Char) (escapes : Bool) (cs : Text) :
    Quoted.close? q escapes (quotation q escapes cs).1 = some ((quotation q escapes cs).1, []) ∨
      (quotation q escapes cs).2 = [] := by
  unfold quotation
  cases h : Quoted.close? q escapes cs with
  | none => exact .inr rfl
  | some r =>
    left
    have hclose : Quoted.close? q escapes cs = some (r.1, r.2) := h
    simpa using Quoted.close?_again hclose (x := []) (by simp)

theorem dollar_closed (cs : Text) : (dollar cs).1.Closed ∨ (dollar cs).2 = [] := by
  unfold dollar
  split
  · rename_i d hd
    obtain ⟨rfl, -⟩ := delimiter?_eq hd
    split
    · rename_i body after hb
      left
      have htag : ∀ c ∈ cs.takeWhile Quoted.isTagChar, Quoted.isTagChar c = true := fun c =>
        List.mem_takeWhile_imp
      have hdel := delimiter?_again htag (body ++ ('$' :: cs.takeWhile Quoted.isTagChar ++ ['$']))
      generalize cs.takeWhile Quoted.isTagChar = tag at hdel ⊢
      have hsplit : '$' :: tag ++ ['$'] ++ body ++ ('$' :: tag ++ ['$']) =
          '$' :: (tag ++ '$' :: (body ++ ('$' :: tag ++ ['$']))) := by simp
      change Quoted.isClosed _ = true
      rw [hsplit, Quoted.isClosed, hdel]
      simp only [Bool.and_eq_true, decide_eq_true_eq, List.isSuffixOf_iff_suffix]
      refine ⟨?_, '$' :: (tag ++ '$' :: body), by simp⟩
      simp only [List.length_cons, List.length_append, List.length_nil]
      omega
    · exact .inr rfl
  · split <;> exact .inl trivial

theorem word_closed (c : Char) (cs : Text) : (word c cs).1.Closed ∨ (word c cs).2 = [] := by
  unfold word
  split
  · split
    · rename_i rest _ hm
      refine (quotation_cases '\'' (Quoted.marksEscapes c) rest).imp_left fun hq => ?_
      have hdollar : c ≠ '$' := by rintro rfl; simp [Quoted.isMark] at hm
      simp [Token.Closed, Quoted.isClosed, Quoted.delimiter?, hdollar, hm, Quoted.closesAtEnd, hq,
        Text.isAscii]
    · exact .inl trivial
  · split
    · unfold Scan.keyword
      split <;> exact .inl trivial
    · exact .inl trivial

/-- A quotation without its end is the last thing that is read. -/
theorem next_closed (c : Char) (cs : Text) : (next c cs).1.Closed ∨ (next c cs).2 = [] := by
  fun_cases next c cs
  case case3 => unfold Scan.blockComment; split <;> exact .inl trivial
  case case4 h =>
    obtain rfl : c = '\'' := by simpa using h
    refine (quotation_cases '\'' false cs).imp_left fun hq => ?_
    simp [Token.Closed, Quoted.isClosed, Quoted.delimiter?, Quoted.isMark, Quoted.closesAtEnd, hq,
      Text.isAscii]
  case case5 h =>
    have hc : c = '"' ∨ c = '\x60' := by simpa using h
    refine (quotation_cases c false cs).imp_left fun hq => ?_
    rcases hc with rfl | rfl <;>
      simp [Token.Closed, Quoted.isClosed, Quoted.delimiter?, Quoted.isMark, Quoted.closesAtEnd, hq,
        Text.isAscii]
  case case6 => exact dollar_closed cs
  case case15 => exact word_closed c cs
  case case16 => unfold operator; split <;> exact .inl trivial
  all_goals exact .inl trivial

theorem closed_of_tokenize {x : Text} {l r : List Token} {t : Token}
    (h : solid (tokenize x) = l ++ t :: r) (hr : r ≠ []) : t.Closed := by
  fun_induction tokenize x generalizing l with
  | case1 => simp [solid] at h
  | case2 c cs hlen ih =>
    cases hg : (next c cs).1.isGap with
    | true => exact ih (by simpa [solid, hg] using h)
    | false =>
      rw [solid, List.filter_cons_of_pos (by simp [hg]), ← solid] at h
      cases l with
      | nil =>
        obtain ⟨rfl, hrest⟩ := List.cons.inj h
        rcases next_closed c cs with hc | hn
        · exact hc
        · rw [hn, tokenize] at hrest
          exact absurd hrest.symm hr
      | cons u l =>
        obtain ⟨-, hrest⟩ := List.cons.inj h
        exact ih hrest

theorem checkQuotes_of_closed {ts : List Token} (h : ∀ t ∈ ts, t.Closed) : checkQuotes ts = .ok () := by
  fun_induction checkQuotes ts with
  | case1 => rfl
  | case2 x rest hx ih => exact ih fun t ht => h t (by simp [ht])
  | case3 x rest hx => exact absurd (h (.string x) (by simp)) hx
  | case4 x rest hx ih => exact ih fun t ht => h t (by simp [ht])
  | case5 x rest hx => exact absurd (h (.quotedName x) (by simp)) hx
  | case6 t rest h1 h2 ih => exact ih fun t ht => h t (by simp [ht])

end SqlLayout

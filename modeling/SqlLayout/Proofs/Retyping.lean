import SqlLayout.Proofs.Rereading

/-! The layout of a statement depends on its tokens only. Typed in another way, with other blanks
between the tokens and keywords in another letter case, a statement has the same tokens: no two of
them run together, and none falls apart.
-/

set_option autoImplicit false

namespace SqlLayout

open Scan

/-- The text is the tokens in order, each as it may be typed, with blanks between neighbours. A line
comment ends its line. -/
inductive Retyped : List Token → Text → Prop where
  | nil : Retyped [] []
  | last {t : Token} {u : Text} (hu : t.Typed u) : Retyped [t] u
  | cons {t : Token} {ts : List Token} {u g x : Text} (hu : t.Typed u) (hne : g ≠ [])
      (hg : ∀ c ∈ g, Text.isGap c = true) (hn : t.isRemark = true → g.head? = some '\n')
      (hts : ts ≠ []) (h : Retyped ts x) : Retyped (t :: ts) (u ++ g ++ x)

theorem reads_unclosed {c : Char} {cs u : Text} (hrest : (next c cs).2 = [])
    (hopen : ¬(next c cs).1.Closed) (hu : (next c cs).1.Typed u) : Reads u (next c cs).1 [] := by
  obtain ⟨s, hs, hlex⟩ := next_lexeme c cs
  have hus : u = s := by
    cases hn : (next c cs).1 with
    | string x =>
      rw [hn] at hu hlex
      exact hu.trans hlex.symm
    | quotedName x =>
      rw [hn] at hu hlex
      exact hu.trans hlex.symm
    | _ =>
      rw [hn] at hopen
      exact absurd trivial hopen
  rw [hrest, List.append_nil] at hs
  refine ⟨c, cs, by rw [hus, hs], ?_⟩
  rw [List.append_nil]
  exact Prod.ext rfl hrest

/-- What the tokens of a text have in common: each is read again wherever it is stopped, but for a
quotation without its end, which is the last one. -/
structure Lexed (ts : List Token) : Prop where
  solid : ∀ t ∈ ts, t.isGap = false
  unextended : Unextended ts
  shape : ∀ l t r, ts = l ++ t :: r → Shape t ∨ r = [] ∧ ∀ u, t.Typed u → Reads u t []

theorem Lexed.tail {t : Token} {ts : List Token} (h : Lexed (t :: ts)) : Lexed ts where
  solid u hu := h.solid u (by simp [hu])
  unextended := h.unextended.tail
  shape l u r hts := h.shape (t :: l) u r (by rw [hts]; rfl)

theorem lexed_tokenize (x : Text) : Lexed (solid (tokenize x)) where
  solid t ht := by simpa using (List.mem_filter.1 ht).2
  unextended := unextended_tokenize x
  shape := by
    fun_induction tokenize x with
    | case1 => simp [solid]
    | case2 c cs hlen ih =>
      intro l t r h
      cases hg : (next c cs).1.isGap with
      | true => exact ih l t r (by simpa [solid, hg] using h)
      | false =>
        rw [solid, List.filter_cons_of_pos (by simp [hg]), ← solid] at h
        cases l with
        | cons v l => exact ih l t r (List.cons.inj h).2
        | nil =>
          obtain ⟨rfl, hrest⟩ := List.cons.inj h
          by_cases hclosed : (next c cs).1.Closed
          · exact .inl (shape_next c cs hg hclosed)
          · have hend := (next_closed c cs).resolve_left hclosed
            rw [hend, tokenize] at hrest
            exact .inr ⟨hrest.symm, fun u => reads_unclosed hend hclosed⟩

theorem solid_of_reads {t : Token} {u x : Text} (h : Reads u t x) (ht : t.isGap = false) :
    solid (tokenize (u ++ x)) = t :: solid (tokenize x) := by
  rw [h.tokenize, solid, List.filter_cons_of_pos (by simp [ht]), ← solid]

/-- Tokens of a text are read from everything that they may be typed as. -/
theorem Retyped.solid_tokenize {ts : List Token} {y : Text} (h : Retyped ts y) (hl : Lexed ts) :
    solid (tokenize y) = ts := by
  induction h with
  | nil => simp [tokenize, solid]
  | @last t u hu =>
    have hext : t.Unextended [] := hl.unextended.head (by simp [words, tokenize, solid])
    have hreads : Reads u t [] := by
      rcases hl.shape [] t [] rfl with hs | ⟨-, hr⟩
      · exact hs.read (stops_gap hs (by simp) (by simp) hext) hu
      · exact hr u hu
    have := solid_of_reads hreads (hl.solid t (by simp))
    simpa [tokenize, solid] using this
  | @cons t ts u g x hu hne hg hn hts h ih =>
    have hrest : solid (tokenize (g ++ x)) = ts := by rw [solid_gap hg, ih hl.tail]
    -- a token that others follow is no quotation without its end
    have hs : Shape t := (hl.shape [] t ts rfl).resolve_right fun hr => hts hr.1
    have hext : t.Unextended (g ++ x) := hl.unextended.head (by rw [words, hrest])
    have hhead : (g ++ x).head? = g.head? := List.head?_append_of_ne_nil _ hne
    have hstop : Stops t (g ++ x) := by
      refine stops_gap hs (fun c hc => ?_) (fun hr c hc => ?_) hext
      · rw [hhead] at hc
        exact hg c (List.mem_of_mem_head? hc)
      · rw [hhead, hn hr] at hc
        simpa [eq_comm] using hc
    rw [List.append_assoc, solid_of_reads (hs.read hstop hu) (hl.solid t (by simp)), hrest]

/-- A statement has the same layout, or the same error, however its tokens are typed. -/
theorem format_retyped (sql typed : String)
    (h : Retyped (solid (tokenize sql.toList)) typed.toList) :
    solid (tokenize typed.toList) = solid (tokenize sql.toList) ∧
      (isCommand (solid (tokenize sql.toList)) = false → ∀ o : Options,
        (tryFormat o typed).mapError Failure.error = (tryFormat o sql).mapError Failure.error) := by
  have hsolid := h.solid_tokenize (lexed_tokenize sql.toList)
  refine ⟨hsolid, fun hc o => ?_⟩
  have hformat : formatTokens o (tokenize typed.toList) typed.toList =
      formatTokens o (tokenize sql.toList) sql.toList := by
    rw [formatTokens_statement hc, formatTokens_statement (hsolid ▸ hc), hsolid]
  unfold tryFormat
  rw [hformat]
  cases formatTokens o (tokenize sql.toList) sql.toList with
  | error e => rfl
  | ok t => rfl

theorem format_retyped_join :
    Retyped (solid (tokenize "a left outer join b--c\n'd".toList))
      "a Left\tOUTER \n join  b --c\n\n'd".toList ∧
    solid (tokenize "a Left\tOUTER \n join  b --c\n\n'd".toList) =
      solid (tokenize "a left outer join b--c\n'd".toList) ∧
    (tryFormat {} "a Left\tOUTER \n join  b --c\n\n'd").mapError Failure.error =
      (tryFormat {} "a left outer join b--c\n'd").mapError Failure.error := by
  have hts : solid (tokenize "a left outer join b--c\n'd".toList) = [.identifier ['a'],
      .keyword .LEFT_OUTER_JOIN, .identifier ['b'], .lineComment ['c'], .string ['\'', 'd']] := by
    decide +kernel
  have hkeyword : Respaced Keyword.LEFT_OUTER_JOIN.text
      ("Left".toList ++ (['\t'] ++ ("OUTER".toList ++ ([' ', '\n', ' '] ++ "join".toList)))) :=
    .append (a := "LEFT".toList) (.of_folded (by decide)) (.gap (by simp) (by simp [Text.isGap])
      (.append (a := "OUTER".toList) (.of_folded (by decide)) (.gap (by simp) (by simp [Text.isGap])
        (.of_folded (by decide)))))
  have hcomment : Retyped [.lineComment ['c'], .string ['\'', 'd']]
      ("--c".toList ++ "\n\n".toList ++ "'d".toList) :=
    .cons rfl (by simp) (by simp [Text.isGap]) (by decide) (by simp) (.last rfl)
  have hname := Retyped.cons (t := .identifier ['b']) (g := [' ']) rfl (by simp)
    (by simp [Text.isGap]) (by decide) (by simp) hcomment
  have hjoin := Retyped.cons (t := .keyword .LEFT_OUTER_JOIN) (g := [' ', ' ']) hkeyword (by simp)
    (by simp [Text.isGap]) (by decide) (by simp) hname
  have htyped : Retyped (solid (tokenize "a left outer join b--c\n'd".toList))
      "a Left\tOUTER \n join  b --c\n\n'd".toList := by
    rw [hts]
    exact Retyped.cons (t := .identifier ['a']) (g := [' ']) rfl (by simp) (by simp [Text.isGap])
      (by decide) (by simp) hjoin
  obtain ⟨hsolid, hformat⟩ := format_retyped _ _ htyped
  exact ⟨htyped, hsolid, hformat (by rw [hts]; rfl) {}⟩

end SqlLayout

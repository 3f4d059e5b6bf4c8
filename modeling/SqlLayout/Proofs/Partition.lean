import SqlLayout.Proofs.Touching

/-! Reading divides a text and loses nothing of it: the texts from which the tokens are read, one
after the other, are the whole text.
-/

set_option autoImplicit false

namespace SqlLayout

open Scan

/-- The texts that a token may be typed as: a keyword in any letter case and with any blanks
between its words, a comment with its marks, and everything else as it is. -/
def Token.Typed : Token → Text → Prop
  | .keyword k, s => Respaced k.text s
  | t, s => t.Spells s

/-- The token is read from `s`, which stands before `rest`. A line comment ends before a line end.
A block comment may lack its end where the whole text ends. -/
def Token.Lexeme (rest : Text) : Token → Text → Prop
  | .lineComment t, s => s = ['-', '-'] ++ t ∧ '\n' ∉ t ∧ ∀ c ∈ rest.head?, c = '\n'
  | .blockComment t, s => ¬['*', '/'] <:+: t ∧
      (s = ['/', '*'] ++ t ++ ['*', '/'] ∨ s = ['/', '*'] ++ t ∧ rest = [])
  | .gap t, s => s = t ∧ ∀ c ∈ t, Text.isGap c = true
  | t, s => t.Typed s

inductive Lexemes : List Token → List Text → Prop where
  | nil : Lexemes [] []
  | cons {t : Token} {ts : List Token} {s : Text} {ss : List Text} (hne : s ≠ [])
      (ht : t.Lexeme ss.flatten s) (h : Lexemes ts ss) : Lexemes (t :: ts) (s :: ss)

theorem afterWords?_respaced {ws : List String} {x y : Text} (h : afterWords? ws x = some y)
    (hx : Ends isWordChar x) (hw : ∀ w ∈ ws, Keyword.isLongWord w.toList = true) :
    ∃ z, x = z ++ y ∧ Respaced (spacedWords (ws.map String.toList)) z := by
  fun_induction afterWords? ws x with
  | case1 => exact ⟨[], by simp_all, .nil⟩
  | case2 w ws x start hs ih =>
    have hword : Text.folded (start.takeWhile isWordChar) = Text.folded w.toList := by
      simpa [Text.sameLetters] using hs
    obtain ⟨z, hz, hrest⟩ := ih h (run_eq rfl).2.1 fun v hv => hw v (by simp [hv])
    refine ⟨x.takeWhile Text.isGap ++ (start.takeWhile isWordChar ++ z), ?_, ?_⟩
    · rw [List.append_assoc, List.append_assoc, ← hz, List.takeWhile_append_dropWhile,
        List.takeWhile_append_dropWhile]
    · -- without a blank the word would go on with the one before it
      have hgap : x.takeWhile Text.isGap ≠ [] := by
        intro hn
        have hstart : start = x := by
          have := List.takeWhile_append_dropWhile (p := Text.isGap) (l := x)
          rwa [hn] at this
        have hnone : x.takeWhile isWordChar = [] :=
          (Prod.mk.inj (Ends.run (w := []) (by simp) hx)).1
        rw [hstart, hnone] at hword
        have hlong := hw w (by simp)
        rw [← Text.isLongWord_congr hword] at hlong
        cases hlong
      simpa [spacedWords] using Respaced.gap hgap (fun c => List.mem_takeWhile_imp)
        ((Respaced.of_folded hword).append hrest)
  | case3 => simp at h

theorem keyword_typed {k : Keyword} {u x : Text} (hu : Text.folded u = Text.folded k.text)
    (hx : Ends isWordChar x) :
    ∃ z, x = z ++ (Scan.keyword k x).2 ∧
      ∃ l, (Scan.keyword k x).1 = .keyword l ∧ Respaced l.text (u ++ z) := by
  unfold Scan.keyword
  split
  · rename_i l y hl
    obtain ⟨⟨ws, l⟩, he, hsome⟩ := List.exists_of_findSome?_eq_some hl
    obtain ⟨v, hv, hp⟩ := Option.map_eq_some_iff.1 hsome
    obtain ⟨rfl, rfl⟩ := Prod.mk.inj hp
    obtain ⟨-, hopen, hlong⟩ := Keyword.continuations_words k k.mem_words _ he
    obtain ⟨z, hz, hwords⟩ := afterWords?_respaced hv hx hlong
    refine ⟨z, hz, l, rfl, ?_⟩
    rw [(Keyword.text_opening l l.mem_words).2, hopen]
    exact (Respaced.of_folded hu).append hwords
  · exact ⟨[], rfl, k, rfl, by simpa using Respaced.of_folded hu⟩

theorem word_lexeme (c : Char) (cs : Text) :
    ∃ s, c :: cs = s ++ (word c cs).2 ∧ (word c cs).1.Lexeme (word c cs).2 s := by
  unfold word
  rcases hrun : Reader.run isWordChar cs with ⟨w, rest⟩
  obtain ⟨-, hends, rfl⟩ := run_eq hrun
  split
  · rename_i rest he
    obtain ⟨rfl, rfl⟩ := Prod.mk.inj he
    split
    · refine ⟨c :: '\'' :: (quotation '\'' (Quoted.marksEscapes c) rest).1, ?_, rfl⟩
      simpa using (splits_quotation _ _ rest).symm
    · exact ⟨[c], rfl, rfl⟩
  · rename_i he
    obtain ⟨rfl, rfl⟩ := Prod.mk.inj he
    split
    · rename_i k hk
      obtain ⟨z, hz, l, hl, htyped⟩ := keyword_typed (ofWord?_eq_some hk).2.symm hends
      refine ⟨c :: w ++ z, ?_, ?_⟩
      · rw [List.append_assoc, ← hz]
        rfl
      · rw [hl]
        exact htyped
    · exact ⟨c :: w, rfl, rfl⟩

theorem dollar_lexeme (cs : Text) :
    ∃ s, '$' :: cs = s ++ (dollar cs).2 ∧ (dollar cs).1.Lexeme (dollar cs).2 s := by
  unfold dollar
  split
  · rename_i d hd
    have hsplit := (delimiter?_eq hd).2
    split
    · rename_i body after hb
      refine ⟨d ++ body ++ d, ?_, rfl⟩
      rw [hsplit, ← Quoted.around?_append hb]
      simp
    · exact ⟨'$' :: cs, by simp, rfl⟩
  · split
    · rename_i rest hrun
      exact ⟨['$'], by rw [← (run_eq hrun).2.2]; rfl, rfl⟩
    · rename_i w rest _ hrun
      exact ⟨'$' :: w, by rw [← (run_eq hrun).2.2]; rfl, rfl⟩

theorem operator_lexeme (c : Char) (cs : Text) :
    ∃ s, c :: cs = s ++ (operator c cs).2 ∧ (operator c cs).1.Lexeme (operator c cs).2 s := by
  unfold operator
  split
  · rename_i o ho
    have hprefix : o.isPrefixOf (c :: cs) = true := by simpa using List.find?_some ho
    obtain ⟨z, hz⟩ := List.isPrefixOf_iff_prefix.1 hprefix
    have hlen := (longOperators_marks o (List.mem_of_find?_eq_some ho)).1
    refine ⟨o, ?_, rfl⟩
    cases o with
    | nil => simp at hlen
    | cons d o =>
      obtain ⟨rfl, rfl⟩ := List.cons.inj hz
      simp
  · exact ⟨[c], rfl, rfl⟩

theorem Quoted.not_infix_of_around? {d t body after : Text} (hd : d ≠ [])
    (h : around? d t = some (body, after)) : ¬d <:+: body := by
  fun_induction around? d t generalizing body after with
  | case1 => simp_all
  | case2 => simp at h
  | case3 c rest hp =>
    obtain ⟨rfl, -⟩ : [] = body ∧ _ := by simpa using h
    simpa using hd
  | case4 c rest hp ih =>
    obtain ⟨⟨b, a⟩, hb, he⟩ := Option.map_eq_some_iff.1 h
    cases he
    intro hin
    rcases List.infix_cons_iff.1 hin with hpre | hin
    · refine hp (List.isPrefixOf_iff_prefix.2 (hpre.trans ?_))
      rw [← around?_append hb, List.append_assoc]
      exact List.prefix_append (c :: b) _
    · exact ih hb hin

theorem blockComment_lexeme (cs : Text) : ∃ s, '/' :: '*' :: cs = s ++ (Scan.blockComment cs).2 ∧
    (Scan.blockComment cs).1.Lexeme (Scan.blockComment cs).2 s := by
  unfold Scan.blockComment
  split
  · rename_i body after hb
    refine ⟨['/', '*'] ++ body ++ ['*', '/'], ?_, Quoted.not_infix_of_around? (by simp) hb, .inl rfl⟩
    simp [← Quoted.around?_append hb]
  · rename_i hnone
    refine ⟨'/' :: '*' :: cs, by simp, fun hin => ?_, .inr ⟨rfl, rfl⟩⟩
    obtain ⟨r, hr⟩ := around?_of_infix hin
    rw [hr] at hnone
    cases hnone

/-- The next token is read from the beginning of the text. -/
theorem next_lexeme (c : Char) (cs : Text) :
    ∃ s, c :: cs = s ++ (next c cs).2 ∧ (next c cs).1.Lexeme (next c cs).2 s := by
  fun_cases next c cs
  case case1 hc =>
    refine ⟨c :: cs.takeWhile Text.isGap, by simp, rfl, fun d hd => ?_⟩
    rcases List.mem_cons.1 hd with rfl | hd
    · exact hc
    · exact List.mem_takeWhile_imp hd
  case case2 h =>
    obtain ⟨rfl, hhead⟩ : c = '-' ∧ cs.head? = some '-' := by simpa using h
    obtain ⟨cs, rfl⟩ := List.head?_eq_some_iff.1 hhead
    refine ⟨['-', '-'] ++ cs.takeWhile (· != '\n'), by simp, rfl, fun hn => ?_, fun d hd => ?_⟩
    · simpa using List.mem_takeWhile_imp hn
    · have hend := List.head?_dropWhile_not (· != '\n') cs
      rw [show (cs.dropWhile (· != '\n')).head? = some d from hd] at hend
      simpa using hend
  case case3 h =>
    obtain ⟨rfl, hhead⟩ : c = '/' ∧ cs.head? = some '*' := by simpa using h
    obtain ⟨cs, rfl⟩ := List.head?_eq_some_iff.1 hhead
    exact blockComment_lexeme cs
  case case4 => exact ⟨c :: (quotation c false cs).1, by simp [splits_quotation c false cs], rfl⟩
  case case5 => exact ⟨c :: (quotation c false cs).1, by simp [splits_quotation c false cs], rfl⟩
  case case6 h =>
    obtain rfl : c = '$' := by simpa using h
    exact dollar_lexeme cs
  case case7 => exact ⟨c :: (afterDigit cs).1, by simp [splits_afterDigit cs], rfl⟩
  case case8 => exact ⟨c :: (afterPoint cs).1, by simp [splits_afterPoint cs], rfl⟩
  case case14 => exact ⟨c :: cs.takeWhile isWordChar, by simp, rfl⟩
  case case15 => exact word_lexeme c cs
  case case16 => exact operator_lexeme c cs
  all_goals
    rename_i h
    exact ⟨[c], rfl, by simpa [Token.Lexeme, Token.Typed, Token.Spells] using h⟩

theorem lexemes_tokenize (x : Text) : ∃ ss, ss.flatten = x ∧ Lexemes (tokenize x) ss := by
  fun_induction tokenize x with
  | case1 => exact ⟨[], rfl, .nil⟩
  | case2 c cs hlen ih =>
    obtain ⟨ss, hss, hrest⟩ := ih
    obtain ⟨s, hs, hlex⟩ := next_lexeme c cs
    refine ⟨s :: ss, by rw [List.flatten_cons, hss, hs], .cons ?_ (by rwa [hss]) hrest⟩
    rintro rfl
    have := congrArg List.length hs
    simp only [List.length_cons, List.nil_append] at this
    omega

/-- Reading is a lossless partition: a text is made up of parts, cut between characters and none
of them empty, from which its tokens are read one by one. -/
theorem tokenize_parts (sql : String) : ∃ parts : List String, String.join parts = sql ∧
    (∀ l r, parts = l ++ r → (String.join l).rawEndPos.IsValid sql) ∧
      Lexemes (tokenize sql.toList) (parts.map String.toList) := by
  obtain ⟨ss, hss, hlex⟩ := lexemes_tokenize sql.toList
  have hjoin : String.join (ss.map String.ofList) = sql := by
    rw [← String.toList_inj, String.toList_join, List.flatMap_map]
    simpa [List.flatMap_id] using hss
  refine ⟨ss.map String.ofList, hjoin, fun l r hlr => ?_, by simpa using hlex⟩
  rw [String.Pos.Raw.isValid_iff_exists_append]
  refine ⟨String.join l, String.join r, ?_, rfl⟩
  rw [← hjoin, hlr, ← String.toList_inj]
  simp

end SqlLayout

import SqlLayout.Proofs.CommandForm
import SqlLayout.Proofs.PageInk
import SqlLayout.Proofs.Verbs

/-! What a client command keeps of its text. Words are divided, options are grouped and letters are
lowered, but up to blanks and letter case every character stays. Only the semicolon at the end is
taken from the text and put back from the tokens, where the two may differ.
-/

set_option autoImplicit false

namespace SqlLayout

namespace Text

/-- The text without its blanks and without letter case. -/
def bare (t : Text) : Text := folded (t.filter (!isBlank ·))

variable {s t : Text}

@[simp] theorem bare_nil : bare [] = [] := rfl

@[simp] theorem bare_append (s t : Text) : bare (s ++ t) = bare s ++ bare t := by
  simp [bare, folded]

theorem bare_blank (h : ∀ c ∈ t, isBlank c = true) : bare t = [] := by
  have hnil : t.filter (!isBlank ·) = [] := List.filter_eq_nil_iff.2 fun c hc => by simp [h c hc]
  rw [bare, hnil]
  rfl

theorem bare_cons (c : Char) (t : Text) : bare (c :: t) = bare [c] ++ bare t :=
  bare_append [c] t

theorem bare_space_cons (t : Text) : bare (' ' :: t) = bare t := rfl

@[simp] theorem bare_spaces (n : Nat) : bare (spaces n) = [] :=
  bare_blank fun c hc => by
    obtain rfl : c = ' ' := List.eq_of_mem_replicate hc
    rfl

theorem bare_map {f : Char → Char} (hblank : ∀ c, isBlank (f c) = isBlank c)
    (hlower : ∀ c, (f c).toLower = c.toLower) (t : Text) : bare (t.map f) = bare t := by
  simp only [bare, folded, List.filter_map, List.map_map, Function.comp_def, hblank, hlower]

theorem bare_lower (h : ∀ c ∈ t, isAscii c = true) : bare (lower t) = bare t := by
  have hlower : lower t = t.map Char.toLower := by
    have := lowerAfter_append h [] []
    simpa [lower, lowerAfter] using this
  rw [hlower, bare_map isBlank_toLower toLower_toLower]

theorem bare_upper (h : ∀ c ∈ t, isAscii c = true) : bare (upper t) = bare t := by
  have hblank : ∀ c : Char, isBlank c.toUpper = isBlank c := fun c => by
    rw [← isBlank_toLower c.toUpper, toLower_toUpper, isBlank_toLower]
  rw [upper_ascii h, bare_map hblank toLower_toUpper]

theorem bare_trim (t : Text) : bare (trim t) = bare t := by
  by_cases hb : isBlankText t = true
  · have hall : ∀ c ∈ t, isBlank c = true := List.all_eq_true.1 hb
    have hsub : ∀ c ∈ trim t, c ∈ t := fun c hc =>
      (List.dropWhile_suffix _).subset ((Text.dropEndWhile_prefix _ _).subset hc)
    rw [bare_blank hall, bare_blank fun c hc => hall c (hsub c hc)]
  · obtain ⟨g, k, ht, hg, hk, -⟩ := exists_trim (by simpa using hb)
    conv => rhs; rw [ht]
    rw [bare_append, bare_append, bare_blank hg, bare_blank hk, List.append_nil, List.nil_append]

theorem getLast?_trim (t : Text) : (trim t).getLast? = (trimEnd t).getLast? := by
  by_cases hb : isBlankText t = true
  · have hall : ∀ c ∈ t, isBlank c = true := List.all_eq_true.1 hb
    have hdrop : t.dropWhile isBlank = [] := List.dropWhile_eq_nil_iff.2 hall
    have hend : trimEnd t = [] := List.rdropWhile_eq_nil_iff.2 hall
    rw [trim, hdrop, hend]
    rfl
  · obtain ⟨g, k, ht, -, hk, hs⟩ := exists_trim (by simpa using hb)
    have hend : dropEndWhile isBlank k = [] := List.rdropWhile_eq_nil_iff.2 hk
    have hsplit : trimEnd t = g ++ trim t := by
      have := hs.dropEndWhile (p := isBlank) (fun _ => id) g k
      rw [← ht, hend, List.append_nil] at this
      exact this
    obtain ⟨c, a, hca, -⟩ := hs.starts
    rw [hsplit, List.getLast?_append_of_ne_nil _ (by simp [hca])]

end Text

namespace Command

open Text

theorem bare_wordsFrom (current : Text) (quote : Option Char) (t : Text) :
    bare (wordsFrom current quote t).flatten = bare current.reverse ++ bare t := by
  induction t generalizing current quote with
  | nil =>
    unfold wordsFrom
    split
    · simp_all
    · simp
  | cons c t ih =>
    have hstep : ∀ q, bare (wordsFrom (c :: current) q t).flatten =
        bare current.reverse ++ bare (c :: t) := by
      intro q
      rw [ih, List.reverse_cons, bare_append, List.append_assoc, ← bare_cons]
    unfold wordsFrom
    split
    · exact hstep _
    · split
      · rename_i hblank
        have hc : bare (c :: t) = bare t := by
          rw [bare_cons, bare_blank (by simpa using hblank), List.nil_append]
        split
        · simp_all
        · simp [ih, hc]
      · exact hstep _

theorem mem_of_wordsFrom {current : Text} {quote : Option Char} {t w : Text} {c : Char}
    (hw : w ∈ wordsFrom current quote t) (hc : c ∈ w) : c ∈ current ∨ c ∈ t := by
  induction t generalizing current quote with
  | nil =>
    unfold wordsFrom at hw
    split at hw
    · simp at hw
    · obtain rfl : w = current.reverse := by simpa using hw
      exact .inl (List.mem_reverse.1 hc)
  | cons d t ih =>
    have hstep : ∀ {q : Option Char}, w ∈ wordsFrom (d :: current) q t → c ∈ current ∨ c ∈ d :: t := by
      intro q hq
      rcases ih hq with h | h
      · rcases List.mem_cons.1 h with rfl | h
        · exact .inr (by simp)
        · exact .inl h
      · exact .inr (by simp [h])
    unfold wordsFrom at hw
    split at hw
    · exact hstep hw
    · split at hw
      · have hrest : w ∈ wordsFrom [] none t → c ∈ current ∨ c ∈ d :: t := fun h =>
          (ih h).elim (by simp) fun h => .inr (by simp [h])
        split at hw
        · exact hrest hw
        · rcases List.mem_cons.1 hw with rfl | hw
          · exact .inl (List.mem_reverse.1 hc)
          · exact hrest hw
      · exact hstep hw

theorem bare_valueText {v : Text} (h : ∀ c ∈ v, isAscii c = true) : bare (valueText v) = bare v := by
  unfold valueText
  split
  · rfl
  · exact bare_lower h

theorem bare_verbText {v : Text} (h : ∀ c ∈ v, isAscii c = true) : bare (verbText v) = bare v := by
  have hsplit : ∀ a b : Text, (∀ c ∈ a ++ b, isAscii c = true) →
      bare (upper a ++ lower b) = bare (a ++ b) := by
    intro a b hab
    rw [bare_append, bare_append, bare_upper fun c hc => hab c (by simp [hc]),
      bare_lower fun c hc => hab c (by simp [hc])]
  unfold verbText
  split
  · rename_i c rest
    split
    · exact hsplit [c] rest h
    · split
      · rename_i d rest
        split
        · exact hsplit [c, d] rest h
        · rfl
      · rfl
  · rfl

theorem bare_values {vs : List Text} (h : ∀ v ∈ vs, ∀ c ∈ v, isAscii c = true) :
    bare (vs.flatMap fun v => ' ' :: valueText v) = bare vs.flatten := by
  induction vs with
  | nil => rfl
  | cons v vs ih =>
    rw [List.flatMap_cons, List.flatten_cons, bare_append, bare_append, bare_space_cons,
      bare_valueText (h v (by simp)), ih fun u hu => h u (by simp [hu])]

theorem bare_line {s : Setting} (hw : ∀ c ∈ s.word, isAscii c = true)
    (hvs : ∀ v ∈ s.values, ∀ c ∈ v, isAscii c = true) :
    bare s.line = bare s.word ++ bare s.values.flatten := by
  simp only [Setting.line, Setting.word, bare_append, bare_spaces, List.nil_append, bare_values hvs]
  cases ha : s.assigned with
  | none => rfl
  | some v =>
    have hv : ∀ c ∈ v, isAscii c = true := fun c hc => hw c (by simp [Setting.word, ha, hc])
    rw [Option.elim_some, Option.elim_some, bare_cons, bare_valueText hv, ← bare_cons]

theorem bare_group {ws : List Text} (h : ∀ w ∈ ws, ∀ c ∈ w, isAscii c = true) :
    (∀ w ∈ (group ws).1, w ∈ ws) ∧
      bare ((group ws).1.flatten ++ ((group ws).2.map Setting.line).flatten) = bare ws.flatten := by
  induction ws with
  | nil => exact ⟨by simp [group], rfl⟩
  | cons w ws ih =>
    obtain ⟨hmem, hbare⟩ := ih fun v hv => h v (by simp [hv])
    have hw := h w (by simp)
    have hfree : ∀ v ∈ (group ws).1, ∀ c ∈ v, isAscii c = true := fun v hv =>
      h v (by simp [hmem v hv])
    unfold group
    simp only
    split
    · refine ⟨by simp, ?_⟩
      obtain ⟨-, hword, hvalues⟩ := ofWord_eq w (group ws).1
      have hline := bare_line (s := Setting.ofWord w (group ws).1) (by rwa [hword]) (by rwa [hvalues])
      rw [hword, hvalues] at hline
      rw [List.map_cons, List.flatten_cons, List.flatten_nil, List.nil_append, bare_append, hline,
        List.append_assoc, ← bare_append, hbare, List.flatten_cons, bare_append]
    · refine ⟨fun v hv => ?_, ?_⟩
      · rcases List.mem_cons.1 hv with rfl | hv
        · simp
        · simp [hmem v hv]
      · rw [List.flatten_cons, List.append_assoc, bare_append, hbare, List.flatten_cons, bare_append]

theorem bare_lines {t : Text} (h : ∀ c ∈ t, isAscii c = true) : bare (parse t).lines.flatten = bare t := by
  have hall : ∀ w ∈ words t, ∀ c ∈ w, isAscii c = true := fun w hw c hc =>
    h c ((mem_of_wordsFrom hw hc).elim (by simp) id)
  have hwords : bare (words t).flatten = bare t := by simpa [words] using bare_wordsFrom [] none t
  rw [← hwords]
  unfold parse
  cases hws : words t with
  | nil => rfl
  | cons verb rest =>
    rw [hws] at hall
    have hrest : ∀ w ∈ rest, ∀ c ∈ w, isAscii c = true := fun w hw => hall w (by simp [hw])
    obtain ⟨-, hbare⟩ := bare_group hrest
    have harguments : ∀ vs : List Text, bare (vs.flatMap fun a => ' ' :: a) = bare vs.flatten := by
      intro vs
      induction vs with
      | nil => rfl
      | cons v vs ih => rw [List.flatMap_cons, List.flatten_cons, bare_append, bare_append,
          bare_space_cons, ih]
    rw [lines, List.flatten_cons, bare_append, bare_append, bare_verbText (hall verb (by simp)),
      harguments, List.append_assoc, ← bare_append, hbare, List.flatten_cons, bare_append]

end Command

namespace Ribbon

theorem chars_append (r s : Ribbon) :
    (r ++ s).cells.map Prod.snd = r.cells.map Prod.snd ++ s.cells.map Prod.snd := by
  obtain ⟨cs, g⟩ := s
  cases cs with
  | nil => simp [append_gap]
  | cons x cs => obtain ⟨h, c⟩ := x; simp [append_cells]

theorem chars_ofText (t : Text) : (ofText t).cells.map Prod.snd = t.filter (!Text.isBlank ·) := by
  induction t with
  | nil => rfl
  | cons c t ih =>
    rw [ofText, chars_append, ih, ofChar]
    cases hc : Text.isBlank c <;> simp [hc]

theorem chars_ofLines (ls : List Text) :
    (ofLines ls).cells.map Prod.snd = ls.flatten.filter (!Text.isBlank ·) := by
  induction ls with
  | nil => rfl
  | cons t ls ih =>
    cases ls with
    | nil => simp [ofLines, chars_ofText]
    | cons u ls =>
      rw [ofLines_cons (by simp), chars_append, chars_append, ih, chars_ofText]
      simp [lineEnd]

end Ribbon

namespace Page

theorem bare_text (p : Page) : Text.bare p.text = Text.folded (p.ribbon.cells.map Prod.snd) := by
  rw [Text.bare, filter_text]

theorem bare_pushLines (n : Nat) (ls : List Text) :
    Text.bare (Page.blank.pushLines n ls).text = Text.bare ls.flatten := by
  rw [bare_text, ribbon_pushLines, Ribbon.chars_append, Ribbon.chars_ofLines]
  rfl

theorem bare_push (p : Page) (t : Text) :
    Text.bare (p.push t).text = Text.bare p.text ++ Text.bare t := by
  rw [bare_text, ribbon_push, Ribbon.chars_append, Ribbon.chars_ofText, bare_text]
  simp [Text.folded, Text.bare]

end Page

section Ending

theorem Page.text_push (p : Page) {t : Text} (h : Text.Solid t) : ∃ w, (p.push t).text = w ++ t := by
  have hlines : (p.push t).lines = p.above.reverse ++ [p.current.reverse ++ t] := by
    simp [Page.lines, Page.push]
  obtain ⟨w, hw⟩ := Text.join_concat ['\n'] p.above.reverse (p.current.reverse ++ t)
  refine ⟨w ++ p.current.reverse, ?_⟩
  have htrim := h.dropEndWhile (p := Text.isBlank) (fun _ => id) (w ++ p.current.reverse) []
  rw [Page.text, hlines, hw, Text.trimEnd]
  simpa [Text.dropEndWhile] using htrim

theorem Page.text_getLast? (p : Page) : p.text.getLast? ≠ some '\n' := by
  intro hl
  have hhead := List.head?_dropWhile_not Text.isBlank (Text.join ['\n'] p.lines).reverse
  rw [Page.text, Text.trimEnd, Text.dropEndWhile, List.getLast?_reverse] at hl
  simp [hl, Text.isBlank] at hhead

theorem Line.ends {R : Rule} {prev : Option Token} {cs : List Cell} {t : Text} (h : Line R prev cs t)
    {c : Cell} (hc : cs.getLast? = some c) :
    ∃ a g, t = a ++ c.2 ++ g ∧ Text.Solid c.2 ∧ ∀ d ∈ g, Text.isBlank d = true := by
  induction h with
  | done => simp at hc
  | @cell prev g t d cs hg hd h ih =>
    cases cs with
    | nil =>
      obtain rfl : d = c := by simpa using hc
      cases h with
      | done hk => exact ⟨g, t, rfl, hd, fun e he => R.blank e (hk.1 e he)⟩
    | cons e cs =>
      obtain ⟨a, k, rfl, hs, hk⟩ := ih (by rwa [List.getLast?_cons_cons] at hc)
      exact ⟨g ++ d.2 ++ a, k, by simp, hs, hk⟩

/-- A text whose last token is a semicolon ends with it. -/
theorem getLast?_of_semicolon {x : Text}
    (h : (solid (tokenize x)).getLast? = some .semicolon) : (Text.trimEnd x).getLast? = some ';' := by
  obtain ⟨cs, hcs, hline⟩ := line_tokenize x
  obtain ⟨a, ha⟩ : ∃ a, solid (tokenize x) = a ++ [.semicolon] := List.getLast?_eq_some_iff.1 h
  have hrev := List.forall₂_reverse_iff.2 hcs
  rw [ha, List.reverse_append, List.reverse_singleton, List.singleton_append] at hrev
  obtain ⟨d, ds, ⟨-, -, hd⟩, -, hcons⟩ := List.forall₂_cons_left_iff.1 hrev
  have hsemi : d.2 = [';'] := hd
  have hsplit : cs = ds.reverse ++ [d] := by
    rw [← List.reverse_reverse cs, hcons, List.reverse_cons]
  have hlast : (inked cs).getLast? = some (d.1, [';']) := by
    have hone : inked [d] = [(d.1, [';'])] := by
      rw [inked, List.filter_cons_of_pos (by rw [hsemi]; rfl), List.map_cons, hsemi]
      rfl
    rw [hsplit, inked_append, hone, List.getLast?_append_of_ne_nil _ (by simp)]
    rfl
  obtain ⟨b, g, hx, hs, hg⟩ := hline.ends hlast
  have hend : Text.dropEndWhile Text.isBlank g = [] := List.rdropWhile_eq_nil_iff.2 hg
  rw [hx, Text.trimEnd, hs.dropEndWhile (fun _ => id), hend, List.append_nil]
  simp

theorem bare_commandText (x : Text) :
    Text.bare x = Text.bare (commandText x) ++
      if (Text.trimEnd x).getLast? = some ';' then [';'] else [] := by
  rw [← Text.bare_trim x, ← Text.getLast?_trim]
  unfold commandText
  simp only
  split
  · rename_i hlast
    obtain ⟨a, ha⟩ := List.getLast?_eq_some_iff.1 hlast
    rw [ha, List.dropLast_concat, Text.bare_append]
    rfl
  · rw [List.append_nil]

theorem isAscii_commandText {x : Text} (h : ∀ c ∈ x, Text.isAscii c = true) :
    ∀ c ∈ commandText x, Text.isAscii c = true := by
  have htrim : ∀ c ∈ Text.trim x, Text.isAscii c = true := fun c hc =>
    h c ((List.dropWhile_suffix _).subset ((Text.dropEndWhile_prefix _ _).subset hc))
  unfold commandText
  simp only
  split
  · exact fun c hc => htrim c (List.dropLast_subset _ hc)
  · exact htrim

theorem formatCommand_eq (o : Options) (ts : List Token) (x : Text) :
    formatCommand o ts x =
      if ts.getLast? = some .semicolon then
        ((Page.blank.pushLines 0 (Command.parse (commandText x)).lines).push [';']).text ++ ['\n', '\n']
      else (Page.blank.pushLines 0 (Command.parse (commandText x)).lines).text := by
  unfold formatCommand
  simp only
  split
  · rfl
  · simp [Draft.text, Draft.blank]

/-- A command is laid out with all of its text, and its semicolon is put back if it was read. -/
theorem bare_formatCommand (o : Options) (ts : List Token) {x : Text}
    (h : ∀ c ∈ x, Text.isAscii c = true) :
    Text.bare (formatCommand o ts x) = Text.bare (commandText x) ++
      if ts.getLast? = some .semicolon then [';'] else [] := by
  have hlines := Command.bare_lines (isAscii_commandText h)
  rw [formatCommand_eq]
  split
  · rw [Text.bare_append, Page.bare_push, Page.bare_pushLines, hlines, List.append_assoc]
    rfl
  · rw [Page.bare_pushLines, hlines, List.append_nil]

theorem formatCommand_ends (o : Options) (ts : List Token) (x : Text) :
    [';', '\n', '\n'] <:+ formatCommand o ts x ↔ ts.getLast? = some .semicolon := by
  rw [formatCommand_eq]
  split
  · rename_i hlast
    obtain ⟨w, hw⟩ := Page.text_push (Page.blank.pushLines 0 (Command.parse (commandText x)).lines)
      (show Text.Solid [';'] by decide)
    exact iff_of_true ⟨w, by simp [hw]⟩ hlast
  · rename_i hlast
    refine iff_of_false (fun ⟨w, hw⟩ => ?_) hlast
    apply Page.text_getLast? (Page.blank.pushLines 0 (Command.parse (commandText x)).lines)
    rw [← hw]
    simp

end Ending

/-- A client command keeps its text, up to blanks and letter case, and the semicolon at its end
exactly if that semicolon, where there is one, is read as the last token. If it is read into a
comment or an open quote, it is lost, and nothing else is. -/
theorem command_kept_iff (o : Options) (sql : String)
    (hascii : ∀ c ∈ sql.toList, Text.isAscii c = true)
    (hcommand : isCommand (solid (tokenize sql.toList)) = true) :
    ∃ out, tryFormat o sql = .ok out ∧
      ((Text.bare out.toList = Text.bare sql.toList ∧
          ([';', '\n', '\n'] <:+ out.toList ↔ (Text.trimEnd sql.toList).getLast? = some ';')) ↔
        ((Text.trimEnd sql.toList).getLast? = some ';' →
          (solid (tokenize sql.toList)).getLast? = some .semicolon)) ∧
      ((Text.trimEnd sql.toList).getLast? = some ';' →
        (solid (tokenize sql.toList)).getLast? ≠ some .semicolon →
          Text.bare sql.toList = Text.bare out.toList ++ [';']) := by
  have hformat : tryFormat o sql =
      .ok (String.ofList (formatCommand o (solid (tokenize sql.toList)) sql.toList)) := by
    rw [tryFormat, formatTokens_command hcommand]
  refine ⟨_, hformat, ?_⟩
  have hread := bare_commandText sql.toList
  have hwritten := bare_formatCommand o (solid (tokenize sql.toList)) hascii
  have hends := formatCommand_ends o (solid (tokenize sql.toList)) sql.toList
  rw [String.toList_ofList, hends, hread, hwritten]
  by_cases hlast : (solid (tokenize sql.toList)).getLast? = some .semicolon
  · simp [hlast, getLast?_of_semicolon hlast]
  · by_cases hend : (Text.trimEnd sql.toList).getLast? = some ';' <;> simp [hlast, hend]

/-- The semicolon of `wbexport -- a;` is read into a comment. -/
theorem command_kept_comment :
    ∃ out, tryFormat {} "wbexport -- a;" = .ok out ∧
      ¬(Text.bare out.toList = Text.bare "wbexport -- a;".toList ∧
          ([';', '\n', '\n'] <:+ out.toList ↔
            (Text.trimEnd "wbexport -- a;".toList).getLast? = some ';')) := by
  have htokens : solid (tokenize "wbexport -- a;".toList) =
      [.identifier "wbexport".toList, .lineComment " a;".toList] := by decide +kernel
  have hcommand : isCommand (solid (tokenize "wbexport -- a;".toList)) = true := by
    rw [htokens]
    decide
  obtain ⟨out, hout, hkept, -⟩ := command_kept_iff {} "wbexport -- a;" (by simp [Text.isAscii]) hcommand
  refine ⟨out, hout, fun h => ?_⟩
  have hread := hkept.1 h (by decide)
  rw [htokens] at hread
  simp at hread

end SqlLayout

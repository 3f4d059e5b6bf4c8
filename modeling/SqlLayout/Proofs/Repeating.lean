import SqlLayout.Proofs.RenamedPage
import SqlLayout.Proofs.Tally
import SqlLayout.Proofs.Verbs

/-! A layout is laid out again as it stands. The texts that the first layout changed are written
alike, and nothing else enters into the arrangement.
-/

set_option autoImplicit false

namespace SqlLayout

def layout (o : Options) (ts : List Token) : Except FormatError Text := do
  let items ← arrange o.nestingLimit o.nestingLimit .statement ts
  return (writeAll o false items .blank).text

theorem layout_ok {o : Options} {ts : List Token} {items : List Item}
    (h : arrange o.nestingLimit o.nestingLimit .statement ts = .ok items) :
    layout o ts = .ok (writeAll o false items .blank).text := by
  rw [layout, h]
  rfl

theorem formatTokens_layout {o : Options} {tokens : List Token} {source : Text}
    (hne : solid tokens ≠ []) (hc : isCommand (solid tokens) = false)
    (hquotes : checkQuotes (solid tokens) = .ok ())
    (hbalance : checkBalance 0 (solid tokens) = .ok ()) :
    formatTokens o tokens source = layout o (solid tokens) := by
  rw [formatTokens_statement hc, hquotes, hbalance, if_neg (by simpa using hne)]
  rfl

theorem layout_rename {o : Options} {g g' : Renaming} {ts : List Token}
    (h : ∀ items, arrange o.nestingLimit o.nestingLimit .statement ts = .ok items →
      ∀ m ∈ Item.allMarked false items, WrittenAlike o g g' m) :
    layout o (renamed g ts) = layout o (renamed g' ts) := by
  unfold layout
  rw [arrange_rename g, arrange_rename g']
  cases hi : arrange o.nestingLimit o.nestingLimit .statement ts with
  | error e => rfl
  | ok items =>
    have htext := (writeAll_alike items false (h items hi) (.refl .blank)).text
    change Except.ok _ = Except.ok _
    rw [htext]

namespace Renaming

def same : Renaming := ⟨id, id, id, fun _ => rfl⟩

/-- Raises the names of functions and trims the ends of line comments. -/
def settling (o : Options) : Renaming where
  name t := if o.isFunction t then Text.upper t else t
  string := id
  comment := Text.trimEnd
  decode t := by
    split
    · exact Text.sameLetters_decode_upper t
    · rfl

def quoting (x : Text) : Renaming := ⟨id, fun _ => x, id, fun _ => rfl⟩

def unlabelling (ts : List Token) : Renaming where
  name := id
  string l :=
    match ts[l.length]? with
    | some (.string x) => x
    | _ => []
  comment := id
  decode _ := rfl

end Renaming

theorem renamed_same (ts : List Token) : renamed .same ts = ts := by
  have h : Token.rename .same = id := funext fun t => by cases t <;> rfl
  rw [renamed, h, List.map_id]

section Settling

variable {o : Options}

theorem Options.Ascii.isFunction_upper (ho : o.Ascii) {t : Text} (h : o.isFunction t = true) :
    o.isFunction (Text.upper t) = true := by
  rw [Options.isFunction, Text.upper_upper (ho.upper h)]
  exact h

theorem Options.Ascii.render_upper (ho : o.Ascii) {t : Text} (h : o.isFunction t = true)
    (flat : Bool) (prev : Option Token) : (Token.identifier (Text.upper t)).render o flat prev =
      (Token.identifier t).render o flat prev := by
  simp only [Token.render]
  rw [if_pos (ho.isFunction_upper h), if_pos h, Text.upper_upper (ho.upper h)]

theorem render_trimEnd (t : Text) (flat : Bool) (prev : Option Token) :
    (Token.lineComment (Text.trimEnd t)).render o flat prev =
      (Token.lineComment t).render o flat prev := by
  have : Text.trimEnd (Text.trimEnd t) = Text.trimEnd t := List.rdropWhile_idempotent _ _
  simp only [Token.render, this]

theorem render_settling (ho : o.Ascii) (t : Token) (flat : Bool) (prev : Option Token) :
    (t.rename (.settling o)).render o flat prev = t.render o flat prev := by
  cases t with
  | identifier t =>
    simp only [Token.rename, Renaming.settling]
    split
    · rename_i hf
      exact ho.render_upper hf flat prev
    · rfl
  | lineComment t => exact render_trimEnd t flat prev
  | _ => rfl

theorem layout_settling (ho : o.Ascii) (ts : List Token) :
    layout o (renamed (.settling o) ts) = layout o ts := by
  have h : layout o (renamed (.settling o) ts) = layout o (renamed .same ts) :=
    layout_rename fun _ _ m _ prev => by
      rw [render_settling ho]
      cases m.2 <;> rfl
  rw [h, renamed_same]

end Settling

section Labels

def labelled (ts : List Token) : List Token :=
  ts.mapIdx fun i t => t.rename (.quoting (List.replicate i 'x'))

theorem renamed_labelled (ts : List Token) : renamed (.unlabelling ts) (labelled ts) = ts := by
  refine List.ext_getElem (by simp [labelled]) fun i hi hi' => ?_
  simp only [labelled, List.getElem_map, List.getElem_mapIdx]
  cases ht : ts[i] with
  | string x =>
    have hget : ts[i]? = some (.string x) := by rw [List.getElem?_eq_getElem hi', ht]
    simp [Token.rename, Renaming.quoting, Renaming.unlabelling, hget]
  | _ => rfl

theorem labelled_congr {ts us : List Token} (h : renamed (.quoting []) ts = renamed (.quoting []) us) :
    labelled ts = labelled us := by
  have htwice : ∀ (x : Text) (t : Token),
      (t.rename (.quoting [])).rename (.quoting x) = t.rename (.quoting x) := fun x t => by
    cases t <;> rfl
  have hlabel : ∀ ts : List Token, labelled (renamed (.quoting []) ts) = labelled ts := fun ts =>
    List.ext_getElem (by simp [labelled]) fun i _ _ => by simp [labelled, htwice]
  rw [← hlabel ts, h, hlabel us]

variable {o : Options} {ts us : List Token}

/-- Lists that differ in their strings have one layout, if each string is written alike where it
stands. -/
theorem layout_strings (h : renamed (.quoting []) ts = renamed (.quoting []) us)
    (hwhole : ∀ items, arrange o.nestingLimit o.nestingLimit .statement ts = .ok items →
      List.Forall₂ (fun (m : Bool × Token) (u : Token) =>
        ∀ prev, m.2.render o m.1 prev = u.render o m.1 prev) (Item.allMarked false items) us) :
    layout o ts = layout o us := by
  have hus : renamed (.unlabelling us) (labelled ts) = us := by
    rw [labelled_congr h, renamed_labelled]
  have hlength : ts.length = us.length := by simpa using congrArg List.length h
  rw [← hus]
  nth_rewrite 1 [← renamed_labelled ts]
  refine layout_rename fun items hitems => ?_
  have harrange := arrange_rename (.unlabelling ts) o.nestingLimit o.nestingLimit .statement
    (labelled ts)
  rw [renamed_labelled, hitems] at harrange
  have hmarks := hwhole _ harrange
  rw [Item.allMarked_rename] at hmarks
  -- nothing is left out, so the marks are those of the labelled tokens
  have htokens : (Item.allMarked false items).map Prod.snd = labelled ts := by
    have hkept := (line_layout (o := o) hitems).1
    rw [Item.map_allMarked]
    refine hkept.sublist.eq_of_length ?_
    have := hmarks.length_eq
    rw [← Item.map_allMarked false]
    simpa [labelled, hlength] using this
  rw [← hus, ← htokens, renamed, List.map_map, List.forall₂_map_left_iff,
    List.forall₂_map_right_iff, List.forall₂_same] at hmarks
  exact hmarks

end Labels

section Match

variable {o : Options} {t u : Token}

theorem Token.Match.render (ho : o.Ascii) (hm : t.Match o u) (ht : Shape t) {flat : Bool}
    (hread : ∃ prev s, u.Source s ∧ Text.trim (t.render o flat prev) = Text.trim s)
    (prev : Option Token) : t.render o flat prev = u.render o flat prev := by
  cases t with
  | identifier x =>
    rcases hm with rfl | ⟨hf, rfl⟩
    · rfl
    · exact (ho.render_upper hf flat prev).symm
  | lineComment x =>
    rcases hm with rfl | rfl
    · rfl
    · exact (render_trimEnd x flat prev).symm
  | string x =>
    rcases hm with rfl | rfl
    · rfl
    · obtain ⟨_, s, hs, hread⟩ := hread
      have hsolid : Text.Solid x := ht.tidy trivial
      have hfilter := hsolid.filter (p := fun c => c != '\n' && c != '\r') fun c hc => by
        by_contra hn
        rw [isBlank_of_stripped c (by simpa using hn)] at hc
        cases hc
      obtain rfl : s = _ := hs
      simp only [Token.render] at hread ⊢
      cases flat with
      | true => simp
      | false =>
        simp only [Bool.false_eq_true, if_false] at hread ⊢
        rwa [hsolid.trim, hfilter.trim] at hread
  | _ =>
    cases hm
    rfl

theorem Token.Match.settling (ho : o.Ascii) (hm : t.Match o u) :
    (t.rename (.settling o)).rename (.quoting []) = (u.rename (.settling o)).rename (.quoting []) := by
  cases t with
  | identifier x =>
    rcases hm with rfl | ⟨hf, rfl⟩
    · rfl
    · simp only [Token.rename, Renaming.settling]
      rw [if_pos hf, if_pos (ho.isFunction_upper hf), Text.upper_upper (ho.upper hf)]
  | lineComment x =>
    rcases hm with rfl | rfl
    · rfl
    · simp only [Token.rename, Renaming.settling, Renaming.quoting]
      rw [show Text.trimEnd (Text.trimEnd x) = _ from List.rdropWhile_idempotent _ _]
      rfl
  | string x => rcases hm with rfl | rfl <;> rfl
  | _ => cases hm; rfl

theorem checkBalance_match {ts us : List Token} (h : List.Forall₂ (Token.Match o) ts us) (d : Nat) :
    checkBalance d us = checkBalance d ts := by
  induction h generalizing d with
  | nil => rfl
  | @cons t u ts us hm _ ih =>
    cases t with
    | identifier x => rcases hm with rfl | ⟨-, rfl⟩ <;> exact ih d
    | lineComment x => rcases hm with rfl | rfl <;> exact ih d
    | string x => rcases hm with rfl | rfl <;> exact ih d
    | openParen => cases hm; exact ih (d + 1)
    | closeParen =>
      cases hm
      cases d with
      | zero => rfl
      | succ d => exact ih d
    | _ => cases hm; exact ih d

end Match

section Again

variable {o : Options} {ts : List Token} {items : List Item} {out : Text}

/-- A token that was written is read again as `u`, which is written as it. -/
structure Reread (o : Options) (m : Bool × Token) (u : Token) : Prop where
  became : m.2.Match o u
  source : ∃ prev s, u.Source s ∧ Text.trim (m.2.render o m.1 prev) = Text.trim s
  render : ∀ prev, m.2.render o m.1 prev = u.render o m.1 prev

theorem reread_of_match (ho : o.Ascii)
    (hitems : arrange o.nestingLimit o.nestingLimit .statement ts = .ok items)
    (hout : out = (writeAll o false items .blank).text) (hshape : ∀ t ∈ ts, Shape t)
    (hmatch : List.Forall₂ (Token.Match o) ts (solid (tokenize out))) :
    List.Forall₂ (Reread o) (Item.allMarked false items) (solid (tokenize out)) := by
  obtain ⟨hwhole, hread⟩ := whole_of_match ho hitems hout hmatch
  have hmatch' := (List.forall₂_and_left ts _).2 ⟨hshape, hmatch⟩
  rw [← hwhole, ← Item.map_allMarked false, List.forall₂_map_left_iff] at hmatch'
  exact hmatch'.mp (fun m u h hr => ⟨h.2, hr, h.2.render ho h.1 hr⟩) hread

/-- Only the last token could lack its end, and strings keep their line ends there. -/
theorem closed_again (hitems : arrange o.nestingLimit o.nestingLimit .statement ts = .ok items)
    (hclosed : ∀ m ∈ Item.allMarked false items, m.2.Closed)
    (hread : List.Forall₂ (Reread o) (Item.allMarked false items) (solid (tokenize out))) :
    ∀ u ∈ solid (tokenize out), u.Closed := by
  intro u hu
  obtain ⟨l, r, hsplit⟩ := List.append_of_mem hu
  by_cases hr : r = []
  · rw [hsplit, hr, ← List.forall₂_reverse_iff, List.reverse_append, List.reverse_cons,
      List.reverse_nil, List.nil_append, List.singleton_append, List.forall₂_cons_right_iff] at hread
    obtain ⟨m, ms, ⟨hm, -, hrender⟩, -, hrev⟩ := hread
    have hlast : (Item.allMarked false items).getLast? = some m := by
      rw [← List.head?_reverse, hrev, List.head?_cons]
    have hmem := hclosed m (List.mem_of_getLast? hlast)
    obtain ⟨flat, t⟩ := m
    cases t with
    | string x =>
      have hflat : flat = false := by
        rw [← Bool.not_eq_true]
        rintro rfl
        exact ended_arrange hitems x hlast
      subst hflat
      rcases hm with rfl | rfl
      · exact hmem
      · have hx : x = x.filter fun c => c != '\n' && c != '\r' := hrender none
        rw [← hx]
        exact hmem
    | identifier x => rcases hm with rfl | ⟨-, rfl⟩ <;> trivial
    | lineComment x => rcases hm with rfl | rfl <;> trivial
    | _ => cases hm; exact hmem
  · exact closed_of_tokenize hsplit hr

theorem layout_again (ho : o.Ascii)
    (hitems : arrange o.nestingLimit o.nestingLimit .statement ts = .ok items)
    (hmatch : List.Forall₂ (Token.Match o) ts (solid (tokenize out)))
    (hread : List.Forall₂ (Reread o) (Item.allMarked false items) (solid (tokenize out))) :
    layout o (solid (tokenize out)) = layout o ts := by
  rw [← layout_settling ho, ← layout_settling ho ts]
  refine (layout_strings ?_ fun items' hitems' => ?_).symm
  · simp only [renamed, List.map_map]
    rw [← List.forall₂_eq_eq_eq, List.forall₂_map_left_iff, List.forall₂_map_right_iff]
    exact hmatch.imp fun t u hm => hm.settling ho
  · rw [arrange_rename (.settling o), hitems] at hitems'
    obtain rfl : Item.renameAll (.settling o) items = items' := by
      simpa [Except.map] using hitems'
    rw [Item.allMarked_rename, List.forall₂_map_left_iff, List.forall₂_map_right_iff]
    refine hread.imp fun m u h prev => ?_
    rw [render_settling ho, render_settling ho]
    exact h.render prev

theorem Reread.isVerb_upper {flat : Bool} {x : Text}
    (h : Reread o (flat, .identifier x) (.identifier x)) (hf : o.isFunction x = true)
    (hverb : isVerb (Text.upper x) = true) : isVerb x = true := by
  obtain ⟨w, b, c, s, hupper, hletters⟩ := isVerb_letters hverb
  obtain ⟨prev, s, hs, htrim⟩ := h.source
  obtain rfl : s = x := hs
  have hink : ∀ d ∈ s, Text.isBlank d = false := by
    intro d hd
    rw [← Bool.not_eq_true]
    intro hb
    have hmem : d ∈ Text.upper s :=
      List.mem_flatMap.2 ⟨d, hd, by rw [Text.upperChar_blank hb]; simp⟩
    rw [Text.isBlank_of_isAlpha (hletters d hmem)] at hb
    cases hb
  have hne : s ≠ [] := by
    rintro rfl
    cases hverb
  have hsolid := Text.solid_of_ink hne hink
  simp only [Token.render, hf, if_true] at htrim
  rw [hsolid.trim, hsolid.upper.trim] at htrim
  rwa [htrim] at hverb

theorem isCommand_again {us : List Token} {ms : List (Bool × Token)}
    (hread : List.Forall₂ (Reread o) ms us) (hc : isCommand (ms.map Prod.snd) = false) :
    isCommand us = isCommand ((ms.map Prod.snd).map (Token.settle o)) := by
  cases hread with
  | nil => rfl
  | @cons m u _ _ h _ =>
    obtain ⟨flat, t⟩ := m
    have hm := h.became
    cases t with
    | identifier x =>
      have hx : isVerb x = false := hc
      simp only [List.map_cons, Token.settle]
      rcases hm with rfl | ⟨hf, rfl⟩
      · split
        · rename_i hf
          by_contra hne
          have hverb : isVerb (Text.upper x) = true := by
            simpa [isCommand, hx] using Ne.symm hne
          rw [h.isVerb_upper hf hverb] at hx
          cases hx
        · rfl
      · rw [if_pos hf]
        rfl
    | lineComment x => rcases hm with rfl | rfl <;> rfl
    | string x => rcases hm with rfl | rfl <;> rfl
    | _ => cases hm; rfl

end Again

theorem tryFormat_eq {o : Options} {sql : String} {t : Text}
    (h : formatTokens o (tokenize sql.toList) sql.toList = .ok t) :
    tryFormat o sql = .ok (String.ofList t) := by
  rw [tryFormat, h]

theorem tryFormat_command_ne {o : Options} {sql out : String}
    (hcommand : isCommand (solid (tokenize sql.toList)) = false)
    (hmatch : List.Forall₂ (Token.Match o) (solid (tokenize sql.toList))
      (solid (tokenize out.toList)))
    (hc : isCommand (solid (tokenize out.toList)) = true) : tryFormat o out ≠ .ok out := by
  intro h
  have hformat := tryFormat_ok h
  cases hus : solid (tokenize out.toList) with
  | nil =>
    rw [hus] at hc
    cases hc
  | cons u us =>
    rw [hus] at hc hmatch
    obtain ⟨t, ts, hm, -, hts⟩ := List.forall₂_cons_right_iff.1 hmatch
    rw [hts] at hcommand
    have hverb : ∃ v, u = .identifier v ∧ isVerb v = true ∧ ∀ c ∈ v, c.toUpper = c := by
      cases t with
      | identifier x =>
        rcases hm with rfl | ⟨-, rfl⟩
        · rw [show isCommand (.identifier x :: ts) = isVerb x from rfl] at hcommand
          rw [show isCommand (.identifier x :: us) = isVerb x from rfl, hcommand] at hc
          cases hc
        · exact ⟨_, rfl, hc, fun c hc => Text.toUpper_of_mem_upper hc⟩
      | lineComment x => rcases hm with rfl | rfl <;> cases hc
      | string x => rcases hm with rfl | rfl <;> cases hc
      | _ => cases hm; cases hc
    obtain ⟨v, rfl, hverb, hupper⟩ := hverb
    rw [formatTokens_command (by rw [hus]; exact hc)] at hformat
    exact formatCommand_ne o hus hverb hupper (Except.ok.inj hformat)

/-- A layout that is read again as the tokens of the statement is laid out as it stands, exactly if
the statement is no client command once the names of functions in it are raised. -/
theorem tryFormat_again_iff (o : Options) (sql out : String) (ho : o.Ascii)
    (hcommand : isCommand (solid (tokenize sql.toList)) = false) (hout : tryFormat o sql = .ok out)
    (hmatch : List.Forall₂ (Token.Match o) (solid (tokenize sql.toList))
      (solid (tokenize out.toList))) :
    tryFormat o out = .ok out ↔
      isCommand ((solid (tokenize sql.toList)).map (Token.settle o)) = false := by
  rcases formatTokens_ok (tryFormat_ok hout) hcommand with
    ⟨hnil, hempty⟩ | ⟨hne, hquotes, hbalance, items, hitems, htext⟩
  · have hformat : tryFormat o out = .ok out := by
      rw [tryFormat_eq (t := []) (by rw [hempty, tokenize]; rfl), ← hempty, String.ofList_toList]
    rw [hnil]
    exact iff_of_true hformat rfl
  have hclosed := closed_of_checkQuotes hquotes
  have hshape := shapes_tokenize _ hclosed
  have hread := reread_of_match ho hitems htext hshape hmatch
  have hwhole := (whole_of_match ho hitems htext hmatch).1
  rw [← Item.map_allMarked false] at hwhole
  have hsame := isCommand_again hread (by rw [hwhole]; exact hcommand)
  rw [hwhole] at hsame
  rw [← hsame]
  refine ⟨fun h => ?_, fun hc => ?_⟩
  · rw [← Bool.not_eq_true]
    exact fun hc => tryFormat_command_ne hcommand hmatch hc h
  · have hclosed' := closed_again hitems (fun m hm => hclosed m.2 (hwhole ▸ List.mem_map_of_mem hm))
      hread
    have hne' : solid (tokenize out.toList) ≠ [] := by
      intro hn
      rw [hn, List.forall₂_nil_right_iff] at hmatch
      exact hne hmatch
    have hformat : formatTokens o (tokenize out.toList) out.toList = layout o _ :=
      formatTokens_layout hne' hc (checkQuotes_of_closed hclosed')
        (by rw [checkBalance_match hmatch, hbalance])
    rw [layout_again ho hitems hmatch hread, layout_ok hitems, ← htext] at hformat
    rw [tryFormat_eq hformat, String.ofList_toList]

/-- The long s is raised to `S`, which makes a verb of the function name. -/
theorem tryFormat_again_verb :
    tryFormat { functions := [['W', 'B', 'S']] } "wbſ x" = .ok "WBS x" ∧
      tryFormat { functions := [['W', 'B', 'S']] } "WBS x" ≠ .ok "WBS x" := by
  have hout : tryFormat { functions := [['W', 'B', 'S']] } "wbſ x" = .ok "WBS x" := by
    decide +kernel
  have hts : solid (tokenize "wbſ x".toList) = [.identifier ['w', 'b', 'ſ'], .identifier ['x']] := by
    decide +kernel
  have hus : solid (tokenize "WBS x".toList) = [.identifier ['W', 'B', 'S'], .identifier ['x']] := by
    decide +kernel
  have hiff := tryFormat_again_iff _ _ _ (by simp [Options.Ascii, Text.isAscii])
    (by rw [hts]; rfl) hout
    (by rw [hts, hus]; exact .cons (.inr ⟨by decide +kernel, by decide +kernel⟩) (.cons (.inl rfl) .nil))
  refine ⟨hout, fun h => ?_⟩
  have hc := hiff.1 h
  rw [hts] at hc
  exact absurd hc (by decide +kernel)

end SqlLayout

import SqlLayout.Proofs.Sequence
import SqlLayout.Proofs.StepInvariant

/-! The ends of the lines. No line ends with a blank, and behind the last token nothing follows but
the line ends that belong to a semicolon.
-/

set_option autoImplicit false

namespace SqlLayout

namespace Text

variable {s t : Text} {ls : List Text}

def Ending (t : Text) : Prop :=
  '\n' ∉ t ∧ trimEnd (dropEndWhile (· == ' ') t) = dropEndWhile (· == ' ') t

theorem isBlank_of_space {c : Char} (h : (c == ' ') = true) : isBlank c = true := by
  obtain rfl : c = ' ' := by simpa using h
  rfl

theorem trimEnd_trimEnd (t : Text) : trimEnd (trimEnd t) = trimEnd t :=
  dropEndWhile_dropEndWhile (fun _ => id) t

theorem trimEnd_blank (ht : ∀ c ∈ t, isBlank c = true) (s : Text) :
    trimEnd (s ++ t) = trimEnd s := by
  have hnil : dropEndWhile isBlank t = [] := List.rdropWhile_eq_nil_iff.2 ht
  simp [trimEnd, dropEndWhile_append, hnil]

theorem ending_trimEnd (hn : '\n' ∉ t) : Ending (trimEnd t) := by
  refine ⟨fun h => hn ((Text.dropEndWhile_prefix _ t).subset h), ?_⟩
  have hspace : dropEndWhile (· == ' ') (trimEnd t) = trimEnd t :=
    dropEndWhile_dropEndWhile (fun _ => isBlank_of_space) t
  rw [hspace, trimEnd_trimEnd]

theorem lasting_ending : Lasting Ending where
  nil := ⟨by simp, rfl⟩
  space := by unfold Ending; decide
  mark := fun {c} hc => by
    refine ⟨?_, ?_⟩
    · intro h
      obtain rfl : '\n' = c := by simpa using h
      simp [isBlank] at hc
    · have hs : (c == ' ') = false := by
        rw [beq_eq_false_iff_ne]
        rintro rfl
        simp [isBlank] at hc
      simp [dropEndWhile, trimEnd, hs, hc]
  append := fun {s t} hs ht => by
    refine ⟨by simp [hs.1, ht.1], ?_⟩
    rw [dropEndWhile_append]
    split
    · exact hs.2
    · rename_i hne
      rw [trimEnd_append s (by rw [ht.2]; simpa using hne), ht.2]
  dropEnd := fun {t} ht => by
    refine ⟨fun h => ht.1 ((Text.dropEndWhile_prefix _ t).subset h), ?_⟩
    rw [dropEndWhile_dropEndWhile fun _ => id]
    exact ht.2
  trim := fun {t} ht => ending_trimEnd fun h => ht.1 ((List.dropWhile_suffix _).subset h)
  trimEnd := fun ht => ending_trimEnd ht.1

/-- Without the blanks at its end, a text has lines that all end without blanks, if but the last
already did. -/
theorem trimEnd_join (hne : ls ≠ []) (hn : ∀ l ∈ ls, '\n' ∉ l)
    (he : ∀ l ∈ ls.dropLast, trimEnd l = l) :
    ∃ ms, ms ≠ [] ∧ trimEnd (join ['\n'] ls) = join ['\n'] ms ∧
      ∀ l ∈ ms, '\n' ∉ l ∧ trimEnd l = l := by
  induction ls using List.reverseRecOn with
  | nil => exact absurd rfl hne
  | append_singleton ls t ih =>
    rw [List.dropLast_concat] at he
    have hmark : '\n' ∉ trimEnd t := fun h => hn t (by simp) ((Text.dropEndWhile_prefix _ t).subset h)
    by_cases hls : ls = []
    · refine ⟨[trimEnd t], by simp, by simp [hls, join], ?_⟩
      simpa using ⟨hmark, trimEnd_trimEnd t⟩
    have hjoin : join ['\n'] (ls ++ [t]) = join ['\n'] ls ++ ('\n' :: t) := by
      rw [join_append _ hls (List.cons_ne_nil t [])]
      simp [join]
    by_cases ht : trimEnd t = []
    · obtain ⟨ms, hms, heq, hall⟩ := ih hls (fun l hl => hn l (by simp [hl]))
        fun l hl => he l (List.dropLast_subset _ hl)
      have hblank : ∀ c ∈ '\n' :: t, isBlank c = true :=
        List.forall_mem_cons.2 ⟨rfl, List.rdropWhile_eq_nil_iff.1 ht⟩
      exact ⟨ms, hms, by rw [hjoin, trimEnd_blank hblank, heq], hall⟩
    · refine ⟨ls ++ [trimEnd t], by simp, ?_, ?_⟩
      · have hend := trimEnd_append (join ['\n'] ls ++ ['\n']) ht
        rw [List.append_assoc, List.append_assoc, List.singleton_append] at hend
        rw [hjoin, hend, join_append _ hls (List.cons_ne_nil _ [])]
        simp [join]
      · intro l hl
        rcases List.mem_append.1 hl with hl | hl
        · exact ⟨hn l (by simp [hl]), he l hl⟩
        · obtain rfl : l = trimEnd t := by simpa using hl
          exact ⟨hmark, trimEnd_trimEnd t⟩

theorem trimEnd_splitOn (hne : ls ≠ []) (h : ∀ l ∈ ls, '\n' ∉ l ∧ trimEnd l = l) :
    ∀ l ∈ (join ['\n'] ls).splitOn '\n', trimEnd l = l := by
  rw [join, List.splitOn_intercalate '\n' (fun l hl => (h l hl).1) hne]
  exact fun l hl => (h l hl).2

end Text

open Arrange in
theorem Arrange.Arranged.getLast? {nested : Nested}
    (hn : ∀ {ts : List Token} {body : List Item},
      nested .caseHead (.keyword .CASE :: ts) = .ok body →
        (Item.allTokens body).getLast? = some (.keyword .END))
    {p : Place} {before ts : List Token} {items : List Item} (h : Arranged nested p before ts items)
    (hp : p.isOpen = false) : (Item.allTokens items).getLast? = ts.getLast? := by
  induction h with
  | done => rfl
  | @token p next before rest t items more hr _ ih =>
    have hitems : Item.allTokens items = [t] := by
      rw [← Item.map_allMarked false, allMarked_written hr false]
      rfl
    rw [Item.allTokens_append, hitems, List.getLast?_append, ih ((hr.isOpen_next rfl).trans hp),
      ← List.getLast?_append, List.singleton_append]
  | bracket hr hg _ ih =>
    rw [Item.allTokens_append, List.getLast?_append, bracket_last,
      ih ((hr.isOpen_next rfl).trans hp), group_eq_append hg]
    simp [List.getLast?_cons, List.getLast?_append]
  | looseCase => simp [Item.allTokens, Item.tokens]
  | @caseEnd p next before rest inner after more hr hc _ ih =>
    have hinset : (Item.allTokens (inset nested true .caseHead p.indent
        (.keyword .CASE :: inner))).getLast? = some (.keyword .END) := by
      unfold inset
      split
      · rename_i body hb
        simpa [Item.allTokens, Item.tokens] using hn hb
      · rw [Item.allTokens_echo, List.getLast?_cons, caseEnd?_getLast hc]
        rfl
    rw [Item.allTokens_append, List.getLast?_append, hinset, ih ((hr.isOpen_next rfl).trans hp),
      caseEnd?_eq_append hc, List.getLast?_cons, List.getLast?_append, caseEnd?_getLast hc]
    cases after.getLast? <;> rfl
  | finish => cases hp

theorem getLast?_arrange {limit room : Nat} {ts : List Token} {items : List Item}
    (h : arrange limit room .statement ts = .ok items) :
    (Item.allTokens items).getLast? = ts.getLast? := by
  have hstarts : Arrange.Starts .statement [] ts := by simp [Arrange.Starts]
  cases room with
  | zero => exact (Arrange.arranged_of_run hstarts h).getLast? (by simp) rfl
  | succ room => exact (Arrange.arranged_of_run hstarts h).getLast? arrange_case_last rfl

/-- The token is written with a text that has no line break in it and ends without a blank. -/
def Token.EndsInk (o : Options) (m : Bool × Token) : Prop :=
  ∀ prev, '\n' ∉ m.2.render o m.1 prev ∧ Text.Firm (m.2.render o m.1 prev)

theorem Text.Firm.ending {t : Text} (h : Firm t) (hn : '\n' ∉ t) : Ending t := by
  have hspace := h.dropEndWhile (p := (· == ' ')) (fun _ => isBlank_of_space) [] []
  have hblank := h.dropEndWhile (p := isBlank) (fun _ => id) [] []
  rw [List.nil_append, List.append_nil] at hspace hblank
  refine ⟨hn, ?_⟩
  rw [hspace]
  simpa [trimEnd, Text.dropEndWhile] using hblank

section

variable {o : Options} {ts : List Token} {items : List Item}

theorem ending_lines (h : arrange o.nestingLimit o.nestingLimit .statement ts = .ok items)
    (hr : ∀ m ∈ Item.allMarked false items, Token.EndsInk o m) :
    (∀ l ∈ (writeAll o false items .blank).page.lines, '\n' ∉ l) ∧
      ∀ l ∈ (writeAll o false items .blank).page.lines.dropLast, Text.trimEnd l = l := by
  have heach := keeps_writeAll Text.lasting_ending items false (Page.keeps_each Text.lasting_ending)
    (fun m hm prev => (hr m hm prev).2.ending (hr m hm prev).1)
    (Draft.each_blank Text.lasting_ending)
  have hneat : (writeAll o false items .blank).page.Neat :=
    (@Follows.writeAll _ _ _ (follows_neat o) items false [] _ _ (sane_arrange h).proper
      (nestedLed_arrange _ _ (by simp [Arrange.Starts]) h).1 (follows_neat o).blank).2
  constructor
  · intro l hl
    rcases (by simpa [Page.lines, or_comm] using hl : l = _ ∨ l ∈ _) with rfl | hl
    · exact heach.2.1
    · exact (heach.1 l hl).1
  · intro l hl
    have hl : l ∈ (writeAll o false items .blank).page.above := by simpa [Page.lines] using hl
    have hspace : Text.dropEndWhile (· == ' ') l = l := by
      by_cases hne : l = []
      · rw [hne]
        rfl
      · simpa using Text.dropEnd_append hne (hneat l hl) []
    have hend := (heach.1 l hl).2
    rwa [hspace] at hend

theorem Draft.trimEnd_text (d : Draft) : Text.trimEnd d.text = d.page.text := by
  have hpage : Text.trimEnd d.page.text = d.page.text := Text.trimEnd_trimEnd _
  unfold Draft.text
  split
  · rw [Text.trimEnd_blank (by simp [Text.isBlank]), hpage]
  · rw [List.append_nil, hpage]

theorem last_shown (h : arrange o.nestingLimit o.nestingLimit .statement ts = .ok items)
    (hr : ∀ m ∈ Item.allMarked false items, Token.EndsInk o m) {t : Token}
    (ht : ts.getLast? = some t) : ∃ flat prev a, (writeAll o false items .blank).page.text =
      a ++ Text.trim (t.render o flat prev) ∧ Text.Solid (Text.trim (t.render o flat prev)) := by
  have hadmits : Rule.loose.Admits o (Item.allMarked false items) :=
    ⟨.inl rfl, fun m _ prev => Rule.loose_takes _⟩
  obtain ⟨cs, hcs, hrows⟩ := rows_writeAll h hadmits
  obtain ⟨m, hm, hmt⟩ : ∃ m, (Item.allMarked false items).getLast? = some m ∧ m.2 = t := by
    have hlast := getLast?_arrange h
    rw [ht, ← Item.map_allMarked false, List.getLast?_map] at hlast
    simpa using hlast
  obtain ⟨c, hc, hcell⟩ : ∃ c, cs.getLast? = some c ∧ Rendered o m c := by
    obtain ⟨ms, hms⟩ := List.getLast?_eq_some_iff.1 hm
    have hrev := List.forall₂_reverse_iff.2 hcs
    rw [hms, List.reverse_append, List.reverse_singleton, List.singleton_append] at hrev
    obtain ⟨c, ds, hc, -, hds⟩ := List.forall₂_cons_left_iff.1 hrev
    exact ⟨c, by rw [← List.head?_reverse, hds]; rfl, hc⟩
  obtain ⟨-, prev, hprev⟩ := hcell
  have hfirm : Text.Firm c.2 := by
    rw [hprev]
    exact (hr m (List.mem_of_getLast? hm) prev).2
  have hink : Text.isBlankText c.2 = false := by
    obtain ⟨u, d, hu, hd⟩ := hfirm.ends
    simp [hu, Text.isBlankText, hd]
  have hinked : (inked cs).getLast? = some (c.1, Text.trim c.2) := by
    obtain ⟨ds, rfl⟩ := List.getLast?_eq_some_iff.1 hc
    simp [inked, hink]
  obtain ⟨a, g, htext, hs, hg⟩ := (hrows.text rfl rfl).ends hinked
  rw [hprev, hmt] at htext hs
  refine ⟨m.1, prev, a, ?_, hs⟩
  have hcut := hs.dropEndWhile (p := Text.isBlank) (fun _ => id) a []
  rw [List.append_nil] at hcut
  rw [← Draft.trimEnd_text, htext, Text.trimEnd_blank hg, Text.trimEnd, hcut]
  exact List.append_nil _

end

/-- No line of a layout ends with a blank. A layout ends with a semicolon and two line ends when its
last token is a semicolon, and with something to see otherwise, wherever its last token stands. -/
theorem formatTokens_lineEnds (o : Options) (tokens : List Token) (source out : Text)
    (items : List Item) (hcommand : isCommand (solid tokens) = false) (hne : solid tokens ≠ [])
    (hitems : arrange o.nestingLimit o.nestingLimit .statement (solid tokens) = .ok items)
    (hr : ∀ m ∈ Item.allMarked false items, Token.EndsInk o m)
    (hout : formatTokens o tokens source = .ok out) :
    (∀ l ∈ out.splitOn '\n', Text.trimEnd l = l) ∧
      ((solid tokens).getLast? = some .semicolon → ∃ u, out = u ++ [';', '\n', '\n']) ∧
      ((solid tokens).getLast? ≠ some .semicolon →
        ∃ u c, out = u ++ [c] ∧ Text.isBlank c = false) := by
  obtain ⟨hnil, -⟩ | ⟨-, -, -, items', hitems', rfl⟩ := formatTokens_ok hout hcommand
  · exact absurd hnil hne
  obtain rfl : items = items' := by simpa [hitems] using hitems'
  obtain ⟨hmarks, hends⟩ := ending_lines hitems hr
  obtain ⟨ms, hms, htext, hall⟩ := Text.trimEnd_join (by simp [Page.lines]) hmarks hends
  have hpage : (writeAll o false items .blank).page.text = Text.join ['\n'] ms := htext
  have hlast : (writeAll o false items .blank).last = (solid tokens).getLast? := by
    rw [last_writeAll o false (sane_arrange hitems).proper
      (nestedLed_arrange _ _ (by simp [Arrange.Starts]) hitems).1, getLast?_arrange hitems]
  obtain ⟨t, ht⟩ : ∃ t, (solid tokens).getLast? = some t :=
    ⟨_, List.getLast?_eq_some_getLast hne⟩
  obtain ⟨flat, prev, a, hshown, hsolid⟩ := last_shown hitems hr ht
  rw [Draft.text, hlast, ht]
  by_cases hsemi : t = .semicolon
  · subst hsemi
    rw [if_pos rfl]
    have hjoin : Text.join ['\n'] ms ++ ['\n', '\n'] = Text.join ['\n'] (ms ++ [[], []]) := by
      rw [Text.join_append _ hms (List.cons_ne_nil _ _), List.append_assoc]
      rfl
    have hclean : ∀ l ∈ ms ++ [[], []], '\n' ∉ l ∧ Text.trimEnd l = l := by
      intro l hl
      rcases List.mem_append.1 hl with hl | hl
      · exact hall l hl
      · obtain rfl : l = [] := by simpa using hl
        exact ⟨by simp, rfl⟩
    refine ⟨?_, fun _ => ⟨a, ?_⟩, fun hn => absurd rfl hn⟩
    · rw [hpage, hjoin]
      exact Text.trimEnd_splitOn (by simp) hclean
    · rw [hshown]
      simp [show Text.trim (Token.semicolon.render o flat prev) = [';'] from rfl]
  · rw [if_neg (by simpa using hsemi), List.append_nil]
    refine ⟨?_, fun hn => absurd (Option.some.inj hn) hsemi, fun _ => ?_⟩
    · rw [hpage]
      exact Text.trimEnd_splitOn hms hall
    · obtain ⟨b, c, hbc, hc⟩ := hsolid.ends
      exact ⟨a ++ b, c, by rw [hshown, hbc, List.append_assoc], hc⟩

/-- A semicolon that a `CASE` without its `END` has swallowed still ends the layout. -/
theorem formatTokens_lineEnds_case : ∃ out,
    formatTokens {} [.keyword .SELECT, .keyword .CASE, .identifier ['a'], .semicolon] [] = .ok out ∧
      (∀ l ∈ out.splitOn '\n', Text.trimEnd l = l) ∧ ∃ u, out = u ++ [';', '\n', '\n'] := by
  have hout : formatTokens {} [.keyword .SELECT, .keyword .CASE, .identifier ['a'], .semicolon] [] =
      .ok "SELECT CASE a;\n\n".toList := by decide +kernel
  obtain ⟨h, -⟩ | ⟨-, -, -, items, hitems, -⟩ := formatTokens_ok hout rfl
  · simp [solid, Token.isGap] at h
  have hmem : ∀ m ∈ Item.allMarked false items, m.2 ∈
      [.keyword .SELECT, .keyword .CASE, .identifier ['a'], .semicolon] :=
    fun m hm => (sane_arrange hitems).mem_of_marked false hm
  have hplain : ∀ t ∈ [.keyword .SELECT, .keyword .CASE, .identifier ['a'], .semicolon],
      (Token.Tidy t ∧ t.isGap = false) ∧ '\n' ∉ t.render {} false none := by decide +kernel
  have hr : ∀ m ∈ Item.allMarked false items, Token.EndsInk {} m := by
    intro m hm prev
    obtain ⟨hsolid, hbreak⟩ := Token.solid_unbroken_render (hplain m.2 (hmem m hm)) m.1 prev
    exact ⟨hbreak, hsolid.firm⟩
  obtain ⟨hlines, hsemi, -⟩ := formatTokens_lineEnds {} _ [] _ items rfl (by decide) hitems hr hout
  exact ⟨_, hout, hlines, hsemi rfl⟩

end SqlLayout

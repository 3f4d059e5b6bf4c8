import SqlLayout.Proofs.Collapse
import SqlLayout.Proofs.StepInvariant

/-! Where a text stands on a page: at which column, and behind how many characters that are to be
seen. What is written later does not move it, and when the page is set in it moves with the first line.
-/

set_option autoImplicit false

namespace SqlLayout

namespace Text

def column (t : Text) : Nat := (t.reverse.takeWhile (· != '\n')).length

/-- In the text stand the lines `ls`, under each other at the column `c` and behind `i` characters
that are not blank. -/
def Stands (t : Text) (i c : Nat) (ls : List Text) : Prop :=
  ∃ pre post, t = pre ++ join ('\n' :: spaces c) ls ++ post ∧ ink pre = i ∧ column pre = c

variable {a b t : Text} {ls : List Text}

theorem ne_of_mem_reverse (ha : '\n' ∉ a) : ∀ c ∈ a.reverse, (c != '\n') = true := by
  intro c hc
  rw [bne_iff_ne]
  rintro rfl
  exact ha (List.mem_reverse.1 hc)

theorem column_append (ha : '\n' ∉ a) : column (t ++ '\n' :: a) = a.length := by
  simp [column, List.takeWhile_append_of_pos (ne_of_mem_reverse ha)]

theorem column_eq_length (ha : '\n' ∉ a) : column a = a.length := by
  rw [column, List.takeWhile_eq_self_iff.2 (ne_of_mem_reverse ha), List.length_reverse]

theorem ink_join (ls : List Text) : ink (join ['\n'] ls) = ink ls.flatten := by
  induction ls with
  | nil => rfl
  | cons t ls ih =>
    cases ls with
    | nil => simp [join]
    | cons u ls =>
      rw [join] at ih ⊢
      have hbreak : ink ['\n'] = 0 := rfl
      rw [List.intercalate_cons_cons, ink_append, ink_append, ih, List.flatten_cons (l := t),
        ink_append, hbreak, Nat.add_zero]

theorem filter_spaces (n : Nat) : (spaces n).filter (!isBlank ·) = [] :=
  List.filter_eq_nil_iff.2 fun c hc => by
    obtain rfl : c = ' ' := List.eq_of_mem_replicate hc
    decide

theorem filter_dropEnd (t : Text) :
    (dropEndWhile (· == ' ') t).filter (!isBlank ·) = t.filter (!isBlank ·) := by
  have hsplit : dropEndWhile (· == ' ') t ++ t.rtakeWhile (· == ' ') = t :=
    List.rdropWhile_append_rtakeWhile
  have hnone : (t.rtakeWhile (· == ' ')).filter (!isBlank ·) = [] :=
    List.filter_eq_nil_iff.2 fun c hc => by
      obtain rfl : c = ' ' := by simpa using List.mem_rtakeWhile_imp hc
      decide
  have hfilter := congrArg (List.filter (!isBlank ·)) hsplit
  rwa [List.filter_append, hnone, List.append_nil] at hfilter

theorem ink_dropEnd (t : Text) : ink (dropEndWhile (· == ' ') t) = ink t := by
  rw [ink, List.countP_eq_length_filter, filter_dropEnd, ← List.countP_eq_length_filter]
  rfl

theorem firm_mark {c : Char} (h : isBlank c = false) : ∀ t ∈ [[c]], Firm t := fun t ht => by
  rw [List.mem_singleton.1 ht]
  simp [Firm, h]

theorem spaces_add (m n : Nat) : spaces (m + n) = spaces m ++ spaces n :=
  (List.replicate_append_replicate ..).symm

def indented (n : Nat) (t : Text) : Text := if t.isEmpty then [] else spaces n ++ t

theorem ink_indented (n : Nat) (t : Text) : ink (indented n t) = ink t := by
  unfold indented
  split
  · rename_i ht
    rw [List.isEmpty_iff.1 ht]
  · simp

theorem ink_map_indented (n : Nat) (ls : List Text) :
    ink (ls.map (indented n)).flatten = ink ls.flatten := by
  induction ls with
  | nil => rfl
  | cons t ls ih => simp [ih, ink_indented]

theorem not_mem_spaces (n : Nat) : '\n' ∉ spaces n := by
  intro h
  cases List.eq_of_mem_replicate h

end Text

/-- The lines under each other at the column `c`: the first behind `a`, the others behind spaces, and
`b` behind the last. -/
def hang (a : Text) (c : Nat) (b : Text) : List Text → List Text
  | [] => []
  | [t] => [a ++ t ++ b]
  | t :: u :: ls => (a ++ t) :: hang (Text.spaces c) c b (u :: ls)

section

variable {low : Prop} {i c n : Nat} {a b t : Text} {ls ms front extra : List Text}

theorem hang_ne_nil (hne : ls ≠ []) : hang a c b ls ≠ [] := by
  unfold hang
  split <;> simp_all

theorem hang_full (hf : ∀ t ∈ ls, t ≠ []) (a : Text) : ∀ t ∈ hang a c b ls, t ≠ [] := by
  induction ls generalizing a with
  | nil => simp [hang]
  | cons t ls ih =>
    have ht := hf t (by simp)
    cases ls with
    | nil => simp [hang, ht]
    | cons u ls =>
      exact List.forall_mem_cons.2
        ⟨by simp [ht], ih (fun v hv => hf v (by simp [hv])) (Text.spaces c)⟩

theorem exists_hang (hne : ls ≠ []) (hf : ∀ t ∈ ls, Text.Firm t) (a : Text) (c : Nat) :
    ∃ init x, Text.Firm x ∧ ∀ b, hang a c b ls = init ++ [x ++ b] := by
  induction ls generalizing a with
  | nil => exact absurd rfl hne
  | cons t ls ih =>
    cases ls with
    | nil =>
      obtain ⟨u, d, rfl, hd⟩ := (hf t (by simp)).ends
      exact ⟨[], a ++ (u ++ [d]), by simp [Text.Firm, hd], fun b => rfl⟩
    | cons u ls =>
      obtain ⟨init, x, hx, h⟩ := ih (by simp) (fun v hv => hf v (by simp [hv])) (Text.spaces c)
      exact ⟨(a ++ t) :: init, x, hx, fun b => by rw [hang, h b, List.cons_append]⟩

theorem join_hang (ls : List Text) (hne : ls ≠ []) (a : Text) :
    Text.join ['\n'] (hang a c b ls) = a ++ Text.join ('\n' :: Text.spaces c) ls ++ b := by
  induction ls generalizing a with
  | nil => exact absurd rfl hne
  | cons t ls ih =>
    cases ls with
    | nil => simp [hang, Text.join]
    | cons u ls =>
      obtain ⟨v, vs, hv⟩ := List.exists_cons_of_ne_nil
        (hang_ne_nil (a := Text.spaces c) (c := c) (b := b) (List.cons_ne_nil u ls))
      have hrest := ih (by simp) (Text.spaces c)
      rw [hv] at hrest
      rw [Text.join] at hrest ⊢
      rw [hang, hv, List.intercalate_cons_cons, hrest]
      simp [Text.join, List.intercalate_cons_cons]

theorem under_cons_of_ne (ht : t ≠ []) (n : Nat) (ls : List Text) :
    under n (t :: ls) = (Text.spaces n ++ t) :: under n ls := by
  cases ls with
  | nil => rfl
  | cons u ls => rw [under_cons (by simp), if_neg (by simpa using ht)]

theorem under_append (hne : ms ≠ []) (n : Nat) (ls : List Text) :
    under n (ls ++ ms) = ls.map (Text.indented n) ++ under n ms := by
  induction ls with
  | nil => rfl
  | cons t ls ih =>
    rw [List.cons_append, under_cons (by simp [hne]), ih]
    rfl

theorem under_hang (hf : ∀ t ∈ ls, t ≠ []) (a : Text) (n : Nat) :
    under n (hang a c b ls ++ ms) = hang (Text.spaces n ++ a) (n + c) b ls ++ under n ms := by
  induction ls generalizing a with
  | nil => rfl
  | cons t ls ih =>
    have ht := hf t (by simp)
    cases ls with
    | nil =>
      rw [hang, List.singleton_append, under_cons_of_ne (by simp [ht])]
      simp [hang]
    | cons u ls =>
      rw [hang, List.cons_append, under_cons_of_ne (by simp [ht]),
        ih (fun v hv => hf v (by simp [hv])), ← Text.spaces_add]
      simp [hang]

/-- A first line that goes on where others stand takes the lines below it along. -/
theorem append_hang (hne : ls ≠ []) (hf : ∀ t ∈ ls, t ≠ []) (x : Text) (n : Nat)
    (h : hang a c b ls ++ ms = t :: front) :
    (x ++ t) :: under n front = hang (x ++ a) (n + c) b ls ++ under n ms := by
  cases ls with
  | nil => exact absurd rfl hne
  | cons u ls =>
    cases ls with
    | nil =>
      obtain ⟨rfl, rfl⟩ := List.cons.inj h
      simp [hang]
    | cons v ls =>
      rw [hang, List.cons_append] at h
      obtain ⟨rfl, rfl⟩ := List.cons.inj h
      rw [under_hang (fun w hw => hf w (by simp [hw])), ← Text.spaces_add]
      simp [hang]

/-- Among the lines `ms` stand the lines `ls`, under each other at the column `c` and behind `i`
characters that are not blank; under the first line, if they are `low`. -/
def Hung (low : Prop) (ms : List Text) (i c : Nat) (ls : List Text) : Prop :=
  ∃ us a b below, ms = us ++ hang a c b ls ++ below ∧ '\n' ∉ a ∧ a.length = c ∧
    Text.ink us.flatten + Text.ink a = i ∧ (low → us ≠ [])

namespace Hung

/-- The last line may change behind what stands firm on it, and lines may follow. -/
theorem edit (h : Hung low (front ++ [t]) i c ls) (hne : ls ≠ []) (hf : ∀ t ∈ ls, Text.Firm t)
    {t' : Text} (hkeep : ∀ r, Text.Firm r → r <+: t → r <+: t') (extra : List Text) :
    Hung low (front ++ t' :: extra) i c ls := by
  obtain ⟨us, a, b, below, heq, hrest⟩ := h
  obtain ⟨init, x, hx, hall⟩ := exists_hang hne hf a c
  rcases List.eq_nil_or_concat below with rfl | ⟨below, u, rfl⟩
  · rw [List.append_nil, hall, ← List.append_assoc] at heq
    obtain ⟨rfl, ht⟩ := List.append_inj' heq rfl
    obtain rfl : t = x ++ b := by simpa using ht
    obtain ⟨b', rfl⟩ := hkeep x hx (List.prefix_append x b)
    exact ⟨us, a, b', extra, by simp [hall], hrest⟩
  · rw [List.concat_eq_append, ← List.append_assoc] at heq
    obtain ⟨rfl, -⟩ := List.append_inj' heq rfl
    exact ⟨us, a, b, below ++ t' :: extra, by simp, hrest⟩

theorem of_blank (h : Hung low (front ++ [t]) i c ls) (hne : ls ≠ []) (hf : ∀ t ∈ ls, Text.Firm t)
    (ht : Text.isBlankText t = true) : Hung low front i c ls := by
  obtain ⟨us, a, b, below, heq, hrest⟩ := h
  obtain ⟨init, x, hx, hall⟩ := exists_hang hne hf a c
  rcases List.eq_nil_or_concat below with rfl | ⟨below, u, rfl⟩
  · rw [List.append_nil, hall, ← List.append_assoc] at heq
    obtain ⟨-, hlast⟩ := List.append_inj' heq rfl
    obtain rfl : t = x ++ b := by simpa using hlast
    obtain ⟨y, d, rfl, hd⟩ := hx.ends
    simp [Text.isBlankText, hd] at ht
  · rw [List.concat_eq_append, ← List.append_assoc] at heq
    obtain ⟨rfl, -⟩ := List.append_inj' heq rfl
    exact ⟨us, a, b, below, rfl, hrest⟩

theorem append (h : Hung low ms i c ls) (extra : List Text) : Hung low (ms ++ extra) i c ls := by
  obtain ⟨us, a, b, below, rfl, hrest⟩ := h
  exact ⟨us, a, b, below ++ extra, by simp, hrest⟩

theorem dropBlank (h : Hung low ms.reverse i c ls) (hne : ls ≠ []) (hf : ∀ t ∈ ls, Text.Firm t) :
    Hung low (Page.dropBlank ms).reverse i c ls := by
  fun_induction Page.dropBlank ms with
  | case1 t u rest hb ih =>
    rw [List.reverse_cons] at h
    exact ih (h.of_blank hne hf hb)
  | case2 => exact h
  | case3 => exact h

theorem draftLines {d : Draft} (h : Hung low d.page.lines i c ls) (hne : ls ≠ [])
    (hf : ∀ t ∈ ls, Text.Firm t) : Hung low d.lines i c ls := by
  have htrim : Hung low d.page.trimmedLines i c ls := by
    have hdrop := dropBlank h hne hf
    unfold Page.trimmedLines
    split
    · rename_i he
      rwa [he] at hdrop
    · rename_i t rest he
      rw [he, List.reverse_cons] at hdrop
      rw [List.reverse_cons]
      exact hdrop.edit hne hf (fun r hr hp => hr.opens_dropEndWhile hp fun _ => id) []
  unfold Draft.lines
  split
  · exact htrim.append _
  · exact htrim

end Hung

end

namespace Page

variable {low : Prop} {p : Page} {i c n : Nat} {t : Text} {ls ms : List Text}

theorem lines_eq (p : Page) : p.lines = p.above.reverse ++ [p.current.reverse] := by
  simp [lines]

theorem keeps_hung (hne : ls ≠ []) (hf : ∀ t ∈ ls, Text.Firm t) :
    Keeps (fun _ => True) fun p => Hung low p.lines i c ls := by
  have hpush : ∀ {p : Page} {t : Text}, Hung low p.lines i c ls →
      Hung low (p.push t).lines i c ls := by
    intro p t h
    rw [lines_eq] at h
    have := h.edit hne hf (fun r _ hr => hr.trans (List.prefix_append _ t)) []
    simpa [lines, push] using this
  have hnewline : ∀ {p : Page}, Hung low p.lines i c ls → Hung low p.newline.lines i c ls := by
    intro p h
    rw [lines_eq] at h
    have := h.edit hne hf (fun r hr hp => hr.opens_dropEndWhile (p := (· == ' ')) hp fun _ hc => by
      obtain rfl := by simpa using hc
      rfl) [[]]
    simpa [lines, newline, Text.dropEndWhile] using this
  refine ⟨fun _ h => hpush h, hnewline, fun {p} n h => ?_⟩
  unfold startLine
  rw [indent_eq_push]
  split
  · rename_i hs
    rw [lines_eq] at h
    -- nothing stands on a blank line
    have hblank : ∀ r, Text.Firm r → r <+: p.current.reverse → r <+: [] := by
      intro r hr hp
      obtain ⟨u, d, rfl, hd⟩ := hr.ends
      have hmem : d ∈ p.current := List.mem_reverse.1 (hp.subset (by simp))
      rw [List.all_eq_true.1 hs d hmem] at hd
      cases hd
    refine hpush ?_
    have := h.edit hne hf hblank []
    simpa [clearLine, hs, lines] using this
  · exact hpush (hnewline h)

theorem Counted.ink_eq (h : p.Counted) : p.ink = Text.ink p.lines.flatten := by
  rw [h, ribbon_eq_ofLines, Ribbon.length_ofLines, Text.ink, List.countP_flatten]
  rfl

theorem keeps_counted : Keeps (fun _ => True) Counted :=
  ⟨fun _ h => h.push _, fun h => h.newline, fun n h => h.startLine n⟩

theorem keeps_neat : Keeps (fun _ => True) Neat :=
  ⟨fun _ h => h, fun h => h.newline, fun n h => h.startLine n⟩

theorem column_eq (p : Page) : p.column = Text.column p.current.reverse := by
  simp [column, Text.column]

theorem lines_pushLines_cons (p : Page) (h : ∀ u ∈ (t :: ms).dropLast, u.getLast? ≠ some ' ')
    (n : Nat) :
    ∃ v, (p.pushLines n (t :: ms)).lines = p.above.reverse ++ v :: under n ms ∧
      Text.ink v = Text.ink p.current.reverse + Text.ink t ∧ (t ≠ [] → v = p.current.reverse ++ t) := by
  by_cases ht : t = []
  · subst ht
    have hpush : p.push [] = p := by simp [push]
    rw [pushLines, hpush]
    cases ms with
    | nil => exact ⟨p.current.reverse, by simp [pushBelow, lines_eq, under], by simp, by simp⟩
    | cons u ms =>
      refine ⟨_, lines_pushBelow (by simp) (fun v hv => h v (by simp [hv])) n, ?_, by simp⟩
      rw [Text.ink_dropEnd, Text.ink_nil, Nat.add_zero]
  · exact ⟨_, lines_pushLines ht h n, Text.ink_append _ _, fun _ => rfl⟩

/-- Lines that are set in stand in the page as they stood among themselves, moved to where the first
of them goes on. -/
theorem hung_pushLines (h : Hung low ms i c ls) (hne : ls ≠ []) (hf : ∀ t ∈ ls, Text.Firm t)
    (hends : ∀ t ∈ ms.dropLast, t.getLast? ≠ some ' ') (hlow : low ∨ '\n' ∉ p.current) :
    Hung low (p.pushLines p.column ms).lines (Text.ink p.lines.flatten + i) (p.column + c) ls := by
  have hfull : ∀ t ∈ ls, t ≠ [] := by
    intro t ht
    obtain ⟨u, d, rfl, -⟩ := (hf t ht).ends
    simp
  obtain ⟨us, a, b, below, rfl, ha, rfl, rfl, hus⟩ := h
  have hpage : Text.ink p.lines.flatten =
      Text.ink p.above.reverse.flatten + Text.ink p.current.reverse := by simp [lines_eq]
  rw [hpage]
  cases us with
  | nil =>
    obtain ⟨t, rest, hrest⟩ := List.exists_cons_of_ne_nil
      (hang_ne_nil (a := a) (c := a.length) (b := b) hne)
    have hmark : '\n' ∉ p.current := hlow.resolve_left fun hl => hus hl rfl
    have hcolumn : p.column = p.current.reverse.length := by
      rw [column_eq, Text.column_eq_length (by simpa using hmark)]
    have ht : t ≠ [] := hang_full hfull a t (by rw [hrest]; simp)
    rw [List.nil_append, hrest, List.cons_append] at hends ⊢
    obtain ⟨v, hlines, -, hv⟩ := lines_pushLines_cons p hends p.column
    refine ⟨p.above.reverse, p.current.reverse ++ a, b, under p.column below, ?_, ?_, ?_, ?_, ?_⟩
    · rw [hlines, hv ht, List.append_assoc]
      congr 1
      exact append_hang hne hfull _ _ (by rw [hrest, List.cons_append])
    · simp [ha, hmark]
    · rw [List.length_append, hcolumn]
    · simp [Nat.add_assoc]
    · exact fun hl => absurd rfl (hus hl)
  | cons u us =>
    rw [List.cons_append, List.cons_append] at hends ⊢
    obtain ⟨v, hlines, hv, -⟩ := lines_pushLines_cons p hends p.column
    refine ⟨p.above.reverse ++ v :: us.map (Text.indented p.column), Text.spaces p.column ++ a, b,
      under p.column below, ?_, ?_, ?_, ?_, by simp⟩
    · have hhang : hang a a.length b ls ++ below ≠ [] := by simp [hang_ne_nil hne]
      rw [hlines, List.append_assoc us, under_append hhang, under_hang hfull]
      simp
    · simp [ha, Text.not_mem_spaces]
    · simp [Text.spaces]
    · simp [hv, Text.ink_map_indented]
      omega

theorem Counted.hung_push (h : p.Counted) (hmark : '\n' ∉ p.current) (hlow : low → p.above ≠ [])
    (t : Text) : Hung low (p.push t).lines p.ink p.column [t] := by
  refine ⟨p.above.reverse, p.current.reverse, [], [], ?_, by simpa using hmark, ?_, ?_,
    by simpa using hlow⟩
  · simp [Page.lines, Page.push, hang]
  · rw [Page.column_eq, Text.column_eq_length (by simpa using hmark)]
  · rw [h.ink_eq]
    simp [Page.lines]

theorem text_stands (h : Hung low p.lines i c ls) (hne : ls ≠ []) (hf : ∀ t ∈ ls, Text.Firm t) :
    p.text.Stands i c ls := by
  obtain ⟨us, a, b, below, hlines, ha, rfl, rfl, -⟩ := h
  obtain ⟨pre, hpre, hink, hcolumn⟩ : ∃ pre, Text.join ['\n'] (us ++ hang a a.length b ls) =
      pre ++ Text.join ('\n' :: Text.spaces a.length) ls ++ b ∧
        Text.ink pre = Text.ink us.flatten + Text.ink a ∧ Text.column pre = a.length := by
    have hhang := join_hang (c := a.length) (b := b) ls hne a
    by_cases hus : us = []
    · exact ⟨a, by rw [hus, List.nil_append, hhang], by simp [hus], Text.column_eq_length ha⟩
    · refine ⟨Text.join ['\n'] us ++ '\n' :: a, ?_, ?_, Text.column_append ha⟩
      · rw [Text.join_append _ hus (hang_ne_nil hne), hhang]
        simp
      · have hbreak : Text.ink ('\n' :: a) = Text.ink a := rfl
        rw [Text.ink_append, Text.ink_join, hbreak]
  obtain ⟨rest, hrest⟩ : ∃ rest, Text.join ['\n'] p.lines =
      pre ++ Text.join ('\n' :: Text.spaces a.length) ls ++ rest := by
    rw [hlines]
    by_cases hbelow : below = []
    · exact ⟨b, by rw [hbelow, List.append_nil, hpre]⟩
    · refine ⟨b ++ '\n' :: Text.join ['\n'] below, ?_⟩
      rw [Text.join_append _ (by simp [hang_ne_nil hne]) hbelow, hpre]
      simp
  have hfirm : Text.Firm (Text.join ('\n' :: Text.spaces a.length) ls) := by
    obtain ⟨init, t, rfl⟩ : ∃ init t, ls = init ++ [t] :=
      (List.eq_nil_or_concat ls).resolve_left hne |>.imp fun _ => .imp fun _ h => by simpa using h
    obtain ⟨w, hw⟩ := Text.join_concat ('\n' :: Text.spaces a.length) init t
    obtain ⟨u, d, rfl, hd⟩ := (hf t (by simp)).ends
    rw [hw]
    simp [Text.Firm, hd]
  refine ⟨pre, Text.trimEnd rest, ?_, hink, hcolumn⟩
  rw [Page.text, hrest, Text.trimEnd, hfirm.dropEndWhile fun _ => id, ← Text.trimEnd]

end Page

namespace Draft

variable {low : Prop} {d inner : Draft} {i c : Nat} {ls : List Text}

theorem counted_writeAll (h : d.page.Counted) (o : Options) (flat : Bool) (items : List Item) :
    (writeAll o flat items d).page.Counted :=
  keeps_writeAll Text.lasting_true items flat Page.keeps_counted (fun _ _ _ => trivial) h

theorem neat_writeAll (o : Options) (flat : Bool) (body : List Item) :
    (writeAll o flat body .blank).page.Neat :=
  keeps_writeAll Text.lasting_true body flat Page.keeps_neat (fun _ _ _ => trivial)
    fun _ h => by simp [Draft.blank, Page.blank] at h

theorem ink_spaceBefore (d : Draft) (t : Token) : (d.spaceBefore t).ink = d.page.ink := by
  unfold Draft.spaceBefore
  split <;> rfl

theorem ink_word (o : Options) (flat : Bool) (t : Token) (d : Draft) :
    (d.word o flat t).page.ink = d.page.ink + Text.ink (t.render o flat d.last) := by
  rw [← ink_spaceBefore d t]
  rfl

theorem ink_start (d inner : Draft) :
    (inner.first.elim d.page fun t => d.spaceBefore t).ink = d.page.ink := by
  cases inner.first with
  | none => rfl
  | some t => exact ink_spaceBefore d t

theorem hung_word {o : Options} {flat : Bool} {t : Token} (hcounted : d.page.Counted)
    (hmark : '\n' ∉ d.page.current) (hlow : low → d.page.above ≠ []) :
    Hung low (d.word o flat t).page.lines d.page.ink (d.spaceBefore t).column
      [t.render o flat d.last] := by
  have hstart : (d.spaceBefore t).Counted :=
    keeps_spaceBefore Page.keeps_counted Text.lasting_true t hcounted
  have habove : (d.spaceBefore t).above = d.page.above := by
    unfold Draft.spaceBefore
    split <;> rfl
  have hcurrent : '\n' ∉ (d.spaceBefore t).current := by
    unfold Draft.spaceBefore
    split
    · simpa [Page.push] using hmark
    · exact hmark
  rw [← ink_spaceBefore d t]
  exact hstart.hung_push hcurrent (by rwa [habove]) _

/-- What stands in a passage stands in the page that it is set in. -/
theorem hung_setIn (h : Hung low inner.page.lines i c ls) (hne : ls ≠ [])
    (hf : ∀ t ∈ ls, Text.Firm t) (hneat : inner.page.Neat) (hcounted : d.page.Counted)
    (hlow : low ∨ '\n' ∉ d.page.current) :
    Hung low (d.setIn inner).page.lines (d.page.ink + i)
      ((inner.first.elim d.page fun t => d.spaceBefore t).column + c) ls := by
  have hstart : (inner.first.elim d.page fun t => d.spaceBefore t).Counted :=
    keeps_start Page.keeps_counted Text.lasting_true inner hcounted
  have hmark : low ∨ '\n' ∉ (inner.first.elim d.page fun t => d.spaceBefore t).current := by
    refine hlow.imp_right fun hn => ?_
    cases inner.first with
    | none => exact hn
    | some t =>
      simp only [Option.elim_some, Draft.spaceBefore]
      split
      · simpa [Page.push] using hn
      · exact hn
  have hset := Page.hung_pushLines (h.draftLines hne hf) hne hf (neat_lines hneat) hmark
  rwa [← hstart.ink_eq, ink_start] at hset

theorem hung_writeAll (h : Hung low d.page.lines i c ls) (hne : ls ≠ []) (hf : ∀ t ∈ ls, Text.Firm t)
    (o : Options) (flat : Bool) (items : List Item) :
    Hung low (writeAll o flat items d).page.lines i c ls :=
  keeps_writeAll Text.lasting_true items flat (Page.keeps_hung hne hf) (fun _ _ _ => trivial) h

theorem text_stands (h : Hung low d.page.lines i c ls) (hne : ls ≠ [])
    (hf : ∀ t ∈ ls, Text.Firm t) : d.text.Stands i c ls := by
  obtain ⟨pre, post, hpage, hpre⟩ := Page.text_stands h hne hf
  refine ⟨pre, post ++ if d.last = some .semicolon then ['\n', '\n'] else [], ?_, hpre⟩
  rw [Draft.text, hpage, List.append_assoc]

end Draft

end SqlLayout

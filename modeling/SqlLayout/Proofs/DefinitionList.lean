import SqlLayout.Proofs.Commas
import SqlLayout.Proofs.Created

/-! The lines of definitions: one for each between the lines of the brackets, with a comma behind
all but the last, and with all that follows the first tokens in one column.
-/

set_option autoImplicit false

namespace SqlLayout

open Item

namespace Text

variable {t : Text} {ls : List Text}

theorem unbroken_append {s t : Text} : Unbroken (s ++ t) ↔ Unbroken s ∧ Unbroken t := by
  simp [Unbroken]

theorem unbroken_spaces (n : Nat) : Unbroken (spaces n) := not_mem_spaces n

theorem Solid.around {s t : Text} (hs : Solid s) (ht : Solid t) (g : Text) :
    Solid (s ++ g ++ t) := by
  obtain ⟨c, a, rfl, hc⟩ := hs.starts
  obtain ⟨b, e, rfl, he⟩ := ht.ends
  refine ⟨by simp [hc], ?_⟩
  rw [List.getLast?_append_of_ne_nil _ (by simp)]
  simp [he]

theorem Solid.firm_append {t : Text} (ht : Solid t) (s : Text) : Firm (s ++ t) := by
  obtain ⟨a, c, rfl, hc⟩ := ht.ends
  simp [Firm, hc]

theorem solid_join (hne : ls ≠ []) (h : ∀ t ∈ ls, Solid t) : Solid (join [' '] ls) := by
  induction ls with
  | nil => exact absurd rfl hne
  | cons t ls ih =>
    cases ls with
    | nil => simpa [join] using h t (by simp)
    | cons u ls =>
      rw [join, List.intercalate_cons_cons]
      exact (h t (by simp)).around (ih (by simp) fun v hv => h v (by simp [hv])) [' ']

end Text

theorem collapse_eq_nil_or_solid (ls : List Text) :
    collapse ls = [] ∨ Text.Solid (collapse ls) := by
  rw [collapse]
  generalize hparts : (ls.map Text.trim).filter (fun t => !t.isEmpty) = parts
  cases parts with
  | nil => exact .inl rfl
  | cons t parts =>
    refine .inr (Text.solid_join (by simp) fun u hu => ?_)
    rw [← hparts] at hu
    obtain ⟨hmem, hne⟩ := List.mem_filter.1 hu
    obtain ⟨v, -, rfl⟩ := List.mem_map.1 hmem
    have hv : Text.isBlankText v = false := by
      by_contra hb
      simp [Text.trim_of_blank (by simpa using hb)] at hne
    obtain ⟨_, _, -, -, -, hsolid⟩ := Text.exists_trim hv
    exact hsolid

/-- The depth of the brackets behind a token, and behind tokens. A bracket that closes none does not
count. -/
def Token.depthBehind (d : Nat) : Token → Nat
  | .openParen => d + 1
  | .closeParen => d - 1
  | _ => d

def depthBehind (d : Nat) (ts : List Token) : Nat := ts.foldl Token.depthBehind d

def Undivided (d : Nat) (ts : List Token) : Prop :=
  ∀ x y, ts = x ++ .comma :: y → 0 < depthBehind d x

inductive Parted : Nat → List Token → List (List Token) → Prop where
  | last {d : Nat} {part : List Token} (hu : Undivided d part) : Parted d part [part]
  | next {d : Nat} {part ts : List Token} {parts : List (List Token)} (hu : Undivided d part)
      (hd : depthBehind d part = 0) (h : Parted 0 ts parts) :
      Parted d (part ++ .comma :: ts) (part :: parts)

theorem Undivided.cons {d : Nat} {t : Token} {ts : List Token} (h : Undivided (t.depthBehind d) ts)
    (ht : t = .comma → 0 < d) : Undivided d (t :: ts) := by
  intro x y hxy
  cases x with
  | nil => exact ht (List.cons.inj hxy).1
  | cons u x =>
    obtain ⟨rfl, hts⟩ := List.cons.inj hxy
    exact h x y hts

theorem Parted.cons {d : Nat} {t : Token} {ts part : List Token} {parts : List (List Token)}
    (h : Parted (t.depthBehind d) ts (part :: parts)) (ht : t = .comma → 0 < d) :
    Parted d (t :: ts) ((t :: part) :: parts) := by
  cases h with
  | last hu => exact .last (hu.cons ht)
  | next hu hd h => exact .next (hu.cons ht) hd h

theorem Token.depthBehind_eq (d : Nat) (t : Token) : t.depthBehind d = (d + t.turn).toNat := by
  cases t <;> simp only [Token.depthBehind, Token.turn] <;> omega

theorem parted_splitFrom (d : Nat) (ts : List Token) :
    Parted d ts ((splitFrom d ts).1 :: (splitFrom d ts).2) := by
  have hnil : ∀ d, Undivided d [] := fun _ x y hxy => by simp at hxy
  induction ts generalizing d with
  | nil => exact .last (hnil d)
  | cons t ts ih =>
    rw [splitFrom_cons]
    split
    · rename_i hcomma
      obtain ⟨rfl, rfl⟩ := hcomma
      exact .next (hnil 0) rfl (ih 0)
    · rename_i hcomma
      rw [← Token.depthBehind_eq]
      exact .cons (ih _) fun ht => Nat.pos_of_ne_zero fun hd => hcomma ⟨ht, hd⟩

theorem parted_splitCommas {ts : List Token} (hne : ts ≠ []) : Parted 0 ts (splitCommas ts) := by
  simpa [splitCommas, hne] using parted_splitFrom 0 ts

def OnLine (o : Options) (ts : List Token) (x : Text) : Prop :=
  Text.Solid x ∧ Text.Unbroken x ∧ ∃ ms cs, Kept ts (ms.map Prod.snd) ∧
    List.Forall₂ (Rendered o) ms cs ∧ Line .line none cs x

/-- The line of a definition: the text of its first token and, if there are others, their text in a
column two behind the width `w` of the first tokens. -/
inductive DefinitionLine (o : Options) (flat : Bool) (w : Nat) : List Token → Text → Prop where
  | empty : DefinitionLine o flat w [] (Text.spaces 2)
  | name {t : Token} (ht : OnLine o [t] (t.render o flat none)) :
      DefinitionLine o flat w [t] (Text.spaces 2 ++ t.render o flat none)
  | rest {t : Token} {ts : List Token} {x : Text} (hne : ts ≠ [])
      (ht : OnLine o [t] (t.render o flat none)) (hw : (t.render o flat none).length ≤ w)
      (hx : OnLine o ts x) :
      DefinitionLine o flat w (t :: ts) (Text.spaces 2 ++ t.render o flat none ++
        Text.spaces (w + 2 - (t.render o flat none).length) ++ x)

/-- A line for each definition, but none for an empty one at the end. -/
inductive DefinitionLines (o : Options) (flat : Bool) (w : Nat) :
    List (List Token) → List Text → Prop where
  | empty : DefinitionLines o flat w [[]] []
  | last {part : List Token} {line : Text} (hne : part ≠ [])
      (h : DefinitionLine o flat w part line) : DefinitionLines o flat w [part] [line]
  | next {part : List Token} {parts : List (List Token)} {line : Text} {lines : List Text}
      (h : DefinitionLine o flat w part line) (hrest : DefinitionLines o flat w parts lines) :
      DefinitionLines o flat w (part :: parts) ((line ++ [',']) :: lines)

def nameWidth (o : Options) (flat : Bool) (parts : List (List Token)) : Nat :=
  (parts.map fun part => part.head?.elim 0 fun t => (t.render o flat none).length).foldl max 0

section

variable {o : Options} {flat : Bool} {w : Nat} {part : List Token} {parts : List (List Token)}
  {line : Text} {lines : List Text}

theorem DefinitionLine.unbroken (h : DefinitionLine o flat w part line) : Text.Unbroken line := by
  cases h with
  | empty => exact Text.unbroken_spaces 2
  | name ht => exact Text.unbroken_append.2 ⟨Text.unbroken_spaces 2, ht.2.1⟩
  | rest _ ht _ hx =>
    simp only [Text.unbroken_append]
    exact ⟨⟨⟨Text.unbroken_spaces 2, ht.2.1⟩, Text.unbroken_spaces _⟩, hx.2.1⟩

theorem DefinitionLine.firm (h : DefinitionLine o flat w part line) (hne : part ≠ []) :
    Text.Firm line := by
  cases h with
  | empty => exact absurd rfl hne
  | name ht => exact ht.1.firm_append _
  | rest _ _ _ hx => exact hx.1.firm_append _

theorem DefinitionLines.unbroken (h : DefinitionLines o flat w parts lines) :
    ∀ l ∈ lines, Text.Unbroken l := by
  induction h with
  | empty => simp
  | last _ h => simpa using h.unbroken
  | next h _ ih =>
    exact List.forall_mem_cons.2
      ⟨Text.unbroken_append.2 ⟨h.unbroken, by simp [Text.Unbroken]⟩, ih⟩

theorem DefinitionLines.firm (h : DefinitionLines o flat w parts lines) :
    ∀ l ∈ lines, Text.Firm l := by
  induction h with
  | empty => simp
  | last hne h => simpa using h.firm hne
  | next _ _ ih => exact List.forall_mem_cons.2 ⟨by simp [Text.Firm, Text.isBlank], ih⟩

theorem DefinitionLines.length (h : DefinitionLines o flat w parts lines) :
    lines.length = if parts.getLast? = some [] then parts.length - 1 else parts.length := by
  induction h with
  | empty => rfl
  | last hne => simp [hne]
  | @next part parts line lines _ hrest ih =>
    obtain ⟨next, parts, rfl⟩ := List.exists_cons_of_ne_nil (l := parts) (by
      rintro rfl
      cases hrest)
    rw [List.length_cons, ih, List.getLast?_cons_cons]
    split <;> simp

theorem onLine_token {t : Token} (hs : Text.Solid (t.render o flat none))
    (hu : Text.Unbroken (t.render o flat none)) : OnLine o [t] (t.render o flat none) :=
  ⟨hs, hu, [(flat, t)], [(t, t.render o flat none)], .all [t], .cons ⟨rfl, none, rfl⟩ .nil,
    by simpa [inked_of_solid, hs] using line_solid (R := .line) (c := (t, t.render o flat none)) hs⟩

theorem collapse_word {t : Token} (ht : t.isRemark = false)
    (hs : Text.Solid (t.render o flat none)) :
    collapse (Draft.blank.word o flat t).lines = t.render o flat none := by
  have hend : Text.trimEnd (t.render o flat none) = t.render o flat none := by
    simpa [Text.trimEnd, Text.dropEndWhile] using
      hs.dropEndWhile (p := Text.isBlank) (fun _ => id) [] []
  have hlines : (Draft.blank.word o flat t).page.trimmedLines = [t.render o flat none] := by
    simp [Draft.word, Draft.blank, Draft.spaceBefore, needsSpace, Page.blank, Page.push,
      Page.trimmedLines, Page.dropBlank, hend]
  have hne : t.render o flat none ≠ [] := by
    obtain ⟨c, a, hr, -⟩ := hs.starts
    simp [hr]
  have hword : (Draft.blank.word o flat t).lines = [t.render o flat none] := by
    rw [← hlines, Draft.lines, show (Draft.blank.word o flat t).last = some t from rfl]
    cases t <;> first | rfl | cases ht
  simp [hword, collapse, hs.trim, hne, Text.join]

theorem onLine_collapse {ts : List Token} {items : List Item} (hsane : Sane ts items)
    (hne : allTokens items ≠ []) (hremark : ∀ t ∈ ts, t.isRemark = false)
    (hr : ∀ m ∈ allMarked flat items, ∀ prev,
      Text.Solid (m.2.render o m.1 prev) ∧ Text.Unbroken (m.2.render o m.1 prev)) :
    OnLine o ts (collapse (writeAll o flat items .blank).lines) := by
  have hadmits : Rule.line.Admits o (allMarked flat items) :=
    ⟨.inr (.inl rfl), fun m hm prev => Rule.takes_of_solid (hr m hm prev).1⟩
  obtain ⟨cs, hcs, hshows⟩ := writeAll_shows items flat hsane.proper hadmits hadmits.nil_fits
    Draft.shows_blank
  rw [List.nil_append] at hshows
  have hfits := hadmits.fits hcs
  have hmarked : ∀ m ∈ allMarked flat items, m.2.isRemark = false := fun m hm =>
    hremark m.2 (hsane.mem_of_marked flat hm)
  have hline : Line .line none cs (collapse (writeAll o flat items .blank).lines) := by
    have hcollapse := (hshows.lines hfits).rows.collapse
      (Draft.open_of_fits hfits (no_remark_of_rendered hcs hmarked))
    rwa [inked_of_solid fun c hc => (hfits.takes c hc).1 rfl] at hcollapse
  have hsolid := (collapse_eq_nil_or_solid (writeAll o flat items .blank).lines).resolve_left
    fun hnil => by
      obtain rfl := hline.nil_of_blank (by simp [hnil, Text.isBlankText])
      rw [← map_allMarked flat, List.forall₂_nil_right_iff.1 hcs] at hne
      exact hne rfl
  have heach := keeps_writeAll Text.lasting_unbroken items flat
    (Page.keeps_each Text.lasting_unbroken) (fun m hm prev => (hr m hm prev).2)
    (Draft.each_blank Text.lasting_unbroken)
  have hunbroken := Text.lasting_unbroken.collapse (Draft.each_lines Text.lasting_unbroken heach)
  exact ⟨hsolid, hunbroken, _, cs, by simpa [map_allMarked] using hsane.kept, hcs, hline⟩

inductive Definition.Reads (o : Options) (flat : Bool) : List Token → Definition → Prop where
  | empty : Reads o flat [] ⟨[], []⟩
  | name {t : Token} (ht : OnLine o [t] (t.render o flat none)) :
      Reads o flat [t] ⟨t.render o flat none, []⟩
  | rest {t : Token} {ts : List Token} {x : Text} (hne : ts ≠ [])
      (ht : OnLine o [t] (t.render o flat none)) (hx : OnLine o ts x) :
      Reads o flat (t :: ts) ⟨t.render o flat none, x⟩

theorem Arrange.exists_definition (limit room : Nat) (t : Token) (ts : List Token) :
    ∃ more, definition (below limit room) (t :: ts) = .word t :: more ∧ Sane ts more ∧
      (ts = [] → more = []) ∧ (ts ≠ [] → allTokens more ≠ []) := by
  simp only [definition]
  split
  · rename_i body hb
    refine ⟨body, rfl, nestedSane_below limit room (by simp [Starts])
      (by simp [Ending, Place.isOpen]) hb, ?_, fun hts hnil => ?_⟩
    · rintro rfl
      cases room with
      | zero => cases hb
      | succ room =>
        rw [below, arrange_eq, run] at hb
        exact Except.ok.inj hb.symm
    · obtain ⟨u, us, rfl⟩ := List.exists_cons_of_ne_nil hts
      have hhead := (leads_inline hb).2
      rw [hnil] at hhead
      cases hhead
  · exact ⟨_, rfl, .echo 0 ts, fun h => by rw [h]; rfl, fun h => by rwa [allTokens_echo]⟩

theorem reads_definition {limit room : Nat} (hremark : ∀ t ∈ part, t.isRemark = false)
    (hr : ∀ m ∈ allMarked flat (Arrange.definition (Arrange.below limit room) part), ∀ prev,
      Text.Solid (m.2.render o m.1 prev) ∧ Text.Unbroken (m.2.render o m.1 prev)) :
    ∃ d, readDefinitions o flat [Arrange.definition (Arrange.below limit room) part] = [d] ∧
      Definition.Reads o flat part d := by
  cases part with
  | nil => exact ⟨_, rfl, .empty⟩
  | cons t ts =>
    obtain ⟨more, hmore, hsane, hnone, hsome⟩ := Arrange.exists_definition limit room t ts
    rw [hmore] at hr ⊢
    simp only [allMarked, marked, List.singleton_append, List.mem_cons, forall_eq_or_imp] at hr
    simp only [List.mem_cons, forall_eq_or_imp] at hremark
    have ht := onLine_token (hr.1 none).1 (hr.1 none).2
    have hname := collapse_word hremark.1 (hr.1 none).1
    refine ⟨_, rfl, ?_⟩
    rw [Item.write, hname]
    by_cases hts : ts = []
    · obtain rfl := hts
      rw [hnone rfl]
      exact .name ht
    · exact .rest hts ht (onLine_collapse hsane (hsome hts) hremark.2 hr.2)

theorem readDefinitions_cons (part : List Item) (parts : List (List Item)) :
    readDefinitions o flat (part :: parts) =
      readDefinitions o flat [part] ++ readDefinitions o flat parts := by
  cases part <;> rfl

theorem forall₂_reads {limit room : Nat} (parts : List (List Token))
    (hremark : ∀ part ∈ parts, ∀ t ∈ part, t.isRemark = false)
    (hr : ∀ part ∈ parts, ∀ m ∈ allMarked flat (Arrange.definition (Arrange.below limit room) part),
      ∀ prev, Text.Solid (m.2.render o m.1 prev) ∧ Text.Unbroken (m.2.render o m.1 prev)) :
    List.Forall₂ (Definition.Reads o flat) parts (readDefinitions o flat
      (parts.map (Arrange.definition (Arrange.below limit room)))) := by
  induction parts with
  | nil => exact .nil
  | cons part parts ih =>
    obtain ⟨d, hd, hreads⟩ := reads_definition (hremark part (by simp)) (hr part (by simp))
    have hrest := ih (fun q hq => hremark q (by simp [hq])) fun q hq => hr q (by simp [hq])
    rw [List.map_cons, readDefinitions_cons, hd]
    exact .cons hreads hrest

theorem width_of_reads {defs : List Definition}
    (h : List.Forall₂ (Definition.Reads o flat) parts defs) :
    Definition.width defs = nameWidth o flat parts + 2 := by
  have hlengths : defs.map (fun d => d.name.length) = parts.map fun part =>
      part.head?.elim 0 fun t => (t.render o flat none).length := by
    induction h with
    | nil => rfl
    | cons hd _ ih =>
      rw [List.map_cons, List.map_cons, ih]
      cases hd <;> rfl
  rw [Definition.width, hlengths, nameWidth]

theorem Definition.Reads.definitionLine {d : Definition} (h : Reads o flat part d)
    (hw : d.name.length ≤ w) : DefinitionLine o flat w part (d.line 2 (w + 2)) := by
  cases h with
  | empty => exact .empty
  | name ht => simpa [Definition.line] using DefinitionLine.name (w := w) ht
  | @rest t ts x hne ht hx =>
    have hx' : x ≠ [] := by
      obtain ⟨c, a, hc, -⟩ := hx.1.starts
      simp [hc]
    simpa [Definition.line, hx'] using DefinitionLine.rest hne ht hw hx

/-- The lines of definitions that were read. Of an empty one at the end only blanks are left. -/
theorem lines_of_reads {defs : List Definition}
    (h : List.Forall₂ (Definition.Reads o flat) parts defs) (hne : parts ≠ [])
    (hw : ∀ d ∈ defs, d.name.length ≤ w) :
    let written := Definition.withCommas (defs.map (Definition.line 2 (w + 2)))
    ∃ lines, DefinitionLines o flat w parts lines ∧
      (written = lines ∨ written = lines ++ [Text.spaces 2]) := by
  intro written
  induction h with
  | nil => exact absurd rfl hne
  | @cons part d parts defs hd hrest ih =>
    have hline := hd.definitionLine (hw d (by simp))
    cases hrest with
    | nil =>
      by_cases hpart : part = []
      · subst hpart
        cases hd
        exact ⟨[], .empty, .inr rfl⟩
      · exact ⟨_, .last hpart hline, .inl rfl⟩
    | @cons next e parts defs he hrest =>
      obtain ⟨lines, hlines, heq⟩ := ih (by simp) fun e he => hw e (by simp [he])
      refine ⟨_, .next hline hlines, heq.imp (fun heq => ?_) fun heq => ?_⟩
      · rw [← heq]
        rfl
      · rw [List.cons_append, ← heq]
        rfl

end

namespace Page

variable {p : Page} {init : List Text} {t : Text}

theorem lines_startLine_firm (h : p.lines = init ++ [t]) (ht : Text.Firm t) :
    (p.startLine 0).lines = init ++ [t, []] := by
  rw [lines_eq] at h
  obtain ⟨habove, hcurrent⟩ := List.append_inj' h rfl
  have hcurrent : p.current.reverse = t := by simpa using hcurrent
  have hstart : p.atLineStart = false := by
    obtain ⟨a, c, rfl, hc⟩ := ht.ends
    have hmem : c ∈ p.current := List.mem_reverse.1 (by simp [hcurrent])
    exact List.all_eq_false.2 ⟨c, hmem, by simp [hc]⟩
  have hend : Text.dropEndWhile (· == ' ') t = t := by
    simpa [Text.dropEndWhile] using ht.dropEndWhile (p := (· == ' ')) (fun c hc => by
      obtain rfl : c = ' ' := by simpa using hc
      rfl) [] []
  rw [Text.dropEndWhile, ← hcurrent, List.reverse_reverse] at hend
  simp [startLine, hstart, newline, indent, lines, Text.spaces, hend, habove, ← hcurrent]

theorem lines_startLine_blank (h : p.lines = init ++ [t]) (ht : Text.isBlankText t = true) :
    (p.startLine 0).lines = init ++ [[]] := by
  rw [lines_eq] at h
  obtain ⟨habove, hcurrent⟩ := List.append_inj' h rfl
  have hcurrent : p.current.reverse = t := by simpa using hcurrent
  have hstart : p.atLineStart = true := by
    rw [← hcurrent] at ht
    simpa [atLineStart, Text.isBlankText] using ht
  simp [startLine, hstart, clearLine, indent, lines, Text.spaces, habove]

end Page

theorem hang_nil (ls : List Text) : hang [] 0 [] ls = ls := by
  induction ls with
  | nil => rfl
  | cons t ls ih =>
    cases ls with
    | nil => simp [hang]
    | cons u ls => simpa [hang, Text.spaces] using ih

theorem under_zero (ls : List Text) : under 0 ls = ls := by
  induction ls with
  | nil => rfl
  | cons t ls ih =>
    cases ls with
    | nil => simp [under, Text.spaces]
    | cons u ls =>
      rw [under_cons (by simp), ih]
      cases t <;> simp [Text.spaces]

theorem Page.lines_push_of_blank {p : Page} {init : List Text} (h : p.lines = init ++ [[]])
    (t : Text) : (p.push t).lines = init ++ [t] := by
  rw [lines_eq] at h
  obtain ⟨habove, hcurrent⟩ := List.append_inj' h rfl
  have hcurrent : p.current = [] := by simpa using hcurrent
  simp [lines, push, habove, hcurrent]

section

variable {o : Options} {flat : Bool} {d : Draft} {defs : List Definition} {ls : List Text}

/-- The lines of definitions on the page, up to the line of the closing bracket. -/
theorem lines_filled {p : Page} {init : List Text} (hp : p.lines = init ++ [['(']])
    (hf : ∀ t ∈ ls, Text.Firm t)
    (hls : Definition.align defs 2 = ls ∨ Definition.align defs 2 = ls ++ [Text.spaces 2]) :
    ((p.pushBelow 0 (Definition.align defs 2)).startLine 0).lines =
      init ++ ([['(']] ++ ls) ++ [[]] := by
  have hspace : ∀ t ∈ ls, t.getLast? ≠ some ' ' := by
    intro t ht hs
    obtain ⟨a, c, rfl, hc⟩ := (hf t ht).ends
    obtain rfl : c = ' ' := by simpa using hs
    cases hc
  have hbelow : (p.pushBelow 0 (Definition.align defs 2)).lines =
      init ++ ([['(']] ++ Definition.align defs 2) := by
    by_cases hnil : Definition.align defs 2 = []
    · simpa [hnil, Page.pushBelow] using hp
    · have hdrop : ∀ t ∈ (Definition.align defs 2).dropLast, t.getLast? ≠ some ' ' := by
        rcases hls with hls | hls
        · rw [hls]
          exact fun t ht => hspace t (List.dropLast_subset _ ht)
        · rw [hls, List.dropLast_concat]
          exact hspace
      rw [Page.lines_eq] at hp
      obtain ⟨habove, hcurrent⟩ := List.append_inj' hp rfl
      have hcurrent : p.current.reverse = ['('] := by simpa using hcurrent
      rw [Page.lines_pushBelow hnil hdrop, under_zero, habove, hcurrent]
      rfl
  -- The blanks of an empty definition at the end are a line that the closing bracket uses again.
  rcases hls with hls | hls
  · obtain ⟨front, t, ht⟩ := (List.eq_nil_or_concat ([['(']] ++ ls)).resolve_left (by simp)
    have hfirm : Text.Firm t := by
      have hmem : t ∈ [['(']] ++ ls := by simp [ht]
      rcases List.mem_append.1 hmem with hmem | hmem
      · exact Text.firm_mark rfl t hmem
      · exact hf t hmem
    rw [List.concat_eq_append] at ht
    rw [hls] at hbelow ⊢
    rw [ht, ← List.append_assoc] at hbelow
    rw [Page.lines_startLine_firm hbelow hfirm, ht]
    simp
  · rw [hls] at hbelow ⊢
    rw [← List.append_assoc, ← List.append_assoc] at hbelow
    rw [Page.lines_startLine_blank hbelow rfl, List.append_assoc init]

theorem hung_define (o : Options) (flat : Bool) (hcounted : d.page.Counted) (hink : 0 < d.page.ink)
    (hf : ∀ t ∈ ls, Text.Firm t)
    (hls : Definition.align defs 2 = ls ∨ Definition.align defs 2 = ls ++ [Text.spaces 2]) :
    Hung True (d.define o flat defs).page.lines d.page.ink 0 ([['(']] ++ ls ++ [[')']]) := by
  have hspace : ∀ (e : Draft) (t : Token), (e.startLine 0).spaceBefore t = (e.startLine 0).page :=
    fun e => Draft.spaceBefore_of_atLineStart (Page.atLineStart_startLine _ _)
  have hstart : (d.startLine 0).page.lines = (d.startLine 0).page.above.reverse ++ [[]] := by
    rw [Page.lines_eq, show (d.startLine 0).page.current = [] from Page.current_startLine _ 0]
    rfl
  have hopened : ((d.startLine 0).word o flat .openParen).page.lines =
      (d.startLine 0).page.above.reverse ++ [['(']] := by
    rw [Draft.word, hspace]
    exact Page.lines_push_of_blank hstart ['(']
  have hpage : (d.define o flat defs).page.lines =
      (d.startLine 0).page.above.reverse ++ ([['(']] ++ ls) ++ [[')']] := by
    rw [Draft.define, Draft.word, hspace]
    exact Page.lines_push_of_blank (lines_filled hopened hf hls) [')']
  have hcount : Text.ink (d.startLine 0).page.above.reverse.flatten = d.page.ink := by
    have hstartLine : (d.startLine 0).page.Counted := hcounted.startLine 0
    rw [← show (d.startLine 0).page.ink = d.page.ink from Page.ink_startLine _ _,
      hstartLine.ink_eq, hstart]
    simp
  refine ⟨(d.startLine 0).page.above.reverse, [], [], [], ?_, by simp, rfl, ?_, fun _ habove => ?_⟩
  · rw [hpage, hang_nil]
    simp
  · simpa using hcount
  · rw [habove] at hcount
    exact absurd hcount (by simpa using hink.ne)

end

open Passage in
/-- Definitions stand on lines of their own between the lines of their brackets, under each other and
with all that follows their first tokens in one column, unless they are in a query on one line or in
another definition. -/
theorem formatTokens_definitions (o : Options) (tokens : List Token) (source out : Text)
    (items : List Item) (hcommand : isCommand (solid tokens) = false)
    (hitems : arrange o.nestingLimit o.nestingLimit .statement (solid tokens) = .ok items)
    (hout : formatTokens o tokens source = .ok out) {room indent n : Nat} {flat : Bool}
    {before inner : List Token} {rest : List Item} {d : Draft} (hne : inner ≠ [])
    (hcomment : inner.any Token.isComment = false)
    (hr : ∀ m ∈ allMarked flat
      (Arrange.bracket (Arrange.below o.nestingLimit room) .columns indent before inner), ∀ prev,
        Text.Solid (m.2.render o m.1 prev) ∧ Text.Unbroken (m.2.render o m.1 prev))
    (hsite : Reaches o (ofItems items) ⟨flat,
      Arrange.bracket (Arrange.below o.nestingLimit room) .columns indent before inner ++ rest,
        d⟩ n) :
    let parts := splitCommas inner
    Parted 0 inner parts ∧ ∃ c lines, DefinitionLines o flat (nameWidth o flat parts) parts lines ∧
      (∀ l ∈ lines, Text.Unbroken l) ∧
      out.Stands (n + d.page.ink) c ([['(']] ++ lines ++ [[')']]) := by
  intro parts
  have hbracket : Arrange.bracket (Arrange.below o.nestingLimit room) .columns indent before inner =
      [.definitions (parts.map (Arrange.definition (Arrange.below o.nestingLimit room)))] := by
    simp [parts, Arrange.bracket, hne, hcomment]
  rw [hbracket] at hr hsite
  have hfair : (ofItems items).Fair o True := .blank (.inl trivial)
  have hsplit : parts ≠ [] := by
    simp [parts, splitCommas, hne]
  have hremark : ∀ part ∈ parts, ∀ t ∈ part, t.isRemark = false := by
    intro part hpart t ht
    have hmem := (infix_of_mem_splitCommas hpart).mem ht
    have hplain : t.isComment = false := by
      simpa using List.any_eq_false.1 hcomment t hmem
    cases t <;> first | rfl | cases hplain
  have hreads : List.Forall₂ (Definition.Reads o flat) parts (readDefinitions o flat
      (parts.map (Arrange.definition (Arrange.below o.nestingLimit room)))) :=
    forall₂_reads parts hremark fun part hpart m hm => hr m (by
      simp [allMarked, marked, allMarked_subset flat (List.mem_map_of_mem hpart) hm])
  obtain ⟨lines, hlines, halign⟩ := lines_of_reads hreads hsplit (w := nameWidth o flat parts)
    fun e he => by
      have hwidth := Definition.length_le_width he
      rw [width_of_reads hreads] at hwidth
      omega
  rw [← width_of_reads hreads] at halign
  have hpage := hung_define o flat (hsite.fair hfair).counted
    (hsite.behind (behind_arrange hitems)).inked hlines.firm halign
  have hfirm : ∀ t ∈ [['(']] ++ lines ++ [[')']], Text.Firm t := by
    intro t ht
    rcases List.mem_append.1 ht with ht | ht
    · rcases List.mem_append.1 ht with ht | ht
      · exact Text.firm_mark rfl t ht
      · exact hlines.firm t ht
    · exact Text.firm_mark rfl t ht
  obtain ⟨c, hstands⟩ := hsite.stands hfair
  refine ⟨parted_splitCommas hne, c + 0, lines, hlines, hlines.unbroken, ?_⟩
  rw [text_of_formatTokens hcommand hitems hout]
  refine hstands (by simp) hfirm ?_
  rw [written, List.singleton_append, writeAll, write_definitions]
  exact Draft.hung_writeAll hpage (by simp) hfirm o flat rest

def definitionTokens : List Token :=
  [.identifier ['a'], .identifier ['x'], .comma, .identifier ['b', 'c'], .keyword .CASE,
    .keyword .WHEN, .identifier ['y'], .keyword .THEN, .identifier ['z'], .keyword .END]

def createTokens : List Token :=
  [.keyword .CREATE, .keyword .TABLE, .identifier ['t'], .openParen] ++ definitionTokens ++
    [.closeParen]

theorem arrange_createTokens : arrange 64 64 .statement createTokens =
    .ok (.word (.keyword .CREATE) :: .word (.keyword .TABLE) :: .word (.identifier ['t']) ::
      (Arrange.bracket (Arrange.below 64 64) .columns 0 [.identifier ['t'], .keyword .TABLE,
        .keyword .CREATE] definitionTokens ++ [])) := by
  have hcreate : Place.statement.action [] (.keyword .CREATE) (.keyword .TABLE ::
      .identifier ['t'] :: .openParen :: (definitionTokens ++ [.closeParen])) =
        .write [.word (.keyword .CREATE)] .create := rfl
  have htable : Place.create.action [.keyword .CREATE] (.keyword .TABLE) (.identifier ['t'] ::
      .openParen :: (definitionTokens ++ [.closeParen])) =
        .write [.word (.keyword .TABLE)] .createObject := rfl
  have hname : Place.createObject.action [.keyword .TABLE, .keyword .CREATE] (.identifier ['t'])
      (.openParen :: (definitionTokens ++ [.closeParen])) =
        .write [.word (.identifier ['t'])] .createObject := rfl
  have hopen : Place.createObject.action [.identifier ['t'], .keyword .TABLE, .keyword .CREATE]
      .openParen (definitionTokens ++ [.closeParen]) = .openBracket .columns .statement := rfl
  have hgroup : group 0 (definitionTokens ++ [.closeParen]) = .ok (definitionTokens, []) := by rfl
  rw [Arrange.arrange_eq]
  simp only [createTokens, List.cons_append, List.nil_append]
  rw [Arrange.run_write hcreate, Arrange.run_write htable, Arrange.run_write hname,
    Arrange.run_openBracket hopen hgroup, Arrange.run]
  rfl

theorem formatTokens_definitions_case : ∃ out c lines, formatTokens {} createTokens [] = .ok out ∧
    lines.length = 2 ∧ (∀ l ∈ lines, Text.Unbroken l) ∧
      out.Stands 12 c ([['(']] ++ lines ++ [[')']]) := by
  have hout : formatTokens {} createTokens [] =
      .ok "CREATE TABLE t\n(\n  a   x,\n  bc  CASE WHEN y THEN z END\n)".toList := by
    decide +kernel
  have hreach : Passage.Reaches {} (.ofItems (.word (.keyword .CREATE) :: .word (.keyword .TABLE) ::
      .word (.identifier ['t']) :: (Arrange.bracket (Arrange.below 64 64) .columns 0
        [.identifier ['t'], .keyword .TABLE, .keyword .CREATE] definitionTokens ++ [])))
          ⟨false, _, _⟩ 0 := .next (.next (.next .here))
  have hplain : ∀ t ∈ createTokens,
      (t.Tidy ∧ t.isGap = false) ∧ '\n' ∉ t.render {} false none := by decide +kernel
  have hr : ∀ m ∈ allMarked false (Arrange.bracket (Arrange.below 64 64) .columns 0
      [.identifier ['t'], .keyword .TABLE, .keyword .CREATE] definitionTokens), ∀ prev,
        Text.Solid (m.2.render {} m.1 prev) ∧ Text.Unbroken (m.2.render {} m.1 prev) := by
    intro m hm
    have hmem : m.2 ∈ createTokens :=
      (sane_arrange arrange_createTokens).mem_of_marked false (by simp [allMarked, hm])
    exact Token.solid_unbroken_render (hplain m.2 hmem) m.1
  obtain ⟨-, c, lines, hlines, hwhole, hstands⟩ := formatTokens_definitions {} createTokens [] _ _
    rfl arrange_createTokens hout (by simp [definitionTokens]) rfl hr hreach
  refine ⟨_, c, lines, hout, ?_, hwhole, hstands⟩
  rw [hlines.length]
  rfl

/-- The writing of the first passage comes to the second, also by way of a definition, but not by way
of a query on one line. -/
inductive Passage.Meets (o : Options) : Passage → Passage → Prop where
  | reached {p q : Passage} {n : Nat} (h : Reaches o p q n) : Meets o p q
  | defined {p q : Passage} {flat : Bool} {name : Item} {more rest : List Item}
      {parts : List (List Item)} {d : Draft} {n : Nat}
      (h : Reaches o p ⟨flat, .definitions parts :: rest, d⟩ n) (hpart : name :: more ∈ parts)
      (hmore : Meets o ⟨flat, more, .blank⟩ q) : Meets o p q

def innerDefinitions : List Token :=
  [.identifier ['b'], .identifier ['x'], .comma, .identifier ['c', 'c'], .identifier ['y']]

def innerTokens : List Token :=
  [.keyword .SELECT, .number ['1'], .semicolon, .keyword .CREATE, .keyword .TABLE,
    .identifier ['u'], .openParen] ++ innerDefinitions ++ [.closeParen]

def outerTokens : List Token :=
  [.keyword .CREATE, .keyword .TABLE, .identifier ['t'], .openParen, .identifier ['a'],
    .identifier ['x'], .keyword .DEFAULT, .openParen] ++ innerTokens ++
    [.closeParen, .comma, .identifier ['d'], .identifier ['x'], .closeParen]

def innerList : Item :=
  .definitions [[.word (.identifier ['b']), .word (.identifier ['x'])],
    [.word (.identifier ['c', 'c']), .word (.identifier ['y'])]]

def innerItems : List Item :=
  [.startLine 0, .word (.keyword .SELECT), .word (.number ['1']), .word .semicolon, .newline,
    .newline, .word (.keyword .CREATE), .word (.keyword .TABLE), .word (.identifier ['u']),
    innerList]

def outerItems : List Item :=
  [.word (.keyword .CREATE), .word (.keyword .TABLE), .word (.identifier ['t']),
    .definitions
      [[.word (.identifier ['a']), .word (.identifier ['x']), .word (.keyword .DEFAULT),
          .word .openParen, .query innerItems, .word .closeParen],
        [.word (.identifier ['d']), .word (.identifier ['x'])]]]

theorem arrange_outerTokens : arrange 64 64 .statement outerTokens = .ok outerItems := by
  with_unfolding_all rfl

theorem bracket_innerDefinitions :
    Arrange.bracket (Arrange.below 64 64) .columns 0 [] innerDefinitions = [innerList] := by
  with_unfolding_all rfl

theorem meets_innerList : ∃ d, Passage.Meets { subselectLimit := 0 } (.ofItems outerItems)
    ⟨false, [innerList], d⟩ := by
  obtain ⟨d, hinner⟩ : ∃ d, Passage.Reaches { subselectLimit := 0 } (.ofItems innerItems)
      ⟨false, [innerList], d⟩ 0 :=
    ⟨_, .next (.next (.next (.next (.next (.next (.next (.next (.next .here))))))))⟩
  exact ⟨d, .defined (.next (.next (.next .here))) (.head _)
    (.reached (.next (.next (.next (.query rfl hinner)))))⟩

/-- On lines of their own, the first of these definitions starts below the bracket. -/
theorem infix_of_stands_inner {o : Options} {w i c : Nat} {lines : List Text} {out : Text}
    (hlines : DefinitionLines o false w (splitCommas innerDefinitions) lines)
    (hname : (Token.identifier ['b']).render o false none = ['b'])
    (hout : out.Stands i c ([['(']] ++ lines ++ [[')']])) :
    ['(', '\n', 'b'] <:+: out.filter (· != ' ') := by
  obtain ⟨pre, post, rfl, -⟩ := hout
  have hspaces : ∀ n, (Text.spaces n).filter (· != ' ') = [] := fun n => by simp [Text.spaces]
  obtain ⟨t, rest, rfl⟩ : ∃ t rest, lines = (Text.spaces 2 ++ ['b'] ++ t) :: rest := by
    cases hlines with
    | @next _ _ _ rest h _ =>
      cases h with
      | @rest _ _ x _ _ _ _ =>
        rw [hname]
        exact ⟨Text.spaces (w + 2 - 1) ++ x ++ [','], rest, by simp⟩
  simp only [List.cons_append, List.nil_append, Text.join_cons, List.flatMap_cons,
    List.append_assoc, List.filter_append, List.filter_cons, hspaces]
  exact List.infix_append' _ _ _

/-- Definitions in another definition are on its line, also where queries are not on one line. -/
theorem inner_definitions_on_one_line : ¬∀ (o : Options) (tokens : List Token) (source out : Text)
    (items : List Item) (room indent : Nat) (flat : Bool) (before inner : List Token)
    (rest : List Item) (d : Draft), isCommand (solid tokens) = false →
      arrange o.nestingLimit o.nestingLimit .statement (solid tokens) = .ok items →
      formatTokens o tokens source = .ok out → inner ≠ [] → inner.any Token.isComment = false →
      (∀ m ∈ allMarked flat
        (Arrange.bracket (Arrange.below o.nestingLimit room) .columns indent before inner), ∀ prev,
          Text.Solid (m.2.render o m.1 prev) ∧ Text.Unbroken (m.2.render o m.1 prev)) →
      Passage.Meets o (.ofItems items) ⟨flat,
        Arrange.bracket (Arrange.below o.nestingLimit room) .columns indent before inner ++ rest,
          d⟩ →
      ∃ i c lines, DefinitionLines o flat (nameWidth o flat (splitCommas inner))
        (splitCommas inner) lines ∧ out.Stands i c ([['(']] ++ lines ++ [[')']]) := by
  intro hall
  have hout : formatTokens { subselectLimit := 0 } outerTokens [] =
      .ok ("CREATE TABLE t\n(\n  a  x DEFAULT (SELECT 1; CREATE TABLE u ( b   x, cc  y )),\n" ++
        "  d  x\n)").toList := by
    decide +kernel
  have hplain : ∀ m ∈ allMarked false
      (Arrange.bracket (Arrange.below 64 64) .columns 0 [] innerDefinitions),
        (m.2.Tidy ∧ m.2.isGap = false) ∧ '\n' ∉ m.2.render { subselectLimit := 0 } false none := by
    rw [bracket_innerDefinitions]
    decide +kernel
  have hr : ∀ m ∈ allMarked false
      (Arrange.bracket (Arrange.below 64 64) .columns 0 [] innerDefinitions), ∀ prev,
        Text.Solid (m.2.render { subselectLimit := 0 } m.1 prev) ∧
          Text.Unbroken (m.2.render { subselectLimit := 0 } m.1 prev) :=
    fun m hm => Token.solid_unbroken_render (hplain m hm) m.1
  obtain ⟨d, hmeets⟩ := meets_innerList
  rw [← bracket_innerDefinitions, ← List.append_nil (Arrange.bracket _ _ _ _ _)] at hmeets
  obtain ⟨i, c, lines, hlines, hstands⟩ := hall { subselectLimit := 0 } outerTokens [] _ outerItems
    64 0 false [] innerDefinitions [] d rfl arrange_outerTokens hout (by decide) rfl hr hmeets
  have hinfix := infix_of_stands_inner hlines rfl hstands
  revert hinfix
  decide +kernel

end SqlLayout

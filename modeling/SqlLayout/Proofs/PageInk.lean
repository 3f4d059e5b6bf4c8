import Mathlib.Algebra.GroupWithZero.Nat
import SqlLayout.Proofs.Margin

/-! A page as a ribbon: its characters that are not blank, in order, with what stands before each of
them. A ribbon forgets how far a line is indented, but not where a line ends. Writing on a page is
appending to its ribbon.
-/

set_option autoImplicit false

namespace SqlLayout

/-- What stands between two characters that are not blank: blanks on the line, or line ends that the
layout made. Of the latter the line breaks are counted, those on the last line for themselves. -/
inductive Gap where
  | within (t : Text)
  | across (n m : Nat)

namespace Gap

def append : Gap → Gap → Gap
  | .within s, .within t => .within (s ++ t)
  | .within s, .across n m => .across (s.count '\n' + n) m
  | .across n m, .within t => .across n (m + t.count '\n')
  | .across n m, .across n' m' => .across (n + m + n') m'

instance : Append Gap := ⟨append⟩

variable (g h k : Gap) (s t : Text) (n m n' m' : Nat)

@[simp] theorem within_append_within : within s ++ within t = within (s ++ t) := rfl

@[simp] theorem within_append_across : within s ++ across n m = across (s.count '\n' + n) m := rfl

@[simp] theorem across_append_within : across n m ++ within t = across n (m + t.count '\n') := rfl

@[simp] theorem across_append_across : across n m ++ across n' m' = across (n + m + n') m' := rfl

theorem append_assoc : g ++ h ++ k = g ++ (h ++ k) := by
  cases g <;> cases h <;> cases k <;> simp <;> omega

@[simp] theorem append_nil : g ++ within [] = g := by cases g <;> simp

@[simp] theorem nil_append : within [] ++ g = g := by cases g <;> simp

def breaks : Gap → Nat
  | .within t => t.count '\n'
  | .across n m => n + m

@[simp] theorem breaks_append : (g ++ h).breaks = g.breaks + h.breaks := by
  cases g <;> cases h <;> simp [breaks] <;> omega

def text : Gap → Text
  | .within t => t
  | .across _ _ => [' ']

def isAcross : Gap → Bool
  | .within _ => false
  | .across _ _ => true

def clear : Gap → Gap
  | .within _ => .within []
  | .across n _ => .across n 0

def Blank : Gap → Prop
  | .within t => ∀ c ∈ t, Text.isBlank c = true
  | .across _ _ => True

theorem Blank.append {g h : Gap} (hg : g.Blank) (hh : h.Blank) : (g ++ h).Blank := by
  cases g <;> cases h
  · exact fun c hc => (List.mem_append.1 hc).elim (hg c) (hh c)
  all_goals trivial

theorem Blank.text {g : Gap} (hg : g.Blank) : ∀ c ∈ g.text, Text.isBlank c = true := by
  cases g with
  | within t => exact hg
  | across n m =>
    intro c hc
    obtain rfl : c = ' ' := by simpa [Gap.text] using hc
    rfl

end Gap

/-- The characters that are not blank, each with the gap before it, and the gap behind them. -/
structure Ribbon where
  cells : List (Gap × Char)
  tail : Gap

namespace Ribbon

def empty : Ribbon := ⟨[], .within []⟩

def append (r s : Ribbon) : Ribbon :=
  match s.cells with
  | [] => ⟨r.cells, r.tail ++ s.tail⟩
  | (g, c) :: rest => ⟨r.cells ++ (r.tail ++ g, c) :: rest, s.tail⟩

instance : Append Ribbon := ⟨append⟩

variable (r s u : Ribbon)

theorem append_gap (g : Gap) : r ++ ⟨[], g⟩ = ⟨r.cells, r.tail ++ g⟩ := rfl

theorem append_cells (g k : Gap) (c : Char) (rest : List (Gap × Char)) :
    r ++ ⟨(g, c) :: rest, k⟩ = ⟨r.cells ++ (r.tail ++ g, c) :: rest, k⟩ := rfl

theorem append_assoc : r ++ s ++ u = r ++ (s ++ u) := by
  obtain ⟨cs, g⟩ := s
  obtain ⟨ds, k⟩ := u
  cases cs with
  | nil =>
    cases ds with
    | nil => simp [append_gap, Gap.append_assoc]
    | cons x ds => obtain ⟨h, d⟩ := x; simp [append_gap, append_cells, Gap.append_assoc]
  | cons x cs =>
    obtain ⟨h, c⟩ := x
    cases ds with
    | nil => simp [append_gap, append_cells]
    | cons y ds => obtain ⟨h', d⟩ := y; simp [append_cells]

@[simp] theorem append_empty : r ++ empty = r := by
  rw [empty, append_gap, Gap.append_nil]

@[simp] theorem empty_append : empty ++ r = r := by
  obtain ⟨cs, g⟩ := r
  cases cs with
  | nil => simp [append_gap, empty]
  | cons x cs => obtain ⟨h, c⟩ := x; simp [append_cells, empty]

theorem length_append : (r ++ s).cells.length = r.cells.length + s.cells.length := by
  obtain ⟨cs, g⟩ := s
  cases cs with
  | nil => simp [append_gap]
  | cons x cs => obtain ⟨h, c⟩ := x; simp [append_cells]

theorem append_head {x : Gap × Char} {cs : List (Gap × Char)} (h : r.cells = x :: cs) :
    ∃ ds, (r ++ s).cells = x :: ds := by
  obtain ⟨es, g⟩ := s
  cases es with
  | nil => exact ⟨cs, h⟩
  | cons y es => obtain ⟨k, c⟩ := y; exact ⟨_, by rw [append_cells, h]; rfl⟩

variable {r s u}

structure Made (G : Gap → Prop) (r : Ribbon) : Prop where
  cells : ∀ x ∈ r.cells, G x.1 ∧ Text.isBlank x.2 = false
  tail : G r.tail

theorem Made.append {G : Gap → Prop} (hG : ∀ {g h : Gap}, G g → G h → G (g ++ h))
    (hr : r.Made G) (hs : s.Made G) : (r ++ s).Made G := by
  obtain ⟨cs, g⟩ := s
  cases cs with
  | nil => exact ⟨hr.cells, hG hr.tail hs.tail⟩
  | cons x cs =>
    obtain ⟨h, c⟩ := x
    refine ⟨fun y hy => ?_, hs.tail⟩
    obtain ⟨hfirst, hrest⟩ := List.forall_mem_cons.1 hs.cells
    rcases List.mem_append.1 hy with hy | hy
    · exact hr.cells y hy
    · rcases List.mem_cons.1 hy with rfl | hy
      · exact ⟨hG hr.tail hfirst.1, hfirst.2⟩
      · exact hrest y hy

def ofChar (c : Char) : Ribbon :=
  if Text.isBlank c then ⟨[], .within [c]⟩ else ⟨[(.within [], c)], .within []⟩

def ofText : Text → Ribbon
  | [] => empty
  | c :: t => ofChar c ++ ofText t

theorem ofText_append (a b : Text) : ofText (a ++ b) = ofText a ++ ofText b := by
  induction a with
  | nil => simp [ofText]
  | cons c a ih => simp [ofText, ih, append_assoc]

theorem ofText_blank {t : Text} (h : ∀ c ∈ t, Text.isBlank c = true) :
    ofText t = ⟨[], .within t⟩ := by
  induction t with
  | nil => rfl
  | cons c t ih =>
    have hc := h c (by simp)
    rw [ofText, ih fun d hd => h d (by simp [hd]), ofChar, if_pos hc]
    rfl

theorem ofText_ink {c : Char} (hc : Text.isBlank c = false) (t : Text) :
    ofText (c :: t) = ⟨[(.within [], c)], .within []⟩ ++ ofText t := by
  rw [ofText, ofChar, if_neg (by simp [hc])]

theorem length_ofText (t : Text) : (ofText t).cells.length = Text.ink t := by
  induction t with
  | nil => rfl
  | cons c t ih =>
    rw [ofText, length_append, ih, ofChar]
    cases hc : Text.isBlank c <;> simp [Text.ink, hc]; omega

theorem made_ofText {G : Gap → Prop} (hG : ∀ {g h : Gap}, G g → G h → G (g ++ h))
    (hnil : G (.within [])) (hblank : ∀ c, Text.isBlank c = true → G (.within [c])) (t : Text) :
    (ofText t).Made G := by
  induction t with
  | nil => exact ⟨by simp [ofText, empty], hnil⟩
  | cons c t ih =>
    refine Made.append hG ?_ ih
    unfold ofChar
    split
    · rename_i hc
      exact ⟨by simp, hblank c hc⟩
    · rename_i hc
      exact ⟨by simpa [hc] using hnil, hnil⟩

theorem clean_ofText (t : Text) : (ofText t).Made Gap.Blank :=
  made_ofText Gap.Blank.append (by simp [Gap.Blank]) (by simp [Gap.Blank]) t

theorem oneLine_ofText (t : Text) : (ofText t).Made fun g => g.isAcross = false := by
  have happend : ∀ {g h : Gap}, g.isAcross = false → h.isAcross = false →
      (g ++ h).isAcross = false := by
    intro g h hg hh
    cases g <;> cases h <;> simp_all [Gap.isAcross]
  refine made_ofText happend ?_ (fun c _ => ?_) t
  · rfl
  · rfl

def spell (cs : List (Gap × Char)) : Text := cs.flatMap fun x => x.1.text ++ [x.2]

theorem spell_cons (x : Gap × Char) (cs : List (Gap × Char)) :
    spell (x :: cs) = x.1.text ++ x.2 :: spell cs := by
  simp [spell]

/-- The text of the cells on one line, without the gaps around them. -/
def squeeze : List (Gap × Char) → Text
  | [] => []
  | x :: cs => x.2 :: spell cs

theorem spell_ofText (t : Text) : spell (ofText t).cells = Text.trimEnd t := by
  induction t with
  | nil => rfl
  | cons c t ih =>
    rw [Text.trimEnd, Text.dropEndWhile_cons, ← Text.trimEnd, ← ih, ofText, ofChar]
    have hline := (oneLine_ofText t).cells
    generalize ofText t = r at hline ⊢
    obtain ⟨cs, k⟩ := r
    cases cs with
    | nil => cases hc : Text.isBlank c <;> simp [append_gap, spell, Gap.text]
    | cons x cs =>
      obtain ⟨g, d⟩ := x
      cases g with
      | within u => cases hc : Text.isBlank c <;> simp [append_cells, spell, Gap.text]
      | across n m => simp [Gap.isAcross] at hline

theorem squeeze_ofText (t : Text) : squeeze (ofText t).cells = Text.trim t := by
  induction t with
  | nil => rfl
  | cons c t ih =>
    cases hc : Text.isBlank c with
    | true =>
      rw [show Text.trim (c :: t) = Text.trim t by simp [Text.trim, hc], ← ih, ofText, ofChar,
        if_pos hc]
      generalize ofText t = r
      obtain ⟨cs, k⟩ := r
      cases cs <;> rfl
    | false =>
      rw [Text.trim, List.dropWhile_cons_of_neg (by simp [hc]), ← spell_ofText, ofText_ink hc]
      obtain ⟨ds, hds⟩ := append_head (r := ⟨[(.within [], c)], .within []⟩) (s := ofText t) rfl
      simp [hds, squeeze, spell, Gap.text]

theorem filter_spell {cs : List (Gap × Char)}
    (h : ∀ x ∈ cs, x.1.Blank ∧ Text.isBlank x.2 = false) :
    (spell cs).filter (!Text.isBlank ·) = cs.map Prod.snd := by
  induction cs with
  | nil => rfl
  | cons x cs ih =>
    obtain ⟨⟨hgap, hc⟩, hrest⟩ := List.forall_mem_cons.1 h
    have hnil : x.1.text.filter (!Text.isBlank ·) = [] :=
      List.filter_eq_nil_iff.2 fun c hc => by simp [hgap.text c hc]
    rw [spell_cons, List.filter_append, hnil, List.filter_cons_of_pos (by simp [hc]), ih hrest]
    rfl

theorem count_spell {cs : List (Gap × Char)}
    (h : ∀ x ∈ cs, x.1.isAcross = false ∧ Text.isBlank x.2 = false) :
    (spell cs).count '\n' = (cs.map fun x => x.1.breaks).sum := by
  induction cs with
  | nil => rfl
  | cons x cs ih =>
    obtain ⟨⟨hgap, hc⟩, hrest⟩ := List.forall_mem_cons.1 h
    have hcount : x.1.text.count '\n' = x.1.breaks := by
      cases hg : x.1 with
      | within t => rfl
      | across n m => simp [hg, Gap.isAcross] at hgap
    have hne : x.2 ≠ '\n' := by
      rintro hn
      simp [hn, Text.isBlank] at hc
    rw [spell_cons, List.count_append, List.count_cons_of_ne hne, hcount, ih hrest]
    simp

theorem ofText_spell {cs : List (Gap × Char)}
    (h : ∀ x ∈ cs, x.1.Blank ∧ Text.isBlank x.2 = false) :
    ofText (spell cs) = ⟨cs.map fun x => (.within x.1.text, x.2), .within []⟩ := by
  induction cs with
  | nil => rfl
  | cons x cs ih =>
    obtain ⟨⟨hgap, hc⟩, hrest⟩ := List.forall_mem_cons.1 h
    rw [spell_cons, ofText_append, ofText_blank hgap.text, ofText_ink hc, ih hrest]
    cases cs with
    | nil => simp [append_cells, append_gap]
    | cons y cs => simp [append_cells]

theorem ofText_trimEnd (t : Text) : ofText (Text.trimEnd t) = ⟨(ofText t).cells, .within []⟩ := by
  have hline : (ofText t).cells.map (fun x => (Gap.within x.1.text, x.2)) = (ofText t).cells := by
    refine (List.map_congr_left fun x hx => ?_).trans (List.map_id _)
    obtain ⟨g, c⟩ := x
    have hacross : g.isAcross = false := ((oneLine_ofText t).cells _ hx).1
    cases g with
    | within u => rfl
    | across n m => simp [Gap.isAcross] at hacross
  rw [← spell_ofText, ofText_spell (clean_ofText t).cells, hline]

theorem cells_ne_nil {t : Text} (h : Text.isBlankText t = false) : (ofText t).cells ≠ [] := by
  intro hnil
  have hink : Text.ink t = 0 := by rw [← length_ofText, hnil]; rfl
  rw [Text.ink, List.countP_eq_zero] at hink
  rw [Text.isBlankText, List.all_eq_false] at h
  obtain ⟨c, hc, hblank⟩ := h
  exact hink c hc (by simpa using hblank)

def lineEnd : Ribbon := ⟨[], .across 1 0⟩

def ofLines : List Text → Ribbon
  | [] => empty
  | [t] => ofText t
  | t :: rest => ofText t ++ lineEnd ++ ofLines rest

theorem ofLines_cons {ls : List Text} (h : ls ≠ []) (t : Text) :
    ofLines (t :: ls) = ofText t ++ lineEnd ++ ofLines ls := by
  cases ls with
  | nil => exact absurd rfl h
  | cons u ls => rfl

theorem ofLines_snoc {ls : List Text} (h : ls ≠ []) (t : Text) :
    ofLines (ls ++ [t]) = ofLines ls ++ lineEnd ++ ofText t := by
  induction ls with
  | nil => exact absurd rfl h
  | cons u ls ih =>
    cases ls with
    | nil => rfl
    | cons v ls =>
      rw [List.cons_append, ofLines_cons (by simp), ih (by simp), ofLines_cons (by simp) u]
      simp only [append_assoc]

theorem squeeze_lineEnd (r s : Ribbon) : squeeze (r ++ lineEnd ++ s).cells =
    if s.cells.isEmpty then squeeze r.cells
    else if r.cells.isEmpty then squeeze s.cells
    else squeeze r.cells ++ ' ' :: squeeze s.cells := by
  have hspace : ∀ g h : Gap, (g ++ .across 1 0 ++ h).text = [' '] := by
    intro g h
    cases g <;> cases h <;> rfl
  obtain ⟨cs, g⟩ := r
  obtain ⟨ds, k⟩ := s
  rw [lineEnd, append_gap]
  cases ds with
  | nil => rfl
  | cons y ds =>
    obtain ⟨h, d⟩ := y
    cases cs with
    | nil => rfl
    | cons x cs => simp [append_cells, squeeze, spell, hspace]

theorem collapse_cons (t : Text) (ls : List Text) : collapse (t :: ls) =
    if (collapse ls).isEmpty then Text.trim t
    else if (Text.trim t).isEmpty then collapse ls
    else Text.trim t ++ ' ' :: collapse ls := by
  have hne : ∀ u ∈ (ls.map Text.trim).filter (!·.isEmpty), u ≠ [] := by
    intro u hu
    simpa using (List.mem_filter.1 hu).2
  unfold collapse
  rw [List.map_cons, List.filter_cons]
  generalize (ls.map Text.trim).filter (!·.isEmpty) = us at hne ⊢
  cases us with
  | nil => cases ht : Text.trim t <;> simp [Text.join]
  | cons u us =>
    have hjoin : Text.join [' '] (u :: us) ≠ [] := by
      cases us <;> simp_all [Text.join]
    cases ht : Text.trim t <;> simp_all [Text.join]

theorem squeeze_ofLines (ls : List Text) : squeeze (ofLines ls).cells = collapse ls := by
  induction ls with
  | nil => rfl
  | cons t ls ih =>
    cases ls with
    | nil => simp [ofLines, squeeze_ofText, collapse_cons, show collapse [] = [] from rfl]
    | cons u ls =>
      have hempty : ∀ cs : List (Gap × Char), cs.isEmpty = (squeeze cs).isEmpty := by
        intro cs
        cases cs <;> rfl
      rw [ofLines_cons (by simp), squeeze_lineEnd, collapse_cons, ← ih, ← squeeze_ofText, hempty,
        hempty]

def finished : List Text → Ribbon
  | [] => empty
  | t :: rest => finished rest ++ ofText t ++ lineEnd

theorem ofLines_reverse (t : Text) (rest : List Text) :
    ofLines (t :: rest).reverse = finished rest ++ ofText t := by
  induction rest generalizing t with
  | nil => simp [ofLines, finished]
  | cons u rest ih => rw [List.reverse_cons, ofLines_snoc (by simp), ih, finished]

theorem tail_finished (ls : List Text) : (finished ls).tail.clear = (finished ls).tail ∧
    ((finished ls).tail.isAcross = true ∨ finished ls = empty) := by
  cases ls with
  | nil => exact ⟨rfl, .inr rfl⟩
  | cons t rest =>
    have htail : (finished (t :: rest)).tail = (finished rest ++ ofText t).tail ++ .across 1 0 := rfl
    rw [htail]
    cases (finished rest ++ ofText t).tail <;> exact ⟨rfl, .inl rfl⟩

theorem clean_finished (ls : List Text) : (finished ls).Made Gap.Blank := by
  induction ls with
  | nil => exact clean_ofText []
  | cons t ls ih =>
    have hline := ih.append Gap.Blank.append (clean_ofText t)
    exact hline.append Gap.Blank.append ⟨by simp [lineEnd], trivial⟩

/-- A line end takes the spaces before it away. -/
theorem ofText_dropEnd (t : Text) :
    ofText (Text.dropEndWhile (· == ' ') t) ++ lineEnd = ofText t ++ lineEnd := by
  have hsplit : Text.dropEndWhile (· == ' ') t ++ t.rtakeWhile (· == ' ') = t := by
    rw [Text.dropEndWhile, List.rtakeWhile, ← List.reverse_append, List.takeWhile_append_dropWhile,
      List.reverse_reverse]
  have hspaces : ∀ c ∈ t.rtakeWhile (· == ' '), c = ' ' := fun c hc => by
    simpa using List.mem_rtakeWhile_imp hc
  have hblank : ofText (t.rtakeWhile (· == ' ')) ++ lineEnd = lineEnd := by
    have hcount : (t.rtakeWhile (· == ' ')).count '\n' = 0 := by
      rw [List.count_eq_zero]
      intro hmem
      exact absurd (hspaces _ hmem) (by decide)
    rw [ofText_blank fun c hc => by rw [hspaces c hc]; rfl, lineEnd, append_gap]
    simp [hcount]
  conv => rhs; rw [← hsplit, ofText_append, append_assoc, hblank]

theorem ofText_spaces (n : Nat) : ofText (Text.spaces n) = ⟨[], .within (Text.spaces n)⟩ :=
  ofText_blank fun c hc => by
    obtain rfl : c = ' ' := List.eq_of_mem_replicate hc
    rfl

/-- Behind a line end an indentation does not show. -/
theorem lineEnd_spaces (n : Nat) : lineEnd ++ ofText (Text.spaces n) = lineEnd := by
  rw [ofText_spaces, append_gap]
  simp [lineEnd, Text.spaces, List.count_replicate]

end Ribbon

namespace Page

open Ribbon

variable (p : Page)

def ribbon : Ribbon := finished p.above ++ ofText p.current.reverse

theorem ribbon_eq_ofLines : p.ribbon = ofLines p.lines := (ofLines_reverse _ _).symm

theorem clean_ribbon : p.ribbon.Made Gap.Blank :=
  (clean_finished _).append Gap.Blank.append (clean_ofText _)

theorem ribbon_push (t : Text) : (p.push t).ribbon = p.ribbon ++ ofText t := by
  simp [ribbon, push, ofText_append, Ribbon.append_assoc]

theorem ribbon_indent (n : Nat) : (p.indent n).ribbon = p.ribbon ++ ofText (Text.spaces n) := by
  simp [ribbon, indent, ofText_append, Ribbon.append_assoc, Text.spaces]

theorem ribbon_newline : p.newline.ribbon = p.ribbon ++ lineEnd := by
  have hline := ofText_dropEnd p.current.reverse
  rw [Text.dropEndWhile, List.reverse_reverse] at hline
  simp [ribbon, newline, finished, Ribbon.append_assoc, hline, ofText]

theorem ribbon_newline_indent (n : Nat) : (p.newline.indent n).ribbon = p.ribbon ++ lineEnd := by
  rw [ribbon_indent, ribbon_newline, Ribbon.append_assoc, lineEnd_spaces]

theorem ribbon_of_blank (h : p.atLineStart = true) : p.ribbon =
    ⟨(finished p.above).cells, (finished p.above).tail ++ .within p.current.reverse⟩ := by
  have hblank : ∀ c ∈ p.current.reverse, Text.isBlank c = true := fun c hc =>
    List.all_eq_true.1 h c (List.mem_reverse.1 hc)
  rw [ribbon, ofText_blank hblank, append_gap]

/-- A line is blank behind a line end, and on a page without anything. -/
theorem atLineStart_eq :
    p.atLineStart = (p.ribbon.tail.isAcross || p.ribbon.cells.isEmpty) := by
  cases hs : p.atLineStart with
  | true =>
    rw [ribbon_of_blank p hs]
    rcases (tail_finished p.above).2 with hacross | hempty
    · cases hg : (finished p.above).tail with
      | within t => simp [hg, Gap.isAcross] at hacross
      | across n m => rfl
    · simp [hempty, empty]
  | false =>
    have hcells : (ofText p.current.reverse).cells ≠ [] :=
      cells_ne_nil (by simpa [atLineStart, Text.isBlankText] using hs)
    have htail := (oneLine_ofText p.current.reverse).tail
    unfold ribbon
    generalize ofText p.current.reverse = r at hcells htail ⊢
    obtain ⟨cs, k⟩ := r
    cases cs with
    | nil => exact absurd rfl hcells
    | cons x cs =>
      obtain ⟨g, c⟩ := x
      simpa [append_cells] using htail.symm

theorem ribbon_clearLine (h : p.atLineStart = true) :
    p.clearLine.ribbon = ⟨p.ribbon.cells, p.ribbon.tail.clear⟩ := by
  have hclear : ∀ (g : Gap) (t : Text), (g ++ .within t).clear = g.clear := by
    intro g t
    cases g <;> rfl
  rw [ribbon_of_blank p h, hclear, (tail_finished p.above).1, clearLine, if_pos h]
  exact Ribbon.append_empty _

theorem ribbon_pushBelow {ls : List Text} (h : ls ≠ []) (n : Nat) :
    (p.pushBelow n ls).ribbon = p.ribbon ++ lineEnd ++ ofLines ls := by
  induction ls generalizing p with
  | nil => exact absurd rfl h
  | cons t ls ih =>
    have hline : ((p.newline.indent n).push t).ribbon = p.ribbon ++ lineEnd ++ ofText t := by
      rw [ribbon_push, ribbon_newline_indent]
    cases ls with
    | nil => exact hline
    | cons u ls =>
      rw [pushBelow, List.foldl_cons, ← pushBelow, ih _ (by simp), hline, ofLines_cons (by simp) t]
      simp only [Ribbon.append_assoc]

theorem ribbon_pushLines (n : Nat) (ls : List Text) :
    (p.pushLines n ls).ribbon = p.ribbon ++ ofLines ls := by
  cases ls with
  | nil => simp [pushLines, ofLines]
  | cons t ls =>
    cases ls with
    | nil => exact p.ribbon_push t
    | cons u ls =>
      rw [pushLines, ribbon_pushBelow _ (by simp), ribbon_push, ofLines_cons (by simp) t]
      simp only [Ribbon.append_assoc]

theorem cells_dropBlank (ls : List Text) :
    (ofLines (dropBlank ls).reverse).cells = (ofLines ls.reverse).cells := by
  fun_induction dropBlank ls with
  | case1 t u rest hblank ih =>
    have hrev : (t :: u :: rest).reverse = (u :: rest).reverse ++ [t] := List.reverse_cons
    rw [ih, hrev, ofLines_snoc (by simp), ofText_blank (List.all_eq_true.1 hblank)]
    rfl
  | case2 => rfl
  | case3 => rfl

theorem dropBlank_head {ls rest : List Text} {t : Text} (h : dropBlank ls = t :: rest) :
    rest = [] ∨ Text.isBlankText t = false := by
  fun_induction dropBlank ls with
  | case1 _ _ _ _ ih => exact ih h
  | case2 t u rest hblank =>
    obtain ⟨rfl, rfl⟩ := List.cons.inj h
    exact .inr (by simpa using hblank)
  | case3 ls hls =>
    subst h
    cases rest with
    | nil => exact .inl rfl
    | cons u rest => exact absurd rfl (hls t u rest)

theorem trimmedLines_ne_nil : p.trimmedLines ≠ [] := by
  have hne := dropBlank_ne_nil (List.cons_ne_nil p.current.reverse p.above)
  unfold trimmedLines
  split
  · exact absurd ‹_› hne
  · simp

/-- The lines that are set into another page have the same cells, and nothing behind them. -/
theorem ofLines_trimmedLines : ofLines p.trimmedLines = ⟨p.ribbon.cells, .within []⟩ := by
  have hcells := cells_dropBlank (p.current.reverse :: p.above)
  rw [ofLines_reverse, ← ribbon] at hcells
  unfold trimmedLines
  split
  · rename_i hnil
    rw [← hcells, hnil]
    rfl
  · rename_i t rest hdrop
    rw [ofLines_reverse, ofText_trimEnd, ← hcells, hdrop, ofLines_reverse]
    rcases dropBlank_head hdrop with rfl | hink
    · simp [finished]
    · have hne : (ofText t).cells ≠ [] := cells_ne_nil hink
      generalize ofText t = r at hne ⊢
      obtain ⟨cs, k⟩ := r
      cases cs with
      | nil => exact absurd rfl hne
      | cons x cs => rfl

end Page

namespace Ribbon

variable {r s u v : Ribbon}

def tally (r : Ribbon) : List (Nat × Char) := r.cells.map fun x => (x.1.breaks, x.2)

def SameBreaks (r s : Ribbon) : Prop := r.tally = s.tally ∧ r.tail.breaks = s.tail.breaks

theorem SameBreaks.append (h : r.SameBreaks s) (h' : u.SameBreaks v) : (r ++ u).SameBreaks (s ++ v) := by
  obtain ⟨hcells, htail⟩ := h
  obtain ⟨hcells', htail'⟩ := h'
  obtain ⟨cs, g⟩ := u
  obtain ⟨ds, k⟩ := v
  cases cs with
  | nil =>
    cases ds with
    | nil => exact ⟨hcells, by simp [append_gap, htail, show g.breaks = k.breaks from htail']⟩
    | cons y ds => simp [tally] at hcells'
  | cons x cs =>
    cases ds with
    | nil => simp [tally] at hcells'
    | cons y ds =>
      obtain ⟨g', c⟩ := x
      obtain ⟨k', d⟩ := y
      refine ⟨?_, htail'⟩
      simp_all [tally, append_cells]

theorem sameBreaks_join (ls : List Text) : (ofLines ls).SameBreaks (ofText (Text.join ['\n'] ls)) := by
  induction ls with
  | nil => exact ⟨rfl, rfl⟩
  | cons t ls ih =>
    cases ls with
    | nil => exact ⟨by simp [ofLines, Text.join], by simp [ofLines, Text.join]⟩
    | cons u ls =>
      have hjoin : Text.join ['\n'] (t :: u :: ls) = t ++ ['\n'] ++ Text.join ['\n'] (u :: ls) := by
        simp [Text.join]
      rw [ofLines_cons (by simp), hjoin, ofText_append, ofText_append]
      exact SameBreaks.append (SameBreaks.append ⟨rfl, rfl⟩ ⟨rfl, rfl⟩) ih

end Ribbon

namespace Page

open Ribbon

variable (p : Page)

theorem filter_text : p.text.filter (!Text.isBlank ·) = p.ribbon.cells.map Prod.snd := by
  have hsame := congrArg (List.map Prod.snd) (sameBreaks_join p.lines).1
  simp only [tally, List.map_map, Function.comp_def, ← ribbon_eq_ofLines] at hsame
  rw [text, ← spell_ofText, filter_spell (clean_ofText _).cells]
  exact hsame.symm

theorem count_text : p.text.count '\n' = (p.ribbon.cells.map fun x => x.1.breaks).sum := by
  have hsame := congrArg (List.map Prod.fst) (sameBreaks_join p.lines).1
  simp only [tally, List.map_map, Function.comp_def, ← ribbon_eq_ofLines] at hsame
  rw [text, ← spell_ofText, count_spell (oneLine_ofText _).cells, hsame]

variable {p}

theorem Opens.ribbon {r : Text} (h : p.Opens r) (hr : Text.Solid r) :
    ∃ c cs, p.ribbon.cells = (.within [], c) :: cs := by
  obtain ⟨t, ts, hts, u, rfl⟩ := h.lines
  obtain ⟨c, w, rfl, hc⟩ := hr.starts
  obtain ⟨cs, hcs⟩ : ∃ cs, (ofText (c :: w ++ u)).cells = (.within [], c) :: cs := by
    rw [List.cons_append, ofText_ink hc]
    exact append_head _ _ rfl
  rw [ribbon_eq_ofLines, hts]
  cases ts with
  | nil => exact ⟨c, cs, hcs⟩
  | cons v ts =>
    rw [ofLines_cons (by simp), Ribbon.append_assoc]
    obtain ⟨ds, hds⟩ := append_head _ (lineEnd ++ ofLines (v :: ts)) hcs
    exact ⟨c, ds, hds⟩

def Counted (p : Page) : Prop := p.ink = p.ribbon.cells.length

namespace Counted

theorem push (h : p.Counted) (t : Text) : (p.push t).Counted := by
  unfold Counted at h ⊢
  rw [ribbon_push, length_append, length_ofText, ← h]
  rfl

theorem indent (h : p.Counted) (n : Nat) : (p.indent n).Counted := by
  unfold Counted at h ⊢
  rw [ribbon_indent, length_append, length_ofText, Text.ink_spaces, ← h]
  rfl

theorem newline (h : p.Counted) : p.newline.Counted := by
  unfold Counted at h ⊢
  rw [ribbon_newline, length_append, ← h]
  rfl

theorem startLine (h : p.Counted) (n : Nat) : (p.startLine n).Counted := by
  unfold Page.startLine
  split
  · rename_i hs
    refine indent ?_ n
    unfold Counted at h ⊢
    rw [ribbon_clearLine p hs, ← h, clearLine, if_pos hs]
  · exact h.newline.indent n

theorem pushBelow (h : p.Counted) (n : Nat) (ls : List Text) : (p.pushBelow n ls).Counted := by
  induction ls generalizing p with
  | nil => exact h
  | cons t ls ih => exact ih ((h.newline.indent n).push t)

theorem pushLines (h : p.Counted) (n : Nat) (ls : List Text) : (p.pushLines n ls).Counted := by
  cases ls with
  | nil => exact h
  | cons t ls => exact (h.push t).pushBelow n ls

end Counted

end Page

end SqlLayout

import Mathlib.Data.List.DropRight
import SqlLayout.Layout.Page
import SqlLayout.Token.Spacing

/-! Text made of written tokens with gaps between them, and what trimming and joining do to it. A
rule says what gaps may hold, which tokens may touch, and which must end their line.
-/

set_option autoImplicit false

namespace SqlLayout

namespace Text

def Solid (t : Text) : Prop :=
  t.head?.any (!isBlank ·) = true ∧ t.getLast?.any (!isBlank ·) = true

instance (t : Text) : Decidable (Solid t) := inferInstanceAs (Decidable (_ ∧ _))

def Firm (t : Text) : Prop := t.getLast?.any (!isBlank ·) = true

variable {r s t : Text}

theorem Solid.firm (h : Solid r) : Firm r := h.2

theorem Firm.ends (h : Firm r) : ∃ a c, r = a ++ [c] ∧ isBlank c = false := by
  rcases List.eq_nil_or_concat r with rfl | ⟨a, c, rfl⟩
  · simp [Firm] at h
  · exact ⟨a, c, List.concat_eq_append, by simpa [Firm] using h⟩

theorem Solid.ends (h : Solid r) : ∃ a c, r = a ++ [c] ∧ isBlank c = false := h.firm.ends

theorem Solid.starts (h : Solid r) : ∃ c a, r = c :: a ∧ isBlank c = false := by
  cases r with
  | nil => simp [Solid] at h
  | cons c a => exact ⟨c, a, rfl, by simpa using h.1⟩

theorem Firm.dropEndWhile {p : Char → Bool} (h : Firm r) (hp : ∀ c, p c = true → isBlank c = true)
    (s t : Text) : dropEndWhile p (s ++ r ++ t) = s ++ r ++ dropEndWhile p t := by
  obtain ⟨a, c, rfl, hc⟩ := h.ends
  have hpc : p c = false := by
    by_contra hn
    simp [hp c (by simpa using hn)] at hc
  simp only [Text.dropEndWhile, List.reverse_append, List.reverse_cons, List.reverse_nil,
    List.nil_append, List.singleton_append, List.dropWhile_append]
  split
  · simp_all
  · simp

theorem Solid.dropEndWhile {p : Char → Bool} (h : Solid r) (hp : ∀ c, p c = true → isBlank c = true)
    (s t : Text) : dropEndWhile p (s ++ r ++ t) = s ++ r ++ dropEndWhile p t :=
  h.firm.dropEndWhile hp s t

theorem Solid.dropWhile (h : Solid r) (t : Text) : (r ++ t).dropWhile isBlank = r ++ t := by
  obtain ⟨c, a, rfl, hc⟩ := h.starts
  simp [hc]

theorem Solid.not_blank (h : Solid r) (s t : Text) : isBlankText (s ++ r ++ t) = false := by
  obtain ⟨c, a, rfl, hc⟩ := h.starts
  simp [isBlankText, hc]

theorem dropEndWhile_prefix (p : Char → Bool) (t : Text) : Text.dropEndWhile p t <+: t :=
  List.rdropWhile_prefix p t

theorem dropEndWhile_cons (p : Char → Bool) (c : Char) (t : Text) :
    dropEndWhile p (c :: t) =
      if (dropEndWhile p t).isEmpty && p c then [] else c :: dropEndWhile p t := by
  simp only [dropEndWhile, List.reverse_cons, List.dropWhile_append, List.isEmpty_reverse]
  cases hc : p c <;> split <;> simp_all

theorem dropEndWhile_append (p : Char → Bool) (s t : Text) :
    dropEndWhile p (s ++ t) =
      if (dropEndWhile p t).isEmpty then dropEndWhile p s else s ++ dropEndWhile p t := by
  simp only [dropEndWhile, List.reverse_append, List.dropWhile_append, List.isEmpty_reverse]
  split <;> simp

theorem dropEndWhile_dropEndWhile {p q : Char → Bool} (h : ∀ c, p c = true → q c = true) (t : Text) :
    dropEndWhile p (dropEndWhile q t) = dropEndWhile q t := by
  have hhead := List.head?_dropWhile_not q t.reverse
  simp only [dropEndWhile, List.reverse_reverse]
  cases hd : t.reverse.dropWhile q with
  | nil => rfl
  | cons c u =>
    have hc : q c = false := by simpa [hd] using hhead
    have hpc : p c = false := by
      by_contra hn
      simp [h c (by simpa using hn)] at hc
    simp [hpc]

theorem join_cons (sep t : Text) (ls : List Text) :
    join sep (t :: ls) = t ++ ls.flatMap (sep ++ ·) := by
  induction ls generalizing t with
  | nil => simp [join]
  | cons u ls ih =>
    have hu := ih u
    rw [join] at hu ⊢
    rw [List.intercalate_cons_cons, hu, List.flatMap_cons]
    simp

theorem join_append (sep : Text) {ls ms : List Text} (hl : ls ≠ []) (hm : ms ≠ []) :
    join sep (ls ++ ms) = join sep ls ++ sep ++ join sep ms := by
  obtain ⟨m, ms, rfl⟩ := List.exists_cons_of_ne_nil hm
  unfold join
  induction ls with
  | nil => exact absurd rfl hl
  | cons t ls ih =>
    cases ls with
    | nil => simp
    | cons u ls =>
      have := ih (List.cons_ne_nil u ls)
      rw [List.cons_append, List.cons_append] at *
      rw [List.intercalate_cons_cons, List.intercalate_cons_cons, this]
      simp

theorem join_concat (sep : Text) (ls : List Text) (t : Text) :
    ∃ w, join sep (ls ++ [t]) = w ++ t := by
  cases ls with
  | nil => exact ⟨[], by simp [join]⟩
  | cons u ls =>
    refine ⟨join sep (u :: ls) ++ sep, ?_⟩
    rw [join_append sep (List.cons_ne_nil u ls) (List.cons_ne_nil t [])]
    simp [join]

theorem trim_of_blank {t : Text} (h : isBlankText t = true) : trim t = [] := by
  have hdrop : t.dropWhile isBlank = [] := List.dropWhile_eq_nil_iff.2 (List.all_eq_true.1 h)
  rw [trim, hdrop]
  rfl

theorem exists_trim (h : isBlankText t = false) :
    ∃ g k, t = g ++ trim t ++ k ∧ (∀ c ∈ g, isBlank c = true) ∧ (∀ c ∈ k, isBlank c = true) ∧
      Solid (trim t) := by
  obtain ⟨c, u, hu, hc⟩ : ∃ c u, t.dropWhile isBlank = c :: u ∧ isBlank c = false := by
    have hhead := List.head?_dropWhile_not isBlank t
    cases hd : t.dropWhile isBlank with
    | nil =>
      have := List.all_eq_true.2 (List.dropWhile_eq_nil_iff.1 hd)
      simp_all [isBlankText]
    | cons c u => exact ⟨c, u, rfl, by simpa [hd] using hhead⟩
  have htrim : trim t = (c :: u).rdropWhile isBlank := by rw [trim, hu]; rfl
  have hne : (c :: u).rdropWhile isBlank ≠ [] := by simp [List.rdropWhile_eq_nil_iff, hc]
  obtain ⟨k, hk⟩ := List.rdropWhile_prefix isBlank (c :: u)
  have hsplit : (c :: u).rdropWhile isBlank ++ (c :: u).rtakeWhile isBlank = c :: u := by
    rw [List.rdropWhile, List.rtakeWhile, ← List.reverse_append, List.takeWhile_append_dropWhile,
      List.reverse_reverse]
  refine ⟨t.takeWhile isBlank, (c :: u).rtakeWhile isBlank, ?_, fun c => List.mem_takeWhile_imp,
    fun c => List.mem_rtakeWhile_imp, ?_, ?_⟩
  · rw [List.append_assoc, htrim, hsplit, ← hu, List.takeWhile_append_dropWhile]
  · have hhead := congrArg List.head? hk
    rw [List.head?_append_of_ne_nil _ hne] at hhead
    simp [htrim, hhead, hc]
  · have hlast := List.rdropWhile_last_not isBlank (c :: u) hne
    simp only [htrim, List.getLast?_eq_getLast_of_ne_nil hne, Option.any_some]
    simpa using hlast

end Text

abbrev Cell := Token × Text

def inked (cs : List Cell) : List Cell :=
  (cs.filter fun c => !Text.isBlankText c.2).map fun c => (c.1, Text.trim c.2)

@[simp] theorem inked_append (a b : List Cell) : inked (a ++ b) = inked a ++ inked b := by
  simp [inked]

def Token.isRemark : Token → Bool
  | .lineComment _ => true
  | _ => false

/-- What may stand between the tokens of a text. -/
structure Rule where
  gap : Char → Bool
  blank : ∀ c, gap c = true → Text.isBlank c = true
  space : gap ' ' = true
  /-- The second token may follow the first one directly. -/
  tight : Token → Token → Bool
  /-- Nothing else follows on the line. -/
  lone : Token → Bool
  /-- The text may have several lines. -/
  wraps : Bool

namespace Rule

def loose : Rule := ⟨Text.isBlank, fun _ => id, rfl, fun _ _ => true, fun _ => false, true⟩

def free : Rule := { loose with lone := Token.isRemark, wraps := false }

def freePage : Rule := { free with wraps := true }

def line : Rule where
  gap c := c == ' '
  blank c h := by
    obtain rfl : c = ' ' := by simpa using h
    rfl
  space := rfl
  tight p q := !p.spaced q || q == .comma
  lone := Token.isRemark
  wraps := false

def page : Rule where
  gap c := c == ' ' || c == '\n'
  blank c h := by
    rcases (by simpa using h : c = ' ' ∨ c = '\n') with rfl | rfl <;> rfl
  space := rfl
  tight := line.tight
  lone := line.lone
  wraps := true

/-- The gap `g` may stand between the tokens, of which either may be missing. -/
def Between (R : Rule) (prev : Option Token) (g : Text) (next : Option Token) : Prop :=
  (∀ c ∈ g, R.gap c = true) ∧ ∀ p ∈ prev,
    (R.lone p = true → R.wraps = true ∧ g.head? = some '\n' ∨ g = [] ∧ next = none) ∧
      ∀ q ∈ next, g = [] → R.tight p q = true

end Rule

/-- The text shows the cells, in order, behind the token `prev`, with gaps around them. -/
inductive Line (R : Rule) : Option Token → List Cell → Text → Prop where
  | done {prev : Option Token} {g : Text} (hg : R.Between prev g none) : Line R prev [] g
  | cell {prev : Option Token} {g t : Text} {c : Cell} {cs : List Cell}
      (hg : R.Between prev g (some c.1)) (hc : Text.Solid c.2) (h : Line R (some c.1) cs t) :
      Line R prev (c :: cs) (g ++ c.2 ++ t)

namespace Line

variable {R : Rule} {prev : Option Token} {a b cs : List Cell} {s t g : Text}

theorem dropEndWhile {p : Char → Bool} (h : Line R prev cs t)
    (hp : ∀ c, p c = true → Text.isBlank c = true) : Line R prev cs (Text.dropEndWhile p t) := by
  induction h with
  | @done prev g hg =>
    have hpre := Text.dropEndWhile_prefix p g
    refine .done ⟨fun c hc => hg.1 c (hpre.subset hc), fun q hq => ⟨fun hl => ?_, by simp⟩⟩
    by_cases hne : Text.dropEndWhile p g = []
    · exact .inr ⟨hne, rfl⟩
    · obtain ⟨k, hk⟩ := hpre
      rcases (hg.2 q hq).1 hl with ⟨hw, hh⟩ | ⟨rfl, -⟩
      · refine .inl ⟨hw, ?_⟩
        rwa [← hk, List.head?_append_of_ne_nil _ hne] at hh
      · simp_all
  | cell hg hc _ ih =>
    rw [hc.dropEndWhile hp]
    exact .cell hg hc ih

theorem dropWhile (h : Line R none cs t) : Line R none cs (t.dropWhile Text.isBlank) := by
  cases h with
  | @done _ g hg =>
    refine .done ⟨fun c hc => hg.1 c ((List.dropWhile_suffix _).subset hc), by simp⟩
  | @cell _ g t c cs hg hc h =>
    rw [List.append_assoc, List.dropWhile_append_of_pos (fun d hd => R.blank d (hg.1 d hd)), hc.dropWhile]
    exact .cell (g := []) ⟨by simp, by simp⟩ hc h

theorem trim (h : Line R none cs t) : Line R none cs (Text.trim t) :=
  h.dropWhile.dropEndWhile fun _ => id

theorem nil_of_blank (h : Line R prev cs t) (ht : Text.isBlankText t = true) : cs = [] := by
  cases h with
  | done => rfl
  | @cell _ g t c _ _ hc => rw [hc.not_blank g t] at ht; cases ht

def lastToken (prev : Option Token) (a : List Cell) : Option Token :=
  a.foldl (fun _ c => some c.1) prev

theorem mem_of_lastToken {p : Token} (h : p ∈ lastToken none a) : ∃ c ∈ a, c.1 = p := by
  rcases List.eq_nil_or_concat a with rfl | ⟨b, c, rfl⟩
  · simp [lastToken] at h
  · exact ⟨c, by simp, by simpa [lastToken] using h⟩

theorem append (h : Line R prev a s) (h' : Line R none b t) (hg : ∀ c ∈ g, R.gap c = true)
    (hsep : ∀ p ∈ lastToken prev a,
      (R.lone p = true → R.wraps = true ∧ g.head? = some '\n' ∨ g ++ t = [] ∧ b = []) ∧
        ∀ q ∈ b.head?, g = [] → R.tight p q.1 = true) :
    Line R prev (a ++ b) (s ++ g ++ t) := by
  induction h with
  | @done prev g₀ h₀ =>
    have hhead : ∀ p ∈ prev, R.lone p = true → ∀ k,
        R.wraps = true ∧ (g₀ ++ g ++ k).head? = some '\n' ∨ g ++ t = [] ∧ b = [] ∧ g₀ = [] := by
      intro p hp hl k
      rcases (h₀.2 p hp).1 hl with ⟨hw, hh⟩ | ⟨rfl, -⟩
      · left; cases g₀ <;> simp_all
      · rcases (hsep p hp).1 hl with ⟨hw, hh⟩ | ⟨hgt, hb⟩
        · left; cases g <;> simp_all
        · exact .inr ⟨hgt, hb, rfl⟩
    cases h' with
    | done h₁ =>
      refine .done ⟨?_, fun p hp => ⟨fun hl => ?_, by simp⟩⟩
      · have := h₀.1; have := h₁.1; grind
      · rcases hhead p hp hl t with hh | ⟨hgt, -, rfl⟩
        · exact .inl hh
        · exact .inr ⟨by simpa using hgt, rfl⟩
    | @cell _ g₁ t c cs h₁ hc h =>
      have : Line R prev (c :: cs) (g₀ ++ g ++ g₁ ++ c.2 ++ t) := by
        refine .cell ⟨?_, fun p hp => ⟨fun hl => ?_, fun q hq hn => ?_⟩⟩ hc h
        · have := h₀.1; have := h₁.1; grind
        · rcases hhead p hp hl g₁ with hh | ⟨-, hb, -⟩
          · exact .inl hh
          · simp at hb
        · obtain rfl : c.1 = q := by simpa using hq
          exact (hsep p hp).2 c (by simp) (by simp_all)
      simpa using this
  | @cell prev g₀ t c cs h₀ hc h ih =>
    have := Line.cell h₀ hc (ih hsep)
    simpa using this

theorem gap (hg : ∀ c ∈ g, R.gap c = true) : Line R none [] g := .done ⟨hg, by simp⟩

theorem mono {S : Rule} (h : Line R prev cs t) (hgap : ∀ c, R.gap c = true → S.gap c = true)
    (htight : S.tight = R.tight) (hlone : S.lone = R.lone) (hwraps : S.wraps = true) :
    Line S prev cs t := by
  have hbetween : ∀ {p : Option Token} {g : Text} {q : Option Token}, R.Between p g q →
      S.Between p g q := by
    intro p g q hg
    refine ⟨fun c hc => hgap c (hg.1 c hc), fun u hu => ?_⟩
    rw [htight, hlone]
    exact ⟨fun hl => ((hg.2 u hu).1 hl).imp_left fun hn => ⟨hwraps, hn.2⟩, (hg.2 u hu).2⟩
  induction h with
  | done hg => exact .done (hbetween hg)
  | cell hg hc _ ih => exact .cell (hbetween hg) hc ih

end Line

/-- There is something to see in the cell, and a line comment has no blanks around it. -/
def Cell.Seen (c : Cell) : Prop :=
  Text.isBlankText c.2 = false ∧ (c.1.isRemark = true → Text.Solid c.2)

def Rule.Takes (R : Rule) (c : Cell) : Prop :=
  (R = .line → Text.Solid c.2) ∧ (R = .free → Cell.Seen c)

structure Rule.Fits (R : Rule) (cs : List Cell) : Prop where
  known : R = .loose ∨ R = .line ∨ R = .free
  takes : ∀ c ∈ cs, R.Takes c

theorem Rule.takes_of_solid {R : Rule} {c : Cell} (h : Text.Solid c.2) : R.Takes c :=
  ⟨fun _ => h, fun _ => ⟨by simpa using h.not_blank [] [], fun _ => h⟩⟩

theorem Rule.loose_takes (c : Cell) : Rule.loose.Takes c :=
  ⟨fun h => absurd (congrArg Rule.wraps h) (by decide),
    fun h => absurd (congrArg Rule.wraps h) (by decide)⟩

theorem Rule.free_takes {c : Cell} (h : Cell.Seen c) : Rule.free.Takes c :=
  ⟨fun hn => absurd (congrArg (Rule.gap · '\t') hn) (by decide), fun _ => h⟩

namespace Rule.Fits

variable {R : Rule} {cs ds : List Cell}

theorem of_subset (h : R.Fits cs) (hs : ds ⊆ cs) : R.Fits ds :=
  ⟨h.known, fun c hc => h.takes c (hs hc)⟩

theorem append (h : R.Fits cs) (h' : R.Fits ds) : R.Fits (cs ++ ds) :=
  ⟨h.known, fun c hc => (List.mem_append.1 hc).elim (h.takes c) (h'.takes c)⟩

theorem solid (h : R.Fits cs) {c : Cell} (hc : Text.Solid c.2) : R.Fits [c] :=
  ⟨h.known, by simpa using Rule.takes_of_solid hc⟩

theorem lone (h : R.Fits cs) {t : Token} (ht : t.isRemark = false) : R.lone t = false := by
  rcases h.known with rfl | rfl | rfl
  · rfl
  · exact ht
  · exact ht

end Rule.Fits

theorem Text.Solid.trim {t : Text} (h : Solid t) : Text.trim t = t := by
  have hd := h.dropWhile []
  have he := h.dropEndWhile (p := isBlank) (fun _ => id) [] []
  rw [List.append_nil] at hd
  rw [Text.trim, hd]
  simpa [trimEnd, Text.dropEndWhile] using he

theorem inked_of_solid {cs : List Cell} (h : ∀ c ∈ cs, Text.Solid c.2) : inked cs = cs := by
  induction cs with
  | nil => rfl
  | cons c cs ih =>
    have hc := h c (by simp)
    have hb := hc.not_blank [] []
    have := ih fun d hd => h d (by simp [hd])
    simp_all [inked, hc.trim]

theorem line_solid {R : Rule} {c : Cell} (h : Text.Solid c.2) : Line R none (inked [c]) c.2 := by
  have hend : Line R (some c.1) [] [] :=
    .done ⟨by simp, fun _ _ => ⟨fun _ => .inr ⟨rfl, rfl⟩, by simp⟩⟩
  have hline : Line R none [c] ([] ++ c.2 ++ []) := .cell ⟨by simp, by simp⟩ h hend
  rw [inked_of_solid (by simpa using h)]
  simpa using hline

/-- Where all blanks are gaps, a text stands for what there is to see in it. -/
theorem line_trimmed {R : Rule} {c : Cell} (hgap : ∀ d, Text.isBlank d = true → R.gap d = true)
    (hl : R.lone c.1 = false) : Line R none (inked [c]) c.2 := by
  by_cases hb : Text.isBlankText c.2 = true
  · rw [show inked [c] = [] by simp [inked, hb]]
    exact .gap fun d hd => hgap d (List.all_eq_true.1 hb d hd)
  · obtain ⟨g, k, ht, hg, hk, hs⟩ := Text.exists_trim (by simpa using hb)
    have hend : Line R (some c.1) [] k := .done ⟨fun d hd => hgap d (hk d hd), by simp [hl]⟩
    have hline : Line R none [(c.1, Text.trim c.2)] (g ++ Text.trim c.2 ++ k) :=
      .cell (c := (c.1, Text.trim c.2)) ⟨fun d hd => hgap d (hg d hd), by simp⟩ hs hend
    rwa [← ht, show [(c.1, Text.trim c.2)] = inked [c] by simp [inked, hb]] at hline

theorem line_cell {R : Rule} {c : Cell} (h : R.Fits [c]) : Line R none (inked [c]) c.2 := by
  have hc := h.takes c (by simp)
  rcases h.known with rfl | rfl | rfl
  · exact line_trimmed (fun _ => id) rfl
  · exact line_solid (hc.1 rfl)
  · by_cases hr : c.1.isRemark = true
    · exact line_solid ((hc.2 rfl).2 hr)
    · exact line_trimmed (fun _ => id) (eq_false_of_ne_true hr)

inductive Rows (R : Rule) : List Cell → List Text → Prop where
  | nil : Rows R [] []
  | cons {a b : List Cell} {t : Text} {ts : List Text} (h : Line R none a t) (hs : Rows R b ts) :
      Rows R (a ++ b) (t :: ts)

namespace Rows

variable {R : Rule} {a b cs : List Cell} {t g : Text} {ts us : List Text}

theorem single (h : Line R none a t) : Rows R a [t] := by simpa using Rows.cons h .nil

theorem append (h : Rows R a ts) (h' : Rows R b us) : Rows R (a ++ b) (ts ++ us) := by
  induction h with
  | nil => exact h'
  | cons h _ ih => simpa using Rows.cons h ih

theorem of_concat (h : Rows R cs (ts ++ [t])) :
    ∃ a b, cs = a ++ b ∧ Rows R a ts ∧ Line R none b t := by
  induction ts generalizing cs with
  | nil =>
    cases h with
    | @cons a _ _ _ hl hs =>
      cases hs
      exact ⟨[], a, by simp, .nil, hl⟩
  | cons u ts ih =>
    cases h with
    | @cons a _ _ _ hl hs =>
      obtain ⟨c, d, rfl, hc, hd⟩ := ih hs
      exact ⟨a ++ c, d, by simp, .cons hl hc, hd⟩

/-- Joined lines show what they showed, if no gap swallows what must stand alone. -/
theorem join (h : Rows R cs ts) (hg : ∀ c ∈ g, R.gap c = true) (hne : g ≠ [])
    (hl : R.wraps = true ∧ g.head? = some '\n' ∨ ∀ c ∈ cs, R.lone c.1 = false) :
    Line R none cs (Text.join g ts) := by
  induction h with
  | nil => exact .gap (by simp [Text.join])
  | @cons a b t ts h hs ih =>
    have hrest := ih (hl.imp_right fun hl c hc => hl c (by simp [hc]))
    cases ts with
    | nil =>
      cases hs
      simpa [Text.join] using h
    | cons u ts =>
      have := h.append hrest hg (fun p hp => ⟨fun hlone => ?_, fun _ _ hn => absurd hn hne⟩)
      · simpa [Text.join, List.intercalate_cons_cons] using this
      · rcases hl with hl | hl
        · exact .inl hl
        · obtain ⟨c, hc, rfl⟩ : ∃ c ∈ a, c.1 = p := Line.mem_of_lastToken hp
          simp [hl c (by simp [hc])] at hlone

theorem trim (h : Rows R cs ts) : Rows R cs ((ts.map Text.trim).filter fun t => !t.isEmpty) := by
  induction h with
  | nil => exact .nil
  | @cons a b t ts h hs ih =>
    have ht := h.trim
    by_cases hn : Text.trim t = []
    · obtain rfl : a = [] := ht.nil_of_blank (by simp [hn, Text.isBlankText])
      simpa [hn] using ih
    · simpa [hn] using Rows.cons ht ih

theorem collapse (h : Rows R cs ts) (hl : ∀ c ∈ cs, R.lone c.1 = false) :
    Line R none cs (collapse ts) :=
  h.trim.join (by simp [R.space]) (by simp) (.inr hl)

theorem mono {S : Rule} (h : Rows R cs ts) (hgap : ∀ c, R.gap c = true → S.gap c = true)
    (htight : S.tight = R.tight) (hlone : S.lone = R.lone) (hwraps : S.wraps = true) :
    Rows S cs ts := by
  induction h with
  | nil => exact .nil
  | cons h _ ih => exact .cons (h.mono hgap htight hlone hwraps) ih

end Rows

end SqlLayout

import SqlLayout.Proofs.Laid
import SqlLayout.Proofs.Sources

/-! A layout is read again as the tokens of the statement that was laid out. -/

set_option autoImplicit false

namespace SqlLayout

open Scan

theorem shapes_tokenize (x : Text) (h : ∀ t ∈ solid (tokenize x), t.Closed) :
    ∀ t ∈ solid (tokenize x), Shape t := by
  fun_induction tokenize x with
  | case1 => simp [solid]
  | case2 c cs hlen ih =>
    by_cases hg : (next c cs).1.isGap = true
    · simp only [solid, List.filter_cons, hg, Bool.not_true, Bool.false_eq_true, if_false] at h ⊢
      exact ih h
    · rw [Bool.not_eq_true] at hg
      simp only [solid, List.filter_cons, hg, Bool.not_false, if_true, List.mem_cons,
        forall_eq_or_imp] at h ⊢
      exact ⟨shape_next c cs hg h.1, ih h.2⟩

namespace Scan

def Reader.Inks (f : Reader) : Prop := ∀ cs, ∀ c ∈ (f cs).1, Text.isBlank c = false

theorem isBlank_of_isNumberChar {c : Char} (h : isNumberChar c = true) : Text.isBlank c = false := by
  rw [isNumberChar_iff] at h
  rw [← Bool.not_eq_true]
  simp only [Text.isBlank, Bool.or_eq_true, Bool.and_eq_true, decide_eq_true_eq, beq_iff_eq]
  omega

theorem Reader.Inks.andThen {f g : Reader} (hf : f.Inks) (hg : g.Inks) : (f.andThen g).Inks := by
  intro cs c hc
  simp only [Reader.andThen, List.mem_append] at hc
  rcases hc with hc | hc
  · exact hf cs c hc
  · exact hg _ c hc

theorem inks_digits : digits.Inks := fun _ _ hc =>
  isBlank_of_isNumberChar (isNumberChar_of_isDigit (List.mem_takeWhile_imp hc))

theorem inks_numberEnding : numberEnding.Inks := fun _ _ hc =>
  isBlank_of_isNumberChar (List.mem_takeWhile_imp hc)

theorem inks_fraction : fraction.Inks := by
  intro cs c hc
  unfold fraction at hc
  split at hc
  · split at hc
    · rcases List.mem_cons.1 hc with rfl | hc
      · rfl
      · exact inks_digits _ c hc
    · simp at hc
  · simp at hc

theorem inks_exponent : exponent.Inks := by
  intro cs c hc
  cases cs with
  | nil => simp [exponent] at hc
  | cons e r =>
    rw [exponent_cons] at hc
    split at hc
    · rename_i he
      simp only [List.cons_append, List.mem_cons, List.mem_append] at hc
      rcases hc with rfl | hc | hc
      · refine isBlank_of_isNumberChar ?_
        rcases (by simpa using he : (c = 'e' ∨ c = 'E') ∧ _).1 with rfl | rfl <;> rfl
      · unfold sign at hc
        split at hc
        · split at hc
          · rename_i hs
            obtain rfl : c = _ := by simpa using hc
            rcases (by simpa using hs : c = '+' ∨ c = '-') with rfl | rfl <;> rfl
          · simp at hc
        · simp at hc
      · exact inks_digits _ c hc
    · simp at hc

theorem inks_afterDigit : afterDigit.Inks :=
  ((inks_digits.andThen inks_fraction).andThen inks_exponent).andThen inks_numberEnding

theorem inks_afterPoint : afterPoint.Inks :=
  (inks_digits.andThen inks_exponent).andThen inks_numberEnding

end Scan

theorem Text.solid_of_ink {t : Text} (hne : t ≠ []) (h : ∀ c ∈ t, isBlank c = false) : Solid t := by
  constructor
  · obtain ⟨c, w, rfl⟩ := List.exists_cons_of_ne_nil hne
    simp [h c (by simp)]
  · simp [List.getLast?_eq_some_getLast hne, h _ (List.getLast_mem hne)]

theorem Quoted.close?_getLast {q : Char} {escapes : Bool} {t b a : Text}
    (h : close? q escapes t = some (b, a)) : b.getLast? = some q := by
  fun_induction close? q escapes t generalizing b a with
  | case1 => simp at h
  | case2 => simp at h
  | case3 c hc =>
    obtain ⟨rfl, -⟩ : [c] = b ∧ _ := by simpa using h
    simp_all
  | case4 c d rest hc ih =>
    obtain ⟨⟨b', a'⟩, hb, he⟩ := Option.map_eq_some_iff.1 h
    obtain ⟨rfl, -⟩ := Prod.mk.inj he
    have := ih hb
    simp_all [List.getLast?_cons]
  | case5 c d rest hc hq ih =>
    obtain ⟨⟨b', a'⟩, hb, he⟩ := Option.map_eq_some_iff.1 h
    obtain ⟨rfl, -⟩ := Prod.mk.inj he
    have := ih hb
    simp_all [List.getLast?_cons]
  | case6 c d rest hc hq hd ih =>
    obtain ⟨⟨b', a'⟩, hb, he⟩ := Option.map_eq_some_iff.1 h
    obtain ⟨rfl, -⟩ := Prod.mk.inj he
    have := ih hb
    simp_all [List.getLast?_cons]
  | case7 c d rest hc hq hd =>
    obtain ⟨rfl, -⟩ : [c] = b ∧ _ := by simpa using h
    simp_all

/-- A name or an operator neither begins nor ends with a blank. -/
def Token.Plain : Token → Prop
  | .identifier t | .operator t =>
    t.head?.any Text.isBlank = false ∧ t.getLast?.any Text.isBlank = false
  | _ => True

instance : DecidablePred Token.Plain
  | .identifier _ | .operator _ => inferInstanceAs (Decidable (_ ∧ _))
  | .keyword _ | .quotedName _ | .string _ | .number _ | .comma | .semicolon | .dot | .openParen
  | .closeParen | .lineComment _ | .blockComment _ | .gap _ => .isTrue trivial

theorem Text.solid_of_ends {c : Char} {w : Text} (h : (c :: w).head?.any isBlank = false ∧
    (c :: w).getLast?.any isBlank = false) : Solid (c :: w) := by
  have hne : c :: w ≠ [] := by simp
  refine ⟨by simpa using h.1, ?_⟩
  rw [List.getLast?_eq_some_getLast hne] at h ⊢
  simpa using h.2

theorem Text.solid_quotation {p b : Text} {q : Char} (hp : p.head?.any (!isBlank ·) = true)
    (hb : b.getLast? = some q) (hq : isBlank q = false) : Solid (p ++ b) := by
  have hne : b ≠ [] := by rintro rfl; simp at hb
  constructor
  · cases p with
    | nil => simp at hp
    | cons c p => simpa using hp
  · rw [List.getLast?_append_of_ne_nil _ hne, hb]
    simpa using hq

theorem Shape.tidy {t : Token} (h : Shape t) (hp : t.Plain) : t.Tidy := by
  have hclose : ∀ {p b : Text} {q : Char} {escapes : Bool}, p.head?.any (!Text.isBlank ·) = true →
      Quoted.close? q escapes b = some (b, []) → Text.isBlank q = false → Text.Solid (p ++ b) :=
    fun hp hb hq => Text.solid_quotation hp (Quoted.close?_getLast hb) hq
  cases h with
  | word => exact Text.solid_of_ends hp
  | bound => exact Text.solid_of_ends hp
  | parameter => exact Text.solid_of_ends hp
  | operator => exact Text.solid_of_ends hp
  | quoted hb => exact hclose (p := ['\'']) rfl hb rfl
  | @marked c b hc hb =>
    refine hclose (p := [c, '\'']) ?_ hb rfl
    simp only [Quoted.isMark, Bool.or_eq_true, beq_iff_eq] at hc
    rcases hc with ((((((rfl | rfl) | rfl) | rfl) | rfl) | rfl) | rfl) | rfl <;> rfl
  | @dollar tag body ht hb =>
    refine Text.solid_quotation (p := '$' :: tag ++ ['$'] ++ body) (q := '$') rfl ?_ rfl
    rw [List.getLast?_append_of_ne_nil _ (by simp)]
    rfl
  | @name q b hq hb =>
    rcases hq with rfl | rfl
    · exact hclose (p := ['"']) rfl hb rfl
    · exact hclose (p := ['\x60']) rfl hb rfl
  | @digit c w hc hw =>
    refine Text.solid_of_ink (by simp) ?_
    have hink := inks_afterDigit w
    rw [hw] at hink
    simpa using ⟨isBlank_of_isNumberChar (isNumberChar_of_isDigit hc), hink⟩
  | @point w hd hw =>
    refine Text.solid_of_ink (by simp) ?_
    have hink := inks_afterPoint w
    rw [hw] at hink
    have hdot : Text.isBlank '.' = false := rfl
    simpa using ⟨hdot, hink⟩
  | _ => trivial

/-- The token that stands for another in a layout: the names of functions are raised, and line
comments lose the blanks at their end. -/
def Token.settle (o : Options) : Token → Token
  | .identifier t => .identifier (if o.isFunction t then Text.upper t else t)
  | .lineComment t => .lineComment (Text.trimEnd t)
  | t => t

namespace Scan

theorem isWordStart_toUpper (c : Char) : isWordStart c.toUpper = isWordStart c := by
  have h := Text.toNat_toUpper c
  rw [Bool.eq_iff_iff, isWordStart_iff, isWordStart_iff]
  split at h <;> omega

theorem isWordChar_toUpper (c : Char) : isWordChar c.toUpper = isWordChar c := by
  have h := Text.toNat_toUpper c
  rw [Bool.eq_iff_iff, isWordChar_iff, isWordChar_iff, isWordStart_toUpper, isWordStart_iff]
  split at h <;> omega

theorem isTagChar_toUpper (c : Char) : Quoted.isTagChar c.toUpper = Quoted.isTagChar c := by
  have h := Text.toNat_toUpper c
  rw [Bool.eq_iff_iff, isTagChar_iff, isTagChar_iff]
  split at h <;> omega

end Scan

theorem Text.folded_toUpper (t : Text) : folded (t.map Char.toUpper) = folded t := by
  simp only [folded, List.map_map, Function.comp_def, toLower_toUpper]

theorem Shape.toUpper {t : Text} (h : Shape (.identifier t)) :
    Shape (.identifier (t.map Char.toUpper)) := by
  have hwords : ∀ {w : Text}, (∀ d ∈ w, isWordChar d = true) →
      ∀ d ∈ w.map Char.toUpper, isWordChar d = true := by
    intro w hw d hd
    obtain ⟨e, he, rfl⟩ := List.mem_map.1 hd
    rw [isWordChar_toUpper]
    exact hw e he
  cases h with
  | @word c w hc hw hk =>
    refine .word (by rwa [isWordStart_toUpper]) (hwords hw) ?_
    rw [← List.map_cons, Keyword.ofWord?_congr (Text.folded_toUpper (c :: w)), hk]
  | bound hc hw => exact .bound (by rwa [isWordStart_toUpper]) (hwords hw)
  | @parameter w hne hw hd =>
    refine .parameter (by simpa using hne) (hwords hw) ?_
    rw [List.dropWhile_map, Function.comp_def]
    simp only [isTagChar_toUpper]
    rw [List.head?_map, ne_eq, Option.map_eq_some_iff]
    rintro ⟨c, hc, hu⟩
    obtain rfl : c = '$' := by
      have h := Text.toNat_toUpper c
      rw [hu] at h
      rw [← Char.toNat_inj]
      split at h <;> simp only [Char.reduceToNat] at h ⊢ <;> omega
    exact hd hc

section

variable {o : Options} {t : Token}

theorem Shape.settle (h : Shape t) (ha : ∀ u, t = .identifier u → o.isFunction u = true →
    ∀ c ∈ u, Text.isAscii c = true) : Shape (t.settle o) := by
  cases t with
  | identifier u =>
    simp only [Token.settle]
    split
    · rename_i hf
      rw [Text.upper_ascii (ha u rfl hf)]
      exact h.toUpper
    · exact h
  | lineComment u =>
    cases h with
    | lineComment hn =>
      exact .lineComment fun hm => hn ((Text.dropEndWhile_prefix _ u).subset hm)
  | _ => exact h

theorem Token.words_settle (ha : ∀ u, t = .identifier u → o.isFunction u = true →
    ∀ c ∈ u, Text.isAscii c = true) : (t.settle o).words = t.words := by
  cases t with
  | identifier u =>
    simp only [Token.settle, Token.words]
    split
    · rename_i hf
      rw [Text.upper_ascii (ha u rfl hf), Text.folded_toUpper]
    · rfl
  | _ => rfl

theorem Token.spells_render {flat : Bool} {prev : Option Token}
    (hs : ∀ u, t = .string u → flat = true → '\n' ∉ u ∧ '\r' ∉ u) :
    (t.settle o).Spells (t.render o flat prev) := by
  cases t with
  | keyword k =>
    simp only [Token.settle, Token.Spells, Token.render]
    split
    · exact .inr rfl
    · exact .inl rfl
  | string u =>
    simp only [Token.settle, Token.Spells, Token.render]
    split
    · rename_i hf
      obtain ⟨hn, hr⟩ := hs u rfl hf
      refine List.filter_eq_self.2 fun c hc => ?_
      have : c ≠ '\n' ∧ c ≠ '\r' := ⟨by rintro rfl; exact hn hc, by rintro rfl; exact hr hc⟩
      simpa using this
    · rfl
  | _ => rfl

theorem stops_settle {x : Text} : Stops (t.settle o) x ↔ Stops t x := by
  cases t <;> rfl

theorem Token.Spells.typed {r : Text} (h : t.Spells r) : t.Typed r := by
  cases t with
  | keyword k =>
    refine Respaced.of_folded ?_
    rcases h with rfl | rfl
    · rfl
    · exact Text.folded_folded _
  | _ => exact h

/-- A token of some shape is read from what it is typed as, before what stops it. -/
theorem Shape.read {r x : Text} (h : Shape t) (hx : Stops t x) (hr : t.Typed r) : Reads r t x := by
  by_cases hk : ∃ k, t = .keyword k
  · obtain ⟨k, rfl⟩ := hk
    exact reads_keyword hr hx
  · refine h.reads hx ?_ fun k hn => hk ⟨k, hn⟩
    cases t <;> first | exact hr | simp at hk

end

/-- The tokens of a statement that its layout does not run together. -/
structure Readable (o : Options) (ts : List Token) : Prop where
  shape : ∀ t ∈ ts, Shape (t.settle o)
  words : ∀ t ∈ ts, (t.settle o).words = t.words
  unextended : Unextended ts
  touches : ∀ {l r : List Token} {p q : Token}, ts = l ++ p :: q :: r → p.spaced q = false →
    (p = .dot ∨ ∃ t, p = .operator t) → ∀ {x : Text}, (q.settle o).Spells x → Stops p x

theorem Readable.tail {o : Options} {t : Token} {ts : List Token} (h : Readable o (t :: ts)) :
    Readable o ts where
  shape u hu := h.shape u (by simp [hu])
  words u hu := h.words u (by simp [hu])
  unextended := h.unextended.tail
  touches he := h.touches (l := t :: _) (by rw [he]; rfl)

def Shown (o : Options) (t : Token) (c : Cell) : Prop := c.1 = t ∧ (t.settle o).Spells c.2

theorem startsWithDigit_of_dot {x : Text} {ts : List Token}
    (h : solid (tokenize ('.' :: x)) = .dot :: ts) : startsWithDigit x = false := by
  rw [← Bool.not_eq_true]
  intro hd
  have hnext : next '.' x = (.number ('.' :: (afterPoint x).1), (afterPoint x).2) := by
    change (if startsWithDigit x = true then _ else _) = _
    rw [if_pos hd]
  rw [tokenize_cons, hnext, solid, List.filter_cons_of_pos rfl] at h
  cases h

namespace Readable

variable {o : Options} {p : Token} {ts : List Token} {cells : List Cell} {x : Text}

theorem unextended_of (h : Readable o (p :: ts))
    (hx : solid (tokenize x) = ts.map (Token.settle o)) : p.Unextended x := by
  refine h.unextended.head ?_
  rw [SqlLayout.words, hx, List.flatMap_map]
  exact List.flatMap_congr fun t ht => h.words t (by simp [ht])

theorem stops_touching {q : Token} {r : Text} (h : Readable o (p :: q :: ts))
    (hremark : p.isRemark = false) (ht : Rule.page.tight p q = true)
    (hr : (q.settle o).Spells r) (hne : r ≠ [])
    (hx : solid (tokenize (r ++ x)) = (q :: ts).map (Token.settle o)) : Stops p (r ++ x) := by
  by_cases hatom : p.isAtom = true
  · have hq := tight_atom hatom ht
    have hsettle : q.settle o = q := by
      simp only [List.mem_cons, List.not_mem_nil, or_false] at hq
      rcases hq with rfl | rfl | rfl | rfl | rfl | rfl | rfl | rfl <;> rfl
    rw [hsettle] at hr
    refine stops_tight hatom ht hr (h.unextended_of hx) ?_
    rintro rfl
    obtain rfl : r = ['.'] := hr
    exact startsWithDigit_of_dot hx
  by_cases hmark : p = .dot ∨ ∃ t, p = .operator t
  · by_cases hspaced : p.spaced q = false
    · exact (h.touches (l := []) rfl hspaced hmark hr).extend hmark hne
    · obtain rfl : q = .comma := by simpa [Rule.page, Rule.line, hspaced] using ht
      obtain rfl : r = [','] := hr
      refine stops_comma ?_ hmark
      have hshape := h.shape p (by simp)
      rcases hmark with rfl | ⟨t, rfl⟩ <;> exact hshape
  · cases p with
    | lineComment => simp [Token.isRemark] at hremark
    | dot => simp at hmark
    | operator => simp at hmark
    | keyword | identifier | string | quotedName | number => simp [Token.isAtom] at hatom
    | _ => trivial

/-- What the layout writes behind a token stops it. -/
theorem stops (h : Readable o (p :: ts)) (hl : Line .page (some p) cells x)
    (hc : List.Forall₂ (Shown o) ts cells)
    (hx : solid (tokenize x) = ts.map (Token.settle o)) : Stops (p.settle o) x := by
  have hlone : (p.settle o).isRemark = true → Rule.page.lone p = true := by
    cases p <;> exact id
  have hext : (p.settle o).Unextended x := by
    intro k hk
    refine h.unextended_of hx k ?_
    cases p <;> first | exact hk | cases hk
  have hgap : ∀ {g : Text} {q : Option Token}, Rule.page.Between (some p) g q →
      x.head? = g.head? → Stops (p.settle o) x := by
    rintro g q ⟨hg, hb⟩ hhead
    refine stops_gap (h.shape p (by simp)) (fun d hd => ?_) (fun hr d hd => ?_) hext
    · rw [hhead] at hd
      exact Rule.isGap_of_page (hg d (List.mem_of_head? hd))
    · rw [hhead] at hd
      rcases (hb p rfl).1 (hlone hr) with ⟨-, hn⟩ | ⟨rfl, -⟩
      · rw [hn] at hd
        simpa [eq_comm] using hd
      · simp at hd
  cases hl with
  | @done _ g hg => exact hgap hg rfl
  | @cell _ g t c cs hg hsolid hl =>
    cases hc with
    | @cons q _ ts _ hq hc =>
      obtain ⟨rfl, hspell⟩ := hq
      by_cases hg' : g = []
      · subst hg'
        obtain ⟨hb, htight⟩ := hg.2 p rfl
        rw [List.nil_append] at hx ⊢
        have hne : c.2 ≠ [] := by
          obtain ⟨d, w, hd, -⟩ := hsolid.starts
          simp [hd]
        rw [stops_settle]
        refine h.stops_touching ?_ (htight c.1 rfl rfl) hspell hne hx
        rw [← Bool.not_eq_true]
        intro hr
        rcases hb hr with hn | ⟨-, hn⟩ <;> simp at hn
      · refine hgap hg ?_
        rw [List.append_assoc, List.head?_append_of_ne_nil _ hg']

theorem solid_of_line {prev : Option Token} (h : Readable o ts) (hl : Line .page prev cells x)
    (hc : List.Forall₂ (Shown o) ts cells) :
    solid (tokenize x) = ts.map (Token.settle o) := by
  have hgap : ∀ {g : Text}, (∀ c ∈ g, Rule.page.gap c = true) → ∀ c ∈ g, Text.isGap c = true :=
    fun hg c hc => Rule.isGap_of_page (hg c hc)
  induction hl generalizing ts with
  | @done prev g hg =>
    cases hc
    have := solid_gap (hgap hg.1) []
    simpa [tokenize, solid] using this
  | @cell prev g t c cs hg hsolid hl ih =>
    cases hc with
    | @cons q _ ts _ hq hc =>
      obtain ⟨rfl, hspell⟩ := hq
      have hrest := ih h.tail hc
      have hshape := h.shape c.1 (by simp)
      have hreads := hshape.read (h.stops hl hc hrest) hspell.typed
      have hsolid' : (c.1.settle o).isGap = false := by
        cases hshape' : c.1.settle o <;> first | rfl | (rw [hshape'] at hshape; cases hshape)
      rw [List.append_assoc, solid_gap (hgap hg.1), hreads.tokenize, solid,
        List.filter_cons_of_pos (by simpa using hsolid'), ← solid, hrest]
      rfl

end Readable

/-- No two tokens of the list that are written side by side, where `prev` stands before it, are
read as something else. -/
def Apart (o : Options) : Option Token → List Token → Prop
  | prev, p :: q :: ts => (p.isRemark = false → p.spaced q = false →
      solid (tokenize (p.render o false prev ++ q.render o false (some p))) =
        [p.settle o, q.settle o]) ∧ Apart o (some p) (q :: ts)
  | _, _ => True

def Apart.decide (o : Options) : (prev : Option Token) → (ts : List Token) →
    Decidable (Apart o prev ts)
  | _, [] => .isTrue trivial
  | _, [_] => .isTrue trivial
  | _, p :: q :: ts =>
    have := Apart.decide o (some p) (q :: ts)
    inferInstanceAs (Decidable (_ ∧ _))

instance (o : Options) (prev : Option Token) (ts : List Token) : Decidable (Apart o prev ts) :=
  Apart.decide o prev ts

theorem Apart.pair {o : Options} {prev : Option Token} {ts l r : List Token} {p q : Token}
    (h : Apart o prev ts) (hts : ts = l ++ p :: q :: r) : ∃ prev', Apart o prev' (p :: q :: r) := by
  subst hts
  induction l generalizing prev with
  | nil => exact ⟨prev, h⟩
  | cons t l ih =>
    cases l with
    | nil => exact ih h.2
    | cons u l => exact ih h.2

theorem stops_of_solid {t r : Text} {ts : List Token} (ht : Shape (.operator t))
    (h : solid (tokenize (t ++ r)) = .operator t :: ts) : Stops (.operator t) r := by
  cases ht with
  | @operator c w hw =>
    have hgap : Text.isGap c = false := by rw [← isGap_next c w, hw]; rfl
    have hsolid : (next c (w ++ r)).1.isGap = false := by rw [isGap_next, hgap]
    rw [List.cons_append, tokenize_cons, solid, List.filter_cons_of_pos (by simpa using hsolid)] at h
    obtain ⟨hfirst, -⟩ := List.cons.inj h
    refine ⟨c, w, rfl, ?_⟩
    have hnext : next c (w ++ r) = (.operator (c :: w), (next c (w ++ r)).2) := Prod.ext hfirst rfl
    obtain ⟨s, hs, hsource⟩ := next_source c (w ++ r)
    rw [hfirst] at hsource
    obtain rfl : s = c :: w := hsource
    have hrest : (c :: w) ++ r = (c :: w) ++ (next c (w ++ r)).2 := hs
    rw [hnext, ← List.append_cancel_left hrest]

theorem reads_tight {t x : Text} (ht : (Token.operator t).isTight = true)
    (hx : x.head? ≠ some '>') : Reads t (.operator t) x := by
  simp only [Token.isTight, Bool.or_eq_true, beq_iff_eq] at ht
  rcases ht with (rfl | rfl) | rfl
  · exact ⟨_, _, rfl, rfl⟩
  · exact ⟨_, _, rfl, operator_arrow hx⟩
  · exact ⟨_, _, rfl, rfl⟩

theorem keyword_head {k : Keyword} {r : Text} (hr : Text.folded r = Text.folded k.text) :
    r.head?.any isWordStart = true := by
  obtain ⟨hfirst, htext⟩ := Keyword.text_opening k k.mem_words
  obtain ⟨c, w, hc, -, hstart, -⟩ :=
    Keyword.of_isLongWord (Keyword.single_word _ hfirst).1
  rw [Text.head_isWordStart hr, htext, hc]
  simpa using hstart

theorem tight_of_keyword {t : Text} {k : Keyword}
    (h : (Token.operator t).spaced (.keyword k) = false) : (Token.operator t).isTight = true := by
  by_contra hn
  rw [Bool.not_eq_true] at hn
  simp only [Token.spaced, Token.joinsComparison, hn] at h
  simp [Token.isTight] at h

theorem stops_keyword {p : Token} {k : Keyword} {r : Text} (hp : p = .dot ∨ ∃ t, p = .operator t)
    (hs : p.spaced (.keyword k) = false) (hr : (Token.keyword k).Spells r) : Stops p r := by
  have hhead : r.head?.any isWordStart = true := by
    refine keyword_head (k := k) ?_
    rcases hr with rfl | rfl
    · rfl
    · exact Text.folded_folded _
  rcases hp with rfl | ⟨t, rfl⟩
  · cases r with
    | nil => rfl
    | cons c r =>
      have hc := (isWordStart_iff c).1 (by simpa using hhead)
      change c.isDigit = false
      rw [← Bool.not_eq_true, isDigit_iff]
      omega
  · refine reads_tight (tight_of_keyword hs) ?_
    intro he
    rw [he] at hhead
    exact absurd hhead (by decide)

theorem Apart.stops {o : Options} {prev : Option Token} {ts l r : List Token} {p q : Token}
    (h : Apart o prev ts) (hshape : ∀ t ∈ ts, Shape (t.settle o)) (hts : ts = l ++ p :: q :: r)
    (hs : p.spaced q = false) (hp : p = .dot ∨ ∃ t, p = .operator t) {x : Text}
    (hx : (q.settle o).Spells x) : Stops p x := by
  by_cases hk : ∃ k, q = .keyword k
  · obtain ⟨k, rfl⟩ := hk
    exact stops_keyword hp hs hx
  obtain ⟨prev', hpair, -⟩ := h.pair hts
  have hremark : p.isRemark = false := by rcases hp with rfl | ⟨t, rfl⟩ <;> rfl
  have hread := hpair hremark hs
  have hx' : q.render o false (some p) = x := by
    have hr : (q.settle o).Spells (q.render o false (some p)) := Token.spells_render (by simp)
    cases q <;> first | exact hr.trans hx.symm | simp at hk
  rw [hx'] at hread
  rcases hp with rfl | ⟨t, rfl⟩
  · exact startsWithDigit_of_dot hread
  · exact stops_of_solid (hshape (.operator t) (by simp [hts])) hread

theorem tryFormat_ok {o : Options} {sql out : String} (h : tryFormat o sql = .ok out) :
    formatTokens o (tokenize sql.toList) sql.toList = .ok out.toList := by
  unfold tryFormat at h
  split at h
  · rename_i t ht
    obtain rfl : String.ofList t = out := by simpa using h
    simpa using ht
  · simp at h

theorem exists_of_bind {ε α β : Type} {x : Except ε α} {f : α → Except ε β} {b : β}
    (h : x >>= f = .ok b) : ∃ a, x = .ok a ∧ f a = .ok b := by
  cases x with
  | error e => cases h
  | ok a => exact ⟨a, rfl, h⟩

theorem formatTokens_statement {o : Options} {tokens : List Token} {source : Text}
    (hc : isCommand (solid tokens) = false) : formatTokens o tokens source =
      if (solid tokens).isEmpty then .ok []
      else do
        checkQuotes (solid tokens)
        checkBalance 0 (solid tokens)
        let items ← arrange o.nestingLimit o.nestingLimit .statement (solid tokens)
        return (writeAll o false items .blank).text := by
  unfold formatTokens
  change (if (solid tokens).isEmpty = true then _ else
    if isCommand (solid tokens) = true then _ else _) = _
  rw [hc]
  rfl

/-- What a statement is laid out from, when it is no client command. -/
theorem formatTokens_ok {o : Options} {tokens : List Token} {source out : Text}
    (h : formatTokens o tokens source = .ok out) (hc : isCommand (solid tokens) = false) :
    solid tokens = [] ∧ out = [] ∨ solid tokens ≠ [] ∧ checkQuotes (solid tokens) = .ok () ∧
      checkBalance 0 (solid tokens) = .ok () ∧
      ∃ items, arrange o.nestingLimit o.nestingLimit .statement (solid tokens) = .ok items ∧
        out = (writeAll o false items .blank).text := by
  rw [formatTokens_statement hc] at h
  split at h
  · rename_i he
    exact .inl ⟨by simpa using he, by simpa using h.symm⟩
  · rename_i hne
    obtain ⟨_, hq, h⟩ := exists_of_bind h
    obtain ⟨_, hb, h⟩ := exists_of_bind h
    obtain ⟨items, hi, h⟩ := exists_of_bind h
    exact .inr ⟨by simpa using hne, hq, hb, items, hi, by simpa [pure, Except.pure] using h.symm⟩

theorem shown_of_rendered {o : Options} {ms : List (Bool × Token)} {cs : List Cell}
    {before : List Token} (hr : List.Forall₂ (Rendered o) ms cs)
    (hf : Faithful before (ms.map Prod.snd) ms)
    (hs : ∀ l x r, ms.map Prod.snd = l ++ .string x :: r → Enclosed (before.reverse ++ l) r →
      '\n' ∉ x ∧ '\r' ∉ x) : List.Forall₂ (Shown o) (ms.map Prod.snd) cs := by
  induction hr generalizing before with
  | nil => exact .nil
  | @cons m c ms cs hm _ ih =>
    refine .cons ⟨hm.1, ?_⟩ (ih hf.tail fun l x r hl he => ?_)
    · obtain ⟨-, prev, hp⟩ := hm
      rw [hp]
      refine Token.spells_render fun x hx hflat => hs [] x (ms.map Prod.snd) (by simp [hx]) ?_
      refine hf.flat (l := []) (r := ms) (x := x) ?_
      rw [List.nil_append, ← hx, ← hflat]
    · refine hs (m.2 :: l) x r (by simp [hl]) ?_
      simpa using he

/-- A layout keeps the tokens: read again, it has those of the statement, one for one and in order,
with the names of functions raised and the ends of line comments trimmed. -/
theorem tokens_kept (o : Options) (sql out : String)
    (hcommand : isCommand (solid (tokenize sql.toList)) = false) (hout : tryFormat o sql = .ok out)
    (hplain : ∀ t ∈ solid (tokenize sql.toList), t.Plain)
    (hfenced : Fenced (solid (tokenize sql.toList)))
    (hdots : Undotted (solid (tokenize sql.toList)))
    (hstrings : ∀ l x r, solid (tokenize sql.toList) = l ++ .string x :: r → Enclosed l r →
      '\n' ∉ x ∧ '\r' ∉ x)
    (hnames : ∀ t, .identifier t ∈ solid (tokenize sql.toList) → o.isFunction t = true →
      ∀ c ∈ t, Text.isAscii c = true)
    (hapart : Apart o none (solid (tokenize sql.toList))) :
    solid (tokenize out.toList) = (solid (tokenize sql.toList)).map (Token.settle o) := by
  rcases formatTokens_ok (tryFormat_ok hout) hcommand with
    ⟨hnil, hout⟩ | ⟨-, hquotes, -, items, hitems, hout⟩
  · rw [hnil, hout]
    simp [tokenize, solid]
  have hshape := shapes_tokenize _ (closed_of_checkQuotes hquotes)
  have hext := unextended_tokenize sql.toList
  generalize solid (tokenize sql.toList) = ts at *
  have hgap : ∀ t ∈ ts, t.isGap = false := fun t ht => by
    cases hshape t ht <;> rfl
  have hascii : ∀ t ∈ ts, ∀ u, t = .identifier u → o.isFunction u = true →
      ∀ c ∈ u, Text.isAscii c = true := by
    rintro t ht u rfl
    exact hnames u ht
  have hsettled : ∀ t ∈ ts, Shape (t.settle o) := fun t ht => (hshape t ht).settle (hascii t ht)
  have hreadable : Readable o ts :=
    ⟨hsettled, fun t ht => Token.words_settle (hascii t ht), hext,
      fun he hs hp _ hx => hapart.stops hsettled he hs hp hx⟩
  have hfaithful := nestedFaithful_arrange o.nestingLimit o.nestingLimit
    (p := .statement) hfenced.stretch hdots hitems
  have hsolid : ∀ m ∈ Item.allMarked false items, ∀ prev, Text.Solid (m.2.render o m.1 prev) := by
    intro m hm prev
    have hmem : m.2 ∈ ts := hfaithful.tokens ▸ List.mem_map_of_mem hm
    exact ((hshape m.2 hmem).tidy (hplain m.2 hmem)).solid (hgap m.2 hmem) o m.1 prev
  obtain ⟨cs, hr, hline⟩ := line_writeAll hitems hsolid
  have hmarks : Faithful [] ((Item.allMarked false items).map Prod.snd)
      (Item.allMarked false items) := by
    rwa [hfaithful.tokens]
  have hshown := shown_of_rendered hr hmarks (by
    rw [hfaithful.tokens]
    simpa using hstrings)
  rw [hfaithful.tokens] at hshown
  rw [hout]
  exact hreadable.solid_of_line hline hshown

/-- A function name that is raised, a keyword after a dot, a cast, a string and a comment. -/
theorem tokens_kept_sample : ∃ out, tryFormat { functions := [['M', 'A', 'X']] }
      "select max(a.order),'x'::t -- c " = .ok out ∧
    solid (tokenize out.toList) = [.keyword .SELECT, .identifier ['M', 'A', 'X'], .openParen,
      .identifier ['a'], .dot, .keyword .ORDER, .closeParen, .comma, .string ['\'', 'x', '\''],
      .operator [':', ':'], .identifier ['t'], .lineComment [' ', 'c']] := by
  have hout : tryFormat { functions := [['M', 'A', 'X']] } "select max(a.order),'x'::t -- c " =
      .ok "SELECT MAX(a.order),\n       'x'::t\n       -- c" := by decide +kernel
  have hts : solid (tokenize "select max(a.order),'x'::t -- c ".toList) = [.keyword .SELECT,
      .identifier ['m', 'a', 'x'], .openParen, .identifier ['a'], .dot, .keyword .ORDER,
      .closeParen, .comma, .string ['\'', 'x', '\''], .operator [':', ':'], .identifier ['t'],
      .lineComment [' ', 'c', ' ']] := by decide +kernel
  refine ⟨_, hout, ?_⟩
  have := tokens_kept _ _ _ (by rw [hts]; rfl) hout (by rw [hts]; decide) (by rw [hts]; decide)
    (by rw [hts]; decide) (fun l x r hl _ => ?_) (fun t ht _ => ?_) (by rw [hts]; decide +kernel)
  · rw [this, hts]
    decide +kernel
  · have hx : .string x ∈ l ++ .string x :: r := by simp
    rw [← hl, hts] at hx
    obtain rfl : x = ['\'', 'x', '\''] := by simpa using hx
    decide
  · rw [hts] at ht
    have : t = ['m', 'a', 'x'] ∨ t = ['a'] ∨ t = ['t'] := by simpa using ht
    rcases this with rfl | rfl | rfl <;> simp [Text.isAscii]

end SqlLayout

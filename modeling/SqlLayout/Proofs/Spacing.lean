import SqlLayout.Proofs.Retyping

/-! Tokens that are written side by side. Of the pairs that need no space, which are read again as the
two tokens that they are, and which run together.
-/

set_option autoImplicit false

namespace SqlLayout

open Scan

/-- The pairs that need no space by the rule, but do by the way they are read: a point before digits
is part of their number, an arrow and a colon take on another character, and two dashes begin a
comment. -/
def Token.fuses : Token → Token → Bool
  | .dot, .number t => startsWithDigit t
  | .operator t, .operator u =>
    t == ['-', '>'] && (u == ['>'] || u == ['>', '=']) ||
    t == [':'] && u == [':', ':'] ||
    t == ['-'] && (u == ['-', '>'] || u == ['-', '>', '>'])
  | _, _ => false

theorem Token.spells_written {o : Options} (ho : o.functions = []) {t : Token}
    (ht : t.isRemark = false) (prev : Option Token) : t.Spells (t.render o false prev) := by
  have hsettle : t.settle o = t := by
    cases t with
    | identifier u => simp [Token.settle, Options.isFunction, ho]
    | lineComment u => simp [Token.isRemark] at ht
    | _ => rfl
  have hspells : (t.settle o).Spells (t.render o false prev) := Token.spells_render (by simp)
  rwa [hsettle] at hspells

theorem Lexed.part {l ts r : List Token} (h : Lexed (l ++ ts ++ r)) : Lexed ts where
  solid t ht := h.solid t (by simp [ht])
  unextended := by
    intro a k b hts e he hpre
    refine h.unextended (l ++ a) k (b ++ r) (by simp [hts]) e he ?_
    rw [List.flatMap_append]
    exact hpre.trans (List.prefix_append _ _)
  shape := by
    intro a t b hts
    rcases h.shape (l ++ a) t (b ++ r) (by simp [hts]) with hs | ⟨hnil, hr⟩
    · exact .inl hs
    · exact .inr ⟨(List.append_eq_nil_iff.1 hnil).1, hr⟩

theorem Lexed.reads_last {t : Token} {u : Text} (h : Lexed [t]) (hu : t.Typed u) : Reads u t [] := by
  have hext : t.Unextended [] := h.unextended.head (by simp [words, tokenize, SqlLayout.solid])
  rcases h.shape [] t [] rfl with hs | ⟨-, hr⟩
  · exact hs.read (stops_gap hs (by simp) (by simp) hext) hu
  · exact hr u hu

def marks : List Text :=
  [['.'], [')'], [','], [';'], [':', ':'], ['-', '>'], ['-', '>', '>']]

theorem mem_marks {t v : Text} {q : Token} (ht : (Token.operator t).isTight = false)
    (hj : (Token.operator t).joinsComparison q = false)
    (h : (Token.operator t).spaced q = false) (hv : q.Spells v) :
    v ∈ marks ∧ (Token.operator t).fuses (.operator v) = (Token.operator t).fuses q := by
  have hq : q = .dot ∨ q = .closeParen ∨ q = .comma ∨ q = .semicolon ∨ q.isTight = true := by
    by_contra hn
    simp only [not_or, Bool.not_eq_true] at hn
    obtain ⟨hdot, hclose, hcomma, hsemi, hqt⟩ := hn
    simp only [Token.spaced, hj, ht, hqt, hdot, hclose, hcomma, hsemi] at h
    simp at h
  rcases hq with rfl | rfl | rfl | rfl | hqt
  · simp [marks, Token.fuses, show v = ['.'] from hv]
  · simp [marks, Token.fuses, show v = [')'] from hv]
  · simp [marks, Token.fuses, show v = [','] from hv]
  · simp [marks, Token.fuses, show v = [';'] from hv]
  · cases q with
    | operator u =>
      obtain rfl : v = u := hv
      rcases (by simpa [Token.isTight, or_assoc] using hqt :
        v = [':', ':'] ∨ v = ['-', '>'] ∨ v = ['-', '>', '>']) with rfl | rfl | rfl <;>
        simp [marks]
    | _ => simp [Token.isTight] at hqt

theorem next_long_mark : ∀ o ∈ longOperators, ∀ v ∈ marks,
    next (o.headD ' ') (o.tail ++ v) = (.operator o, v) := by
  decide

theorem marks_start : ∀ v ∈ marks, startsWord v = false ∧ (v.head? == some '*') = false ∧
    (v.head? = some '-' → v = ['-', '>'] ∨ v = ['-', '>', '>']) ∧
    (∀ o ∈ longOperators, o.tail.isPrefixOf v = true → o = [':', ':'] ∧ v = [':', ':']) := by
  decide

/-- An operator of one character takes on nothing of a mark, except a colon and a dash. -/
theorem next_single_mark {c : Char} {v : Text} (hc : next c [] = (.operator [c], []))
    (hv : v ∈ marks) (hf : Token.fuses (.operator [c]) (.operator v) = false) :
    next c v = (.operator [c], v) := by
  obtain ⟨hstart, hstar, hdash, hlong⟩ := marks_start v hv
  revert hc
  fun_cases next c []
  case case6 h =>
    obtain rfl : c = '$' := by simpa using h
    intro _
    simp only [marks, List.mem_cons, List.not_mem_nil, or_false] at hv
    rcases hv with rfl | rfl | rfl | rfl | rfl | rfl | rfl <;> rfl
  case case15 =>
    unfold word
    rw [Reader.run, List.takeWhile_nil, List.dropWhile_nil]
    simp only [ofWord?_singleton]
    intro hc
    cases hc
  case case16 h1 h2 h3 h4 h5 h6 h7 h8 h9 h10 h11 h12 h13 h14 h15 =>
    intro _
    have hcomment : (c == '-' && v.head? == some '-') = false := by
      by_contra hn
      obtain ⟨rfl, hhead⟩ : c = '-' ∧ v.head? = some '-' := by simpa using hn
      rcases hdash hhead with rfl | rfl <;> simp [Token.fuses] at hf
    have hnone : longOperators.find? (fun o => o.isPrefixOf (c :: v)) = none := by
      refine List.find?_eq_none.2 fun o ho hpre => ?_
      cases o with
      | nil => simp [longOperators_eq] at ho
      | cons d o =>
        obtain ⟨rfl, hrest⟩ : d = c ∧ o.isPrefixOf v = true := by
          simpa [List.isPrefixOf] using hpre
        obtain ⟨ho, rfl⟩ := hlong _ ho hrest
        obtain ⟨rfl, -⟩ := List.cons.inj ho
        simp [Token.fuses] at hf
    unfold next
    simp [hcomment, hstar, hstart, h1, h4, h5, h6, h7, h9, h10, h11, h12, h13, h15, operator, hnone]
  case case3 h => simp at h
  all_goals
    intro hc
    cases hc

theorem operator_eq {c : Char} {w : Text} (h : next c w = (.operator (c :: w), [])) :
    w = [] ∨ c :: w ∈ longOperators := by
  revert h
  fun_cases next c w
  case case3 => unfold Scan.blockComment; split <;> intro h <;> cases h
  case case6 =>
    unfold dollar
    split
    · split <;> intro h <;> cases h
    · split
      · intro h
        exact .inl (by simp_all)
      · intro h
        cases h
  case case15 =>
    unfold word
    split
    · split <;> intro h <;> cases h
    · split
      · unfold Scan.keyword; split <;> intro h <;> cases h
      · intro h
        cases h
  case case16 =>
    unfold operator
    split
    · rename_i o ho
      intro h
      obtain ⟨rfl, -⟩ : o = c :: w ∧ _ := by simpa using h
      exact .inr (List.mem_of_find?_eq_some ho)
    · intro h
      exact .inl (by simpa using h)
  all_goals
    intro h
    cases h

theorem stops_mark {t v : Text} (ht : Shape (.operator t)) (hv : v ∈ marks)
    (hf : Token.fuses (.operator t) (.operator v) = false) : Stops (.operator t) v := by
  cases ht with
  | @operator c w h =>
    rcases operator_eq h with rfl | hlong
    · exact ⟨c, [], rfl, next_single_mark h hv hf⟩
    · exact ⟨c, w, rfl, next_long_mark _ hlong v hv⟩

theorem stops_behind_dot {v : Text} {q : Token} (hq : Reads v q [])
    (hf : Token.dot.fuses q = false) : Stops .dot v := by
  change startsWithDigit v = false
  obtain ⟨c, w, rfl, hn⟩ := hq
  by_contra hd
  have hdigit : c.isDigit = true := by simpa [startsWithDigit] using hd
  rw [List.append_nil, next_digit hdigit] at hn
  obtain ⟨rfl, -⟩ := Prod.mk.inj hn
  simp [Token.fuses, startsWithDigit, hdigit] at hf

theorem longOperators_greater : ∀ o ∈ longOperators, o.head? = some '>' → o = ['>', '='] := by
  decide

theorem stops_behind_tight {t v : Text} {q : Token} (ht : (Token.operator t).isTight = true)
    (hq : Reads v q []) (hf : (Token.operator t).fuses q = false) : Stops (.operator t) v := by
  by_cases harrow : t = ['-', '>']
  · refine reads_tight ht fun hhead => ?_
    subst harrow
    obtain ⟨c, w, rfl, hn⟩ := hq
    obtain rfl : c = '>' := by simpa using hhead
    rw [List.append_nil] at hn
    change operator '>' w = _ at hn
    unfold operator at hn
    split at hn
    · rename_i o ho
      obtain ⟨rfl, -⟩ := Prod.mk.inj hn
      have hpre := List.find?_some ho
      have hmem := List.mem_of_find?_eq_some ho
      obtain rfl := longOperators_greater o hmem (by
        cases o <;> simp_all [longOperators_eq, List.isPrefixOf])
      simp [Token.fuses] at hf
    · obtain ⟨rfl, -⟩ := Prod.mk.inj hn
      simp [Token.fuses] at hf
  · simp only [Token.isTight, Bool.or_eq_true, beq_iff_eq, harrow, or_false] at ht
    rcases ht with rfl | rfl
    · exact ⟨_, _, rfl, rfl⟩
    · exact ⟨_, _, rfl, rfl⟩

/-- A token is stopped by one that needs no space behind it, unless the two run together. -/
theorem Lexed.stops_pair {p q : Token} {v : Text} (h : Lexed [p, q]) (hp : p.isRemark = false)
    (hv : q.Spells v) (hs : p.spaced q = false) (hj : p.joinsComparison q = false)
    (hf : p.fuses q = false) : Stops p v := by
  have hq : Reads v q [] := h.tail.reads_last hv.typed
  have hshape : Shape p := (h.shape [] p [q] rfl).resolve_right fun hr => by simp at hr
  by_cases hatom : p.isAtom = true
  · have hwords : words v = [q].flatMap Token.words := by
      have hread := hq.tokenize
      rw [List.append_nil] at hread
      simp [words, hread, tokenize, SqlLayout.solid, h.solid q (by simp)]
    have hstop := stops_tight (x := []) hatom (by simp [Rule.page, Rule.line, hs]) hv
      (by simpa using h.unextended.head hwords) (fun _ => rfl)
    simpa using hstop
  · cases p with
    | dot => exact stops_behind_dot hq hf
    | operator t =>
      by_cases ht : (Token.operator t).isTight = true
      · exact stops_behind_tight ht hq hf
      · obtain ⟨hmark, hsame⟩ := mem_marks (by simpa using ht) hj hs hv
        exact stops_mark hshape hmark (hsame.trans hf)
    | lineComment => simp [Token.isRemark] at hp
    | keyword | identifier | string | quotedName | number => simp [Token.isAtom] at hatom
    | _ => trivial

theorem not_read_of_fuses {p q : Token} {u v : Text} (hf : p.fuses q = true) (hu : p.Spells u)
    (hv : q.Spells v) : tokenize (u ++ v) ≠ [p, q] := by
  intro h
  cases p with
  | dot =>
    cases q with
    | number t =>
      obtain rfl : u = ['.'] := hu
      obtain rfl : v = t := hv
      have hsolid : solid (tokenize ('.' :: v)) = [.dot, .number v] := by
        rw [← List.singleton_append, h]
        rfl
      simp [Token.fuses, startsWithDigit_of_dot hsolid] at hf
    | _ => simp [Token.fuses] at hf
  | operator t =>
    cases q with
    | operator w =>
      obtain rfl : u = t := hu
      obtain rfl : v = w := hv
      revert h
      simp only [Token.fuses, Bool.or_eq_true, Bool.and_eq_true, beq_iff_eq] at hf
      rcases hf with (⟨rfl, rfl | rfl⟩ | ⟨rfl, rfl⟩) | ⟨rfl, rfl | rfl⟩ <;> decide +kernel
    | _ => simp [Token.fuses] at hf
  | _ => simp [Token.fuses] at hf

/-- Two tokens of a text that are written side by side are read again as the same two tokens, unless
they are of the pairs that run together. -/
theorem side_by_side_iff (o : Options) (ho : o.functions = []) (x : Text) {l r : List Token}
    {p q : Token} (hx : solid (tokenize x) = l ++ p :: q :: r) (hp : p.isRemark = false)
    (hq : q.isRemark = false) (hs : needsSpace (some p) q false = false)
    (hj : p.joinsComparison q = false) (prev prev' : Option Token) :
    tokenize (p.render o false prev ++ q.render o false prev') = [p, q] ↔ p.fuses q = false := by
  have hu := Token.spells_written ho hp prev
  have hv := Token.spells_written ho hq prev'
  refine ⟨fun h => ?_, fun hf => ?_⟩
  · rw [← Bool.not_eq_true]
    exact fun hf => not_read_of_fuses hf hu hv h
  · have hl : Lexed [p, q] := by
      have hl := lexed_tokenize x
      rw [hx, show l ++ p :: q :: r = l ++ [p, q] ++ r by simp] at hl
      exact hl.part
    have hshape : Shape p := (hl.shape [] p [q] rfl).resolve_right fun hr => by simp at hr
    have hstop := hl.stops_pair hp hv (by simpa [needsSpace] using hs) hj hf
    have hlast := (hl.tail.reads_last hv.typed).tokenize
    rw [List.append_nil, tokenize] at hlast
    rw [(hshape.read hstop hu.typed).tokenize, hlast]

/-- The dash and the arrow of this text are written side by side, and are then a comment. -/
theorem side_by_side_arrow :
    solid (tokenize "a - -> b".toList) =
      [.identifier ['a'], .operator ['-'], .operator ['-', '>'], .identifier ['b']] ∧
    needsSpace (some (.operator ['-'])) (.operator ['-', '>']) false = false ∧
    tokenize ['-', '-', '>'] ≠ [.operator ['-'], .operator ['-', '>']] ∧
    tryFormat {} "a - -> b" = .ok "a -->b" ∧
    solid (tokenize "a -->b".toList) = [.identifier ['a'], .lineComment ['>', 'b']] := by
  have hx : solid (tokenize "a - -> b".toList) =
      [.identifier ['a'], .operator ['-'], .operator ['-', '>'], .identifier ['b']] := by
    decide +kernel
  refine ⟨hx, by decide, fun h => ?_, by decide +kernel, by decide +kernel⟩
  have hf := (side_by_side_iff {} rfl _ (l := [_]) hx rfl rfl (by decide) (by decide) none none).1 h
  simp [Token.fuses] at hf

end SqlLayout

import SqlLayout.Proofs.Lexing
import SqlLayout.Token.Bracket

/-! The shapes of the tokens that are read from a text, and that a token of such a shape is read
again wherever its text stands before something that does not go on with it.
-/

set_option autoImplicit false

namespace SqlLayout

open Scan

def Reads (r : Text) (t : Token) (x : Text) : Prop :=
  ∃ c w, r = c :: w ∧ next c (w ++ x) = (t, x)

theorem tokenize_cons (c : Char) (cs : Text) :
    tokenize (c :: cs) = (next c cs).1 :: tokenize (next c cs).2 := by
  rw [tokenize]

theorem Reads.tokenize {r x : Text} {t : Token} (h : Reads r t x) :
    tokenize (r ++ x) = t :: tokenize x := by
  obtain ⟨c, w, rfl, hn⟩ := h
  rw [List.cons_append, tokenize_cons, hn]

theorem next_word {c : Char} (h : isWordStart c = true) (cs : Text) : next c cs = word c cs := by
  rw [isWordStart_iff] at h
  have hgap : Text.isGap c = false := by
    rw [← Bool.not_eq_true]
    simp only [Text.isGap, Bool.or_eq_true, beq_iff_eq, ← Char.toNat_inj, Char.reduceToNat]
    omega
  have hdigit : c.isDigit = false := by
    rw [← Bool.not_eq_true, isDigit_iff]
    omega
  have hne : ∀ d : Char, (d.toNat < 128 ∧ ¬(65 ≤ d.toNat ∧ d.toNat ≤ 90) ∧ ¬(97 ≤ d.toNat ∧ d.toNat ≤ 122) ∧ d.toNat ≠ 95 ∧ d.toNat ≠ 64 ∧ d.toNat ≠ 35) → (c == d) = false := by
    intro d hd
    rw [beq_eq_false_iff_ne, ne_eq, ← Char.toNat_inj]
    omega
  have h' : isWordStart c = true := by rwa [isWordStart_iff]
  unfold next
  simp [hgap, hdigit, hne, h']

/-- The tokens that are read from some text, quotations being complete. -/
inductive Shape : Token → Prop where
  | word {c : Char} {w : Text} (hc : isWordStart c = true) (hw : ∀ d ∈ w, isWordChar d = true)
      (hk : Keyword.ofWord? (c :: w) = none) : Shape (.identifier (c :: w))
  | bound {c : Char} {w : Text} (hc : isWordStart c = true) (hw : ∀ d ∈ w, isWordChar d = true) :
      Shape (.identifier (':' :: c :: w))
  | parameter {w : Text} (hne : w ≠ []) (hw : ∀ d ∈ w, isWordChar d = true)
      (hd : (w.dropWhile Quoted.isTagChar).head? ≠ some '$') : Shape (.identifier ('$' :: w))
  | keyword {k : Keyword} : Shape (.keyword k)
  | quoted {b : Text} (hb : Quoted.close? '\'' false b = some (b, [])) : Shape (.string ('\'' :: b))
  | marked {c : Char} {b : Text} (hc : Quoted.isMark c = true)
      (hb : Quoted.close? '\'' (Quoted.marksEscapes c) b = some (b, [])) :
      Shape (.string (c :: '\'' :: b))
  | dollar {tag body : Text} (ht : ∀ c ∈ tag, Quoted.isTagChar c = true)
      (hb : Quoted.around? ('$' :: tag ++ ['$']) (body ++ ('$' :: tag ++ ['$'])) = some (body, [])) :
      Shape (.string ('$' :: tag ++ ['$'] ++ body ++ ('$' :: tag ++ ['$'])))
  | name {q : Char} {b : Text} (hq : q = '"' ∨ q = '\x60')
      (hb : Quoted.close? q false b = some (b, [])) : Shape (.quotedName (q :: b))
  | digit {c : Char} {w : Text} (hc : c.isDigit = true) (hw : afterDigit w = (w, [])) :
      Shape (.number (c :: w))
  | point {w : Text} (hd : startsWithDigit w = true) (hw : afterPoint w = (w, [])) :
      Shape (.number ('.' :: w))
  | operator {c : Char} {w : Text} (h : next c w = (.operator (c :: w), [])) :
      Shape (.operator (c :: w))
  | comma : Shape .comma
  | semicolon : Shape .semicolon
  | dot : Shape .dot
  | openParen : Shape .openParen
  | closeParen : Shape .closeParen
  | lineComment {t : Text} (h : '\n' ∉ t) : Shape (.lineComment t)
  | blockComment {t : Text} (h : Quoted.around? ['*', '/'] (t ++ ['*', '/']) = some (t, [])) :
      Shape (.blockComment t)

def Token.Closed : Token → Prop
  | .string t | .quotedName t => Quoted.isClosed t = true
  | _ => True

theorem closed_of_checkQuotes {ts : List Token} (h : checkQuotes ts = .ok ()) :
    ∀ t ∈ ts, t.Closed := by
  fun_induction checkQuotes ts with
  | case1 => simp
  | case2 x rest hx ih => simpa using ⟨hx, ih h⟩
  | case3 => simp at h
  | case4 x rest hx ih => simpa using ⟨hx, ih h⟩
  | case5 => simp at h
  | case6 t rest h1 h2 ih =>
    intro u hu
    rcases List.mem_cons.1 hu with rfl | hu
    · cases u <;> first | trivial | simp_all
    · exact ih h u hu

theorem numberEnds_nil : NumberEnds [] := ⟨rfl, by simp, by simp⟩

theorem quotation_closed {q : Char} {escapes : Bool} {cs b after : Text}
    (h : quotation q escapes cs = (b, after)) (hc : ∃ z, Quoted.close? q escapes b = some (z, [])) :
    Quoted.close? q escapes b = some (b, []) := by
  unfold quotation at h
  cases hq : Quoted.close? q escapes cs with
  | none =>
    rw [hq] at h
    obtain ⟨rfl, -⟩ : cs = b ∧ [] = after := by simpa using h
    simp [hq] at hc
  | some r =>
    rw [hq] at h
    obtain rfl : r = (b, after) := by simpa using h
    simpa using Quoted.close?_again hq (x := []) (by simp)

theorem closesAtEnd_close? {escapes : Bool} {q : Char} {b : Text}
    (h : Quoted.closesAtEnd escapes (q :: b) = true) : ∃ z, Quoted.close? q escapes b = some (z, []) := by
  unfold Quoted.closesAtEnd at h
  simp only at h
  split at h
  · rename_i z hz
    exact ⟨z, hz⟩
  · simp at h

theorem ofWord?_singleton (c : Char) : Keyword.ofWord? [c] = none := by
  have hlen : ∀ k ∈ Keyword.singleWords, k.text.length ≠ 1 := by decide +kernel
  refine List.find?_eq_none.2 fun k hk hs => hlen k hk ?_
  have := congrArg List.length (beq_iff_eq.1 hs)
  simpa using this

theorem shape_word {c : Char} {cs y : Text} {t : Token} (hc : isWordStart c = true)
    (h : word c cs = (t, y)) (hcl : t.Closed) : Shape t := by
  unfold word at h
  split at h
  · rename_i rest hr
    split at h
    · rename_i hm
      rcases hb : quotation '\'' (Quoted.marksEscapes c) rest with ⟨b, a⟩
      rw [hb] at h
      obtain ⟨rfl, -⟩ := Prod.mk.inj h
      refine .marked hm (quotation_closed hb (closesAtEnd_close? ?_))
      have hdollar : c ≠ '$' := by rintro rfl; simp [Quoted.isMark] at hm
      simpa [Token.Closed, Quoted.isClosed, Quoted.delimiter?, hdollar, hm] using hcl
    · obtain ⟨rfl, -⟩ := Prod.mk.inj h
      exact .word hc (by simp) (ofWord?_singleton c)
  · rename_i w rest _ hr
    split at h
    · rename_i k hk
      unfold Scan.keyword at h
      split at h
      · obtain ⟨rfl, -⟩ := Prod.mk.inj h
        exact .keyword
      · obtain ⟨rfl, -⟩ := Prod.mk.inj h
        exact .keyword
    · rename_i hk
      obtain ⟨rfl, -⟩ := Prod.mk.inj h
      exact .word hc (run_eq hr).1 hk

theorem around?_of_infix {d t : Text} (h : d <:+: t) : ∃ r, Quoted.around? d t = some r := by
  fun_induction Quoted.around? d t with
  | case1 => exact ⟨_, rfl⟩
  | case2 hd => simp_all
  | case3 => exact ⟨_, rfl⟩
  | case4 c rest hp ih =>
    have hrest : d <:+: rest := by
      rcases List.infix_cons_iff.1 h with hpre | hin
      · exact absurd (List.isPrefixOf_iff_prefix.2 hpre) hp
      · exact hin
    obtain ⟨r, hr⟩ := ih hrest
    exact ⟨_, by rw [hr]; rfl⟩

theorem delimiter?_eq {cs d : Text} (h : Quoted.delimiter? ('$' :: cs) = some d) :
    d = '$' :: cs.takeWhile Quoted.isTagChar ++ ['$'] ∧
      '$' :: cs = d ++ cs.drop (d.length - 1) := by
  unfold Quoted.delimiter? at h
  simp only at h
  split at h
  · rename_i rest hr
    obtain rfl : '$' :: cs.takeWhile Quoted.isTagChar ++ ['$'] = d := by simpa using h
    have hsplit := List.takeWhile_append_dropWhile (p := Quoted.isTagChar) (l := cs)
    rw [hr] at hsplit
    refine ⟨rfl, ?_⟩
    have hdrop : (cs.takeWhile Quoted.isTagChar ++ '$' :: rest).drop
        (('$' :: cs.takeWhile Quoted.isTagChar ++ ['$']).length - 1) = rest := by
      simp
    rw [hsplit] at hdrop
    rw [hdrop, ← hsplit]
    simp [hsplit]
  · simp at h

theorem shape_dollar {cs y : Text} {t : Token} (h : dollar cs = (t, y)) (hcl : t.Closed) :
    Shape t := by
  unfold dollar at h
  split at h
  · rename_i d hd
    obtain ⟨rfl, hsplit⟩ := delimiter?_eq hd
    have htag : ∀ c ∈ cs.takeWhile Quoted.isTagChar, Quoted.isTagChar c = true := fun c =>
      List.mem_takeWhile_imp
    split at h
    · rename_i body after hb
      obtain ⟨rfl, -⟩ := Prod.mk.inj h
      have := Quoted.around?_again (by simp) hb []
      exact .dollar htag (by simpa using this)
    · rename_i hb
      obtain ⟨rfl, -⟩ := Prod.mk.inj h
      simp only [Token.Closed, Quoted.isClosed, hd, Bool.and_eq_true, decide_eq_true_eq,
        List.isSuffixOf_iff_suffix] at hcl
      obtain ⟨hlen, hsuf⟩ := hcl
      rw [hsplit] at hlen hsuf
      have hin := List.suffix_of_suffix_length_le hsuf (List.suffix_append _ _) (by
        simp only [List.length_append, List.length_cons, List.length_nil] at hlen ⊢
        omega)
      obtain ⟨r, hr⟩ := around?_of_infix hin.isInfix
      rw [hr] at hb
      cases hb
  · rename_i hd
    split at h
    · obtain ⟨rfl, -⟩ := Prod.mk.inj h
      exact .operator rfl
    · rename_i w rest hne hr
      obtain ⟨rfl, -⟩ := Prod.mk.inj h
      obtain ⟨hw, hrest, rfl⟩ := run_eq hr
      refine .parameter hne hw fun hh => ?_
      obtain ⟨u, hu⟩ : ∃ u, w.dropWhile Quoted.isTagChar = '$' :: u := by
        cases hw' : w.dropWhile Quoted.isTagChar with
        | nil => simp [hw'] at hh
        | cons c u => exact ⟨u, by simpa [hw'] using hh⟩
      have hdrop : (w ++ rest).dropWhile Quoted.isTagChar = '$' :: (u ++ rest) := by
        rw [List.dropWhile_append, hu]
        rfl
      simp [Quoted.delimiter?, hdrop] at hd

theorem around?_unclosed {cs : Text} (h : Quoted.around? ['*', '/'] cs = none) :
    Quoted.around? ['*', '/'] (cs ++ ['*', '/']) = some (cs, []) := by
  induction cs with
  | nil => rfl
  | cons c cs ih =>
    rw [Quoted.around?] at h
    split at h
    · simp at h
    · rename_i hp
      have hnot : ['*', '/'].isPrefixOf (c :: (cs ++ ['*', '/'])) = false := by
        cases cs with
        | nil => simp [List.isPrefixOf]
        | cons d cs => simpa [List.isPrefixOf] using hp
      rw [List.cons_append, Quoted.around?, hnot]
      simp [ih (by simpa using h)]

theorem shape_blockComment {cs y : Text} {t : Token} (h : blockComment cs = (t, y)) : Shape t := by
  unfold blockComment at h
  split at h
  · rename_i body after hb
    obtain ⟨rfl, -⟩ := Prod.mk.inj h
    have := Quoted.around?_again (by simp) hb []
    exact .blockComment (by simpa using this)
  · rename_i hb
    obtain ⟨rfl, -⟩ := Prod.mk.inj h
    exact .blockComment (around?_unclosed hb)

theorem next_longOperator : ∀ o ∈ longOperators, next (o.headD ' ') o.tail = (.operator o, []) := by
  decide

theorem shape_operator {c : Char} {cs y : Text} {t : Token} (h : operator c cs = (t, y))
    (hone : next c [] = operator c []) : Shape t := by
  unfold operator at h
  split at h
  · rename_i o ho
    obtain ⟨rfl, -⟩ := Prod.mk.inj h
    have hmem := List.mem_of_find?_eq_some ho
    have hlong := next_longOperator o hmem
    have hpre := List.find?_some ho
    cases o with
    | nil => exact absurd hmem (by decide)
    | cons d w => exact .operator hlong
  · obtain ⟨rfl, -⟩ := Prod.mk.inj h
    refine .operator ?_
    rw [hone]
    simp [operator, longOperators, List.isPrefixOf]

theorem shape_quotedName {q : Char} {cs : Text} (hq : q = '"' ∨ q = '\x60')
    (hcl : (Token.quotedName (q :: (quotation q false cs).1)).Closed) :
    Shape (.quotedName (q :: (quotation q false cs).1)) := by
  refine .name hq (quotation_closed rfl (closesAtEnd_close? ?_))
  rcases hq with rfl | rfl <;>
    simpa [Token.Closed, Quoted.isClosed, Quoted.delimiter?, Quoted.isMark] using hcl

/-- What is read has the shape of its kind. -/
theorem shape_next (c : Char) (cs : Text) :
    (next c cs).1.isGap = false → (next c cs).1.Closed → Shape (next c cs).1 := by
  fun_cases next c cs
  case case1 => simp [Token.isGap]
  case case2 => exact fun _ _ => .lineComment fun hn => by simpa using List.mem_takeWhile_imp hn
  case case3 => exact fun _ _ => shape_blockComment rfl
  case case4 hq =>
    intro _ hcl
    obtain rfl : c = '\'' := by simpa using hq
    refine .quoted (quotation_closed rfl (closesAtEnd_close? ?_))
    simpa [Token.Closed, Quoted.isClosed, Quoted.delimiter?, Quoted.isMark] using hcl
  case case5 hq => exact fun _ hcl => shape_quotedName (by simpa using hq) hcl
  case case6 => exact fun _ hcl => shape_dollar rfl hcl
  case case7 hd =>
    intro _ _
    rcases ha : afterDigit cs with ⟨w, y⟩
    have := afterDigit_again ha numberEnds_nil
    exact .digit hd (by rwa [List.append_nil] at this)
  case case8 hd =>
    intro _ _
    obtain ⟨rfl, hs⟩ : c = '.' ∧ startsWithDigit cs = true := by simpa using hd
    rcases ha : afterPoint cs with ⟨w, y⟩
    have := afterPoint_again ha numberEnds_nil
    refine .point ?_ (by rwa [List.append_nil] at this)
    rw [afterPoint, andThen_assoc] at ha
    obtain ⟨a, r, t, hd, -, rfl⟩ := andThen_eq ha
    exact startsWithDigit_digits hd hs
  case case9 => exact fun _ _ => .comma
  case case10 => exact fun _ _ => .semicolon
  case case11 => exact fun _ _ => .dot
  case case12 => exact fun _ _ => .openParen
  case case13 => exact fun _ _ => .closeParen
  case case14 hw =>
    intro _ _
    obtain ⟨rfl, hs⟩ : c = ':' ∧ startsWord cs = true := by simpa using hw
    cases cs with
    | nil => simp [startsWord] at hs
    | cons d cs =>
      have hd : isWordStart d = true := hs
      have hd' : isWordChar d = true := (isWordChar_iff d).2 (.inr (.inr hd))
      rw [List.takeWhile_cons_of_pos hd']
      exact .bound hd fun e => List.mem_takeWhile_imp
  case case15 hw => exact fun _ hcl => shape_word hw rfl hcl
  case case16 =>
    refine fun _ _ => shape_operator rfl ?_
    unfold next
    simp_all [startsWithDigit, startsWord]

/-- The text `x` does not go on with the token. -/
def Stops : Token → Text → Prop
  | .keyword k, x => Ends isWordChar x ∧ x.head? ≠ some '\'' ∧
      ∀ e ∈ k.continuations, afterWords? e.1 x = none
  | .identifier _, x => Ends isWordChar x ∧ x.head? ≠ some '\''
  | .string _, x => x.head? ≠ some '\''
  | .quotedName _, x => x.head? ≠ some '"' ∧ x.head? ≠ some '\x60'
  | .number _, x => NumberEnds x
  | .operator t, x => Reads t (.operator t) x
  | .dot, x => startsWithDigit x = false
  | .lineComment _, x => Ends (· != '\n') x
  | _, _ => True

theorem reads_word {c : Char} {w x : Text} (hc : isWordStart c = true)
    (hw : ∀ d ∈ w, isWordChar d = true) (hx : Ends isWordChar x) (hq : x.head? ≠ some '\'')
    {t : Token} {y : Text}
    (ht : (match Keyword.ofWord? (c :: w) with
      | some k => keyword k x
      | none => (.identifier (c :: w), x)) = (t, y)) : next c (w ++ x) = (t, y) := by
  rw [next_word hc, word, Ends.run hw hx]
  split
  · rename_i rest he
    obtain ⟨rfl, rfl⟩ := Prod.mk.inj he
    simp at hq
  · rename_i he
    obtain ⟨rfl, rfl⟩ := Prod.mk.inj he
    exact ht

theorem reads_parameter {w x : Text} (hne : w ≠ []) (hw : ∀ d ∈ w, isWordChar d = true)
    (hd : (w.dropWhile Quoted.isTagChar).head? ≠ some '$') (hx : Ends isWordChar x) :
    next '$' (w ++ x) = (.identifier ('$' :: w), x) := by
  have hnone : Quoted.delimiter? ('$' :: (w ++ x)) = none := by
    have hhead : ((w ++ x).dropWhile Quoted.isTagChar).head? ≠ some '$' := by
      rw [List.dropWhile_append]
      split
      · intro hh
        have hdrop : x.dropWhile Quoted.isTagChar = x := by
          cases x with
          | nil => rfl
          | cons c x =>
            have hc : isWordChar c = false := by simpa [Ends] using hx
            simp [not_isTagChar hc]
        rw [hdrop] at hh
        simp [Ends, hh, isWordChar] at hx
      · rename_i hn
        cases hw' : w.dropWhile Quoted.isTagChar with
        | nil => simp [hw'] at hn
        | cons c u => simpa [hw'] using hd
    unfold Quoted.delimiter?
    split
    · rename_i he
      obtain ⟨-, rfl⟩ := List.cons.inj he
      split
      · rename_i hr
        simp [hr] at hhead
      · rfl
    · rfl
  change dollar (w ++ x) = _
  unfold dollar
  rw [hnone]
  simp only
  rw [Ends.run hw hx]
  split
  · rename_i he
    exact absurd (Prod.mk.inj he).1 hne
  · rename_i he
    obtain ⟨rfl, rfl⟩ := Prod.mk.inj he
    rfl

theorem delimiter?_again {tag : Text} (ht : ∀ c ∈ tag, Quoted.isTagChar c = true) (x : Text) :
    Quoted.delimiter? ('$' :: (tag ++ '$' :: x)) = some ('$' :: tag ++ ['$']) := by
  have hstop : (tag ++ '$' :: x).takeWhile Quoted.isTagChar = tag ∧
      (tag ++ '$' :: x).dropWhile Quoted.isTagChar = '$' :: x := by
    have hdollar : Ends Quoted.isTagChar ('$' :: x) := rfl
    simpa [Reader.run] using Ends.run ht hdollar
  simp only [Quoted.delimiter?, hstop.1, hstop.2]

theorem reads_dollar {tag body x : Text} (ht : ∀ c ∈ tag, Quoted.isTagChar c = true)
    (hb : Quoted.around? ('$' :: tag ++ ['$']) (body ++ ('$' :: tag ++ ['$'])) = some (body, [])) :
    next '$' (tag ++ ['$'] ++ body ++ ('$' :: tag ++ ['$']) ++ x) =
      (.string ('$' :: tag ++ ['$'] ++ body ++ ('$' :: tag ++ ['$'])), x) := by
  have hdrop : (tag ++ '$' :: (body ++ ('$' :: tag ++ ['$']) ++ x)).drop
      (('$' :: tag ++ ['$']).length - 1) = body ++ ('$' :: tag ++ ['$']) ++ x := by
    simp
  have haround := Quoted.around?_again (by simp) hb x
  rw [show tag ++ ['$'] ++ body ++ ('$' :: tag ++ ['$']) ++ x =
    tag ++ '$' :: (body ++ ('$' :: tag ++ ['$']) ++ x) by simp]
  change dollar _ = _
  unfold dollar
  rw [delimiter?_again ht]
  simp only [hdrop, haround]

theorem quotation_again {q : Char} {escapes : Bool} {b x : Text}
    (hb : Quoted.close? q escapes b = some (b, [])) (hx : x.head? ≠ some q) :
    quotation q escapes (b ++ x) = (b, x) := by
  simp [quotation, Quoted.close?_again hb hx]

theorem reads_bound {c : Char} {w x : Text} (hc : isWordStart c = true)
    (hw : ∀ d ∈ w, isWordChar d = true) (hx : Ends isWordChar x) :
    next ':' (c :: w ++ x) = (.identifier (':' :: c :: w), x) := by
  have hrun : Reader.run isWordChar (c :: w ++ x) = (c :: w, x) :=
    Ends.run (by simpa using ⟨(isWordChar_iff c).2 (.inr (.inr hc)), hw⟩) hx
  obtain ⟨htake, hdrop⟩ := Prod.mk.inj hrun
  have hstart : startsWord (c :: w ++ x) = true := hc
  change (if startsWord (c :: w ++ x) = true then
    (Token.identifier (':' :: (c :: w ++ x).takeWhile isWordChar),
      (c :: w ++ x).dropWhile isWordChar) else _) = _
  rw [if_pos hstart, htake, hdrop]

theorem reads_marked {c : Char} {b x : Text} (hc : Quoted.isMark c = true)
    (hb : Quoted.close? '\'' (Quoted.marksEscapes c) b = some (b, [])) (hx : x.head? ≠ some '\'') :
    next c ('\'' :: b ++ x) = (.string (c :: '\'' :: b), x) := by
  have hstart : isWordStart c = true := by
    simp only [Quoted.isMark, Bool.or_eq_true, beq_iff_eq] at hc
    rcases hc with ((((((rfl | rfl) | rfl) | rfl) | rfl) | rfl) | rfl) | rfl <;> rfl
  rw [next_word hstart, Scan.word, List.cons_append,
    show Reader.run isWordChar ('\'' :: (b ++ x)) = ([], '\'' :: (b ++ x)) from rfl]
  simp only [hc, if_true, quotation_again hb hx]

theorem reads_name {q : Char} {b x : Text} (hq : q = '"' ∨ q = '\x60')
    (hb : Quoted.close? q false b = some (b, [])) (hx : x.head? ≠ some q) :
    next q (b ++ x) = (.quotedName (q :: b), x) := by
  have hnext : next q (b ++ x) =
      (.quotedName (q :: (quotation q false (b ++ x)).1), (quotation q false (b ++ x)).2) := by
    rcases hq with rfl | rfl <;> rfl
  rw [hnext, quotation_again hb hx]

theorem next_digit {c : Char} (h : c.isDigit = true) (cs : Text) :
    next c cs = (.number (c :: (afterDigit cs).1), (afterDigit cs).2) := by
  have hn := (isDigit_iff c).1 h
  have hgap : Text.isGap c = false := by
    rw [← Bool.not_eq_true]
    simp only [Text.isGap, Bool.or_eq_true, beq_iff_eq, ← Char.toNat_inj, Char.reduceToNat]
    omega
  have hne : ∀ d : Char, ¬(48 ≤ d.toNat ∧ d.toNat ≤ 57) → (c == d) = false := by
    intro d hd
    rw [beq_eq_false_iff_ne, ne_eq, ← Char.toNat_inj]
    omega
  unfold next
  simp [hgap, hne, h]

/-- The texts that a token is read from. Letter case does not matter to a keyword. -/
def Token.Spells : Token → Text → Prop
  | .keyword k, r => r = k.text ∨ r = k.text.map Char.toLower
  | .lineComment t, r => r = ['-', '-'] ++ t
  | .blockComment t, r => r = ['/', '*'] ++ t ++ ['*', '/']
  | .identifier t, r | .quotedName t, r | .string t, r | .number t, r | .operator t, r
  | .gap t, r => r = t
  | .comma, r => r = [',']
  | .semicolon, r => r = [';']
  | .dot, r => r = ['.']
  | .openParen, r => r = ['(']
  | .closeParen, r => r = [')']

theorem Shape.reads {t : Token} {r x : Text} (h : Shape t) (hx : Stops t x) (hr : t.Spells r)
    (hk : ∀ k, t ≠ .keyword k) : Reads r t x := by
  cases h with
  | word hc hw hnone =>
    subst hr
    exact ⟨_, _, rfl, reads_word hc hw hx.1 hx.2 (by rw [hnone])⟩
  | bound hc hw =>
    subst hr
    exact ⟨_, _, rfl, reads_bound hc hw hx.1⟩
  | parameter hne hw hd =>
    subst hr
    exact ⟨_, _, rfl, reads_parameter hne hw hd hx.1⟩
  | @keyword k => exact absurd rfl (hk k)
  | @quoted b hb =>
    subst hr
    refine ⟨_, _, rfl, ?_⟩
    change (Token.string ('\'' :: (quotation '\'' false (b ++ x)).1), _) = _
    rw [quotation_again hb hx]
  | marked hc hb =>
    subst hr
    exact ⟨_, _, rfl, reads_marked hc hb hx⟩
  | dollar ht hb =>
    subst hr
    exact ⟨_, _, rfl, reads_dollar ht hb⟩
  | name hq hb =>
    subst hr
    refine ⟨_, _, rfl, reads_name hq hb ?_⟩
    rcases hq with rfl | rfl
    · exact hx.1
    · exact hx.2
  | @digit c w hc hw =>
    subst hr
    refine ⟨_, _, rfl, ?_⟩
    rw [next_digit hc, afterDigit_again hw hx]
  | @point w hd hw =>
    subst hr
    refine ⟨_, _, rfl, ?_⟩
    have hs : startsWithDigit (w ++ x) = true := by
      cases w with
      | nil => simp [startsWithDigit] at hd
      | cons k w => exact hd
    change (if startsWithDigit (w ++ x) = true then _ else _) = _
    rw [if_pos hs, afterPoint_again hw hx]
  | operator => subst hr; exact hx
  | comma => subst hr; exact ⟨_, _, rfl, rfl⟩
  | semicolon => subst hr; exact ⟨_, _, rfl, rfl⟩
  | dot =>
    subst hr
    refine ⟨_, _, rfl, ?_⟩
    change (if startsWithDigit x = true then _ else _) = _
    rw [if_neg (by rw [show startsWithDigit x = false from hx]; simp)]
    rfl
  | openParen => subst hr; exact ⟨_, _, rfl, rfl⟩
  | closeParen => subst hr; exact ⟨_, _, rfl, rfl⟩
  | @lineComment t ht =>
    subst hr
    refine ⟨'-', '-' :: t, rfl, ?_⟩
    have hrun : Reader.run (· != '\n') (t ++ x) = (t, x) :=
      Ends.run (fun c hc => by
        have : c ≠ '\n' := by rintro rfl; exact ht hc
        simpa using this) hx
    obtain ⟨htake, hdrop⟩ := Prod.mk.inj hrun
    change (Token.lineComment ((t ++ x).takeWhile (· != '\n')), (t ++ x).dropWhile (· != '\n')) = _
    rw [htake, hdrop]
  | @blockComment t ht =>
    subst hr
    refine ⟨'/', '*' :: (t ++ ['*', '/']), rfl, ?_⟩
    change Scan.blockComment (t ++ ['*', '/'] ++ x) = _
    rw [Scan.blockComment, Quoted.around?_again (by simp) ht x]

end SqlLayout

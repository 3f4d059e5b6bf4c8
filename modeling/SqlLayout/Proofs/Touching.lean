import SqlLayout.Proofs.Line
import SqlLayout.Proofs.Words

/-! Which texts end the token before them: gaps do, and so does a token that the layout writes
directly behind another. Only behind dots and operators is that up to the statement.
-/

set_option autoImplicit false

namespace SqlLayout

open Scan

variable {x y : Text}

theorem longOperators_eq : longOperators = [['-', '>', '>'], ['<', '>'], ['!', '='], ['<', '='],
    ['>', '='], ['|', '|'], [':', ':'], [':', '='], ['=', '>'], ['-', '>']] := by
  decide

theorem longOperators_marks : ∀ o ∈ longOperators, 2 ≤ o.length ∧ o.take 2 ∈ longOperators ∧
    o.all (fun c => !Text.isGap c && c != ',') = true := by
  decide

/-- The second text goes on no further than the first: it begins alike, or with a character that
is part of no operator. -/
def BeginsLike (x y : Text) : Prop :=
  ∀ c ∈ y.head?, Text.isGap c = true ∨ c = ',' ∨ x.head? = some c

theorem BeginsLike.append {w : Text} (h : BeginsLike x y) : BeginsLike (w ++ x) (w ++ y) := by
  cases w with
  | nil => exact h
  | cons c w => exact fun d hd => .inr (.inr hd)

theorem BeginsLike.any {p : Char → Bool} (h : BeginsLike x y)
    (hg : ∀ c, Text.isGap c = true → p c = false) (hc : p ',' = false)
    (hx : x.head?.any p = false) : y.head?.any p = false := by
  cases y with
  | nil => rfl
  | cons c y =>
    rcases h c rfl with hgap | rfl | hx'
    · exact hg c hgap
    · exact hc
    · simpa [hx'] using hx

theorem not_isWordChar_of_isGap {c : Char} (h : Text.isGap c = true) : isWordChar c = false :=
  ends_of_isGap h []

theorem not_isWordStart_of_isGap {c : Char} (h : Text.isGap c = true) : isWordStart c = false := by
  have hw := not_isWordChar_of_isGap h
  rw [← Bool.not_eq_true] at hw ⊢
  rw [isWordChar_iff] at hw
  exact fun hs => hw (.inr (.inr hs))

theorem find?_longOperators {c : Char} (h : BeginsLike x y)
    (hx : longOperators.find? (fun o => o.isPrefixOf (c :: x)) = none) :
    longOperators.find? (fun o => o.isPrefixOf (c :: y)) = none := by
  rw [List.find?_eq_none] at hx ⊢
  intro o ho hp
  obtain ⟨hlen, hmem, hmarks⟩ := longOperators_marks o ho
  obtain ⟨z, hz⟩ := List.isPrefixOf_iff_prefix.1 hp
  -- the first two characters of an operator are an operator
  obtain ⟨d, o, rfl⟩ : ∃ d o', o = c :: d :: o' := by
    rcases o with _ | ⟨a, _ | ⟨d, o⟩⟩
    · simp at hlen
    · simp at hlen
    · obtain ⟨rfl, -⟩ : a = c ∧ _ := by simpa using hz
      exact ⟨d, o, rfl⟩
  have hy : y.head? = some d := by
    obtain ⟨-, rfl⟩ := List.cons.inj hz
    rfl
  have hxd : x.head? = some d := by
    have hd := List.all_eq_true.1 hmarks d (by simp)
    rcases h d hy with hg | rfl | hx'
    · simp [hg] at hd
    · simp at hd
    · exact hx'
  refine hx _ hmem (List.isPrefixOf_iff_prefix.2 ?_)
  cases x with
  | nil => simp at hxd
  | cons e x =>
    obtain rfl : e = d := by simpa using hxd
    exact ⟨x, rfl⟩

theorem operator_single {c : Char} (h : BeginsLike x y)
    (hx : operator c x = (.operator [c], x)) : operator c y = (.operator [c], y) := by
  have hnone : longOperators.find? (fun o => o.isPrefixOf (c :: x)) = none := by
    cases hf : longOperators.find? (fun o => o.isPrefixOf (c :: x)) with
    | none => rfl
    | some o =>
      unfold operator at hx
      rw [hf] at hx
      obtain ⟨rfl, -⟩ : o = [c] ∧ _ := by simpa using hx
      have := (longOperators_marks _ (List.mem_of_find?_eq_some hf)).1
      simp at this
  unfold operator
  rw [find?_longOperators h hnone]

theorem operator_arrow (hx : x.head? ≠ some '>') :
    operator '-' ('>' :: x) = (.operator ['-', '>'], x) := by
  cases x with
  | nil => rfl
  | cons c x =>
    have hc : ('>' == c) = false := by
      rw [beq_eq_false_iff_ne]
      rintro rfl
      simp at hx
    simp [operator, longOperators, List.isPrefixOf, hc]

theorem operator_long {c : Char} {w : Text} (hw : w ≠ []) (h : BeginsLike x y)
    (hx : operator c (w ++ x) = (.operator (c :: w), x)) :
    operator c (w ++ y) = (.operator (c :: w), y) := by
  have hmem : c :: w ∈ longOperators := by
    unfold operator at hx
    split at hx
    · rename_i o ho
      obtain ⟨rfl, -⟩ : o = c :: w ∧ _ := by simpa using hx
      exact List.mem_of_find?_eq_some ho
    · exact absurd (by simpa using hx) hw
  simp only [longOperators_eq, List.mem_cons, List.not_mem_nil, or_false] at hmem
  rcases hmem with h' | h' | h' | h' | h' | h' | h' | h' | h' | h' <;>
    obtain ⟨rfl, rfl⟩ := List.cons.inj h' <;> try rfl
  -- only the arrow is the beginning of another operator
  refine operator_arrow fun hy => ?_
  have hx' : x.head? ≠ some '>' := by
    intro hh
    cases x with
    | nil => simp at hh
    | cons d x =>
      obtain rfl : d = '>' := by simpa using hh
      exact absurd hx (by simp [operator, longOperators_eq, List.isPrefixOf])
  rcases h _ hy with h | h | h
  · simp [Text.isGap] at h
  · simp at h
  · exact hx' h

theorem isTagChar_of_ends (hy : Ends isWordChar y) : Quoted.delimiter? ('$' :: y) = none := by
  have htag : y.dropWhile Quoted.isTagChar = y ∧ y.head? ≠ some '$' := by
    cases y with
    | nil => simp
    | cons c y =>
      have hc : isWordChar c = false := hy
      have hne : c ≠ '$' := by rintro rfl; simp [isWordChar] at hc
      simp [not_isTagChar hc, hne]
  unfold Quoted.delimiter?
  simp only [htag.1]
  split
  · simp at htag
  · rfl

theorem dollar_operator {w : Text} (h : BeginsLike x y)
    (hx : dollar (w ++ x) = (.operator ('$' :: w), x)) :
    dollar (w ++ y) = (.operator ('$' :: w), y) := by
  unfold dollar at hx
  split at hx
  · split at hx <;> cases hx
  · split at hx
    · rename_i rest hrun
      obtain ⟨rfl, rfl⟩ : w = [] ∧ rest = x := by simpa [eq_comm] using hx
      have hends : Ends isWordChar y :=
        h.any (fun _ => not_isWordChar_of_isGap) rfl (run_eq hrun).2.1
      have hy : Reader.run isWordChar ([] ++ y) = ([], y) := Ends.run (by simp) hends
      unfold dollar
      rw [hy, List.nil_append, isTagChar_of_ends hends]
    · cases hx

theorem BeginsLike.begins_nothing {c : Char} (h : BeginsLike x y)
    (hx : ¬(c == '-' && x.head? == some '-') = true ∧ ¬(c == '/' && x.head? == some '*') = true ∧
      ¬(c == ':' && startsWord x) = true) :
    (c == '-' && y.head? == some '-') = false ∧ (c == '/' && y.head? == some '*') = false ∧
      (c == ':' && startsWord y) = false := by
  have hhead : ∀ {d : Char}, Text.isGap d = false ∧ d ≠ ',' → y.head? = some d →
      x.head? = some d := by
    intro d hd hy
    rcases h d hy with hg | rfl | hx
    · simp [hg] at hd
    · simp at hd
    · exact hx
  refine ⟨?_, ?_, ?_⟩
  · by_contra hn
    obtain ⟨rfl, hy⟩ : c = '-' ∧ y.head? = some '-' := by simpa using hn
    exact hx.1 (by simp [hhead (by decide) hy])
  · by_contra hn
    obtain ⟨rfl, hy⟩ : c = '/' ∧ y.head? = some '*' := by simpa using hn
    exact hx.2.1 (by simp [hhead (by decide) hy])
  · have hstart : ∀ u : Text, startsWord u = u.head?.any isWordStart := fun u => by
      cases u <;> rfl
    have hcolon := hx.2.2
    rw [hstart] at hcolon ⊢
    cases hc : c == ':' with
    | false => rfl
    | true =>
      simp only [hc, Bool.true_and, Bool.not_eq_true] at hcolon ⊢
      exact h.any (fun _ => not_isWordStart_of_isGap) rfl hcolon

theorem reads_operator {t : Text} (h : BeginsLike x y) (hr : Reads t (.operator t) x) :
    Reads t (.operator t) y := by
  obtain ⟨c, w, rfl, hn⟩ := hr
  refine ⟨c, w, rfl, ?_⟩
  have hlike : BeginsLike (w ++ x) (w ++ y) := h.append
  revert hn
  fun_cases next c (w ++ x)
  case case3 => unfold Scan.blockComment; split <;> intro hn <;> cases hn
  case case6 h1 h2 h3 h4 h5 h6 =>
    obtain rfl : c = '$' := by simpa using h6
    exact dollar_operator h
  case case15 =>
    unfold word
    split
    · split <;> intro hn <;> cases hn
    · split
      · unfold Scan.keyword; split <;> intro hn <;> cases hn
      · intro hn
        cases hn
  case case16 h1 h2 h3 h4 h5 h6 h7 h8 h9 h10 h11 h12 h13 h14 h15 =>
    intro hn
    obtain ⟨hdash, hslash, hcolon⟩ := hlike.begins_nothing ⟨h2, h3, h14⟩
    have hnext : next c (w ++ y) = operator c (w ++ y) := by
      generalize w ++ y = z at hdash hslash hcolon ⊢
      unfold next
      simp [hdash, hslash, hcolon, h1, h4, h5, h6, h7, h9, h10, h11, h12, h13, h15]
    rw [hnext]
    by_cases hw : w = []
    · subst hw
      exact operator_single h hn
    · exact operator_long hw h hn
  all_goals
    intro hn
    cases hn

def Token.Unextended (t : Token) (x : Text) : Prop :=
  ∀ k, t = .keyword k → ∀ e ∈ k.continuations, afterWords? e.1 x = none

/-- Behind a keyword that is not extended the words of the tokens that follow do not extend it. -/
theorem Unextended.head {p : Token} {ts : List Token} (h : SqlLayout.Unextended (p :: ts))
    (hx : words x = ts.flatMap Token.words) : p.Unextended x := by
  rintro k rfl e he
  by_contra hn
  obtain ⟨y, hy⟩ := Option.ne_none_iff_exists'.1 hn
  have hlong := (Keyword.continuations_words k k.mem_words e he).2.2
  refine h [] k ts rfl e he ⟨words y, ?_⟩
  rw [← hx, words_after hy hlong]

theorem Rule.isGap_of_page {c : Char} (h : Rule.page.gap c = true) : Text.isGap c = true := by
  rcases (by simpa [Rule.page] using h : c = ' ' ∨ c = '\n') with rfl | rfl <;> rfl

theorem stops_gap {t : Token} (ht : Shape t) (hx : ∀ c ∈ x.head?, Text.isGap c = true)
    (hr : t.isRemark = true → ∀ c ∈ x.head?, c = '\n') (hk : t.Unextended x) : Stops t x := by
  have hhead : ∀ {p : Char → Bool}, (∀ c, Text.isGap c = true → p c = false) →
      x.head?.any p = false := by
    intro p hp
    cases x with
    | nil => rfl
    | cons c x => exact hp c (hx c rfl)
  have hne : ∀ {d : Char}, Text.isGap d = false → x.head? ≠ some d := by
    intro d hd he
    rw [hx d he] at hd
    cases hd
  have hword : Ends isWordChar x := hhead fun _ => not_isWordChar_of_isGap
  have hnumber : Ends isNumberChar x := hhead fun c hc => by
    have hw := not_isWordChar_of_isGap hc
    rw [← Bool.not_eq_true] at hw ⊢
    rw [isWordChar_iff, isWordStart_iff] at hw
    rw [isNumberChar_iff]
    omega
  cases t with
  | keyword k => exact ⟨hword, hne rfl, hk k rfl⟩
  | identifier => exact ⟨hword, hne rfl⟩
  | string => exact hne rfl
  | quotedName => exact ⟨hne rfl, hne rfl⟩
  | number =>
    refine ⟨hnumber, fun y hy => ?_, fun c y hy hc => ?_⟩
    · exact absurd (by rw [hy]; rfl) (hne (d := '.') rfl)
    · have hgap := hx c (by rw [hy]; rfl)
      rcases (by simpa using hc : c = '+' ∨ c = '-') with rfl | rfl <;> cases hgap
  | operator u =>
    cases ht with
    | operator h =>
      exact reads_operator (x := []) (fun c hc => .inl (hx c hc)) ⟨_, _, rfl, by simpa using h⟩
  | dot => exact startsWithDigit_of_ends hnumber
  | lineComment =>
    cases x with
    | nil => rfl
    | cons c x =>
      obtain rfl := hr rfl c rfl
      rfl
  | _ => trivial

/-- A token that ends by itself or by what follows it, whatever the statement. -/
def Token.isAtom : Token → Bool
  | .keyword _ | .identifier _ | .quotedName _ | .string _ | .number _ => true
  | _ => false

/-- What the layout writes directly behind an atom. -/
theorem tight_atom {p q : Token} (hp : p.isAtom = true) (h : Rule.page.tight p q = true) :
    q ∈ [.comma, .semicolon, .dot, .openParen, .closeParen, .operator [':', ':'],
      .operator ['-', '>'], .operator ['-', '>', '>']] := by
  by_contra hq
  simp only [List.mem_cons, List.not_mem_nil, or_false, not_or] at hq
  obtain ⟨hcomma, hsemi, hdot, hopen, hclose, hcast, harrow, harrow'⟩ := hq
  have hjoin : Token.joinsComparison p q = false := by
    cases p <;> first | rfl | simp [Token.isAtom] at hp
  have hpt : p.isTight = false := by
    cases p <;> first | rfl | simp [Token.isAtom] at hp
  have hqt : q.isTight = false := by
    cases q <;> simp_all [Token.isTight]
  have hpdot : p ≠ .dot ∧ p ≠ .openParen ∧ p ≠ .closeParen := by
    cases p <;> simp_all [Token.isAtom]
  have hspaced : p.spaced q = true := by
    unfold Token.spaced
    simp only [hjoin, hpt, hqt, hpdot, hdot, hclose, hcomma, hsemi, decide_false, Bool.or_false,
      Bool.false_eq_true, if_false]
    split
    · rfl
    · split <;> first | rfl | simp at hopen
  simp [Rule.page, Rule.line, hspaced, hcomma] at h

/-- An atom is stopped by what the layout writes directly behind it. -/
theorem stops_tight {p q : Token} {r : Text} (hp : p.isAtom = true)
    (h : Rule.page.tight p q = true) (hr : q.Spells r) (hk : p.Unextended (r ++ x))
    (hdot : q = .dot → startsWithDigit x = false) : Stops p (r ++ x) := by
  have hq := tight_atom hp h
  have hhead : ∃ c y, r ++ x = c :: y ∧ c ∈ [',', ';', '.', '(', ')', ':', '-'] ∧
      (c = '.' ∨ c = '-' → startsWithDigit y = false) := by
    simp only [List.mem_cons, List.not_mem_nil, or_false] at hq
    rcases hq with rfl | rfl | rfl | rfl | rfl | rfl | rfl | rfl <;> cases hr <;>
      refine ⟨_, _, rfl, by decide, ?_⟩ <;>
      first | exact fun _ => hdot rfl | simp [startsWithDigit]
  obtain ⟨c, y, he, hc, hy⟩ := hhead
  rw [he] at hk ⊢
  have hword : isWordChar c = false ∧ isNumberChar c = false ∧ c ≠ '\'' ∧ c ≠ '"' ∧ c ≠ '\x60' ∧
      c ≠ '+' := by
    simp only [List.mem_cons, List.not_mem_nil, or_false] at hc
    rcases hc with rfl | rfl | rfl | rfl | rfl | rfl | rfl <;> decide
  obtain ⟨hword, hnumber, hquote, hname, hback, hplus⟩ := hword
  cases p with
  | keyword k => exact ⟨hword, by simpa using hquote, hk k rfl⟩
  | identifier => exact ⟨hword, by simpa using hquote⟩
  | string => simpa [Stops] using hquote
  | quotedName => simpa [Stops] using ⟨hname, hback⟩
  | number =>
    refine ⟨hnumber, fun z hz => ?_, fun d z hz hd => ?_⟩
    · obtain ⟨rfl, rfl⟩ := List.cons.inj hz
      exact hy (.inl rfl)
    · obtain ⟨rfl, rfl⟩ := List.cons.inj hz
      exact hy (.inr (by simpa [hplus] using hd))
  | _ => simp [Token.isAtom] at hp

theorem Stops.extend {p : Token} {r : Text} (hp : p = .dot ∨ ∃ t, p = .operator t) (hr : r ≠ [])
    (h : Stops p r) : Stops p (r ++ x) := by
  obtain ⟨c, w, rfl⟩ := List.exists_cons_of_ne_nil hr
  rcases hp with rfl | ⟨t, rfl⟩
  · exact h
  · exact reads_operator (x := c :: w) (fun d hd => .inr (.inr hd)) h

theorem stops_comma {p : Token} (ht : Shape p) (hp : p = .dot ∨ ∃ t, p = .operator t) :
    Stops p (',' :: x) := by
  rcases hp with rfl | ⟨t, rfl⟩
  · rfl
  · cases ht with
    | operator h =>
      refine reads_operator (x := []) (fun c hc => ?_) ⟨_, _, rfl, by simpa using h⟩
      obtain rfl : ',' = c := by simpa using hc
      simp

end SqlLayout

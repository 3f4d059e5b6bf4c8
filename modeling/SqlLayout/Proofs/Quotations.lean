import SqlLayout.Proofs.Sources

/-! Quotations. The scan that reads one and the check that is made of it later decide the same
question: whether the token is written as a quotation should be, up to its closing delimiter.
-/

set_option autoImplicit false

namespace SqlLayout

open Scan

namespace Quoted

/-- What may stand between quotes: the quote itself only doubled and, where a backslash escapes,
any character behind one. -/
inductive Inside (quote : Char) (escapes : Bool) : Text → Prop where
  | nil : Inside quote escapes []
  | plain {c : Char} {t : Text} (hc : c ≠ quote) (he : escapes = true → c ≠ '\\')
      (h : Inside quote escapes t) : Inside quote escapes (c :: t)
  | doubled {t : Text} (h : Inside quote escapes t) : Inside quote escapes (quote :: quote :: t)
  | escaped {c : Char} {t : Text} (he : escapes = true) (h : Inside quote escapes t) :
      Inside quote escapes ('\\' :: c :: t)

variable {quote : Char} {escapes : Bool} {t body after : Text}

theorem Inside.close? (h : Inside quote escapes body) (hq : quote ≠ '\\')
    (ha : after.head? ≠ some quote) :
    Quoted.close? quote escapes (body ++ quote :: after) = some (body ++ [quote], after) := by
  have hquote : (escapes && quote == '\\') = false := by simp [hq]
  induction h with
  | nil => exact close?_quote hquote rfl ha
  | @plain c t hc he _ ih =>
    obtain ⟨d, r, hr⟩ : ∃ d r, t ++ quote :: after = d :: r := by
      cases t <;> simp
    have hslash : (escapes && c == '\\') = false := by
      cases escapes <;> simp_all
    rw [hr] at ih
    simp [hr, Quoted.close?, hslash, hc, ih]
  | doubled _ ih => simp [Quoted.close?, hq, ih]
  | escaped he _ ih =>
    subst he
    simp [Quoted.close?, ih]

theorem inside_of_close? {b : Text} (h : Quoted.close? quote escapes t = some (b, after)) :
    ∃ body, b = body ++ [quote] ∧ Inside quote escapes body ∧ after.head? ≠ some quote := by
  fun_induction Quoted.close? quote escapes t generalizing b with
  | case1 => simp at h
  | case2 => simp at h
  | case3 c hc =>
    obtain ⟨rfl, rfl⟩ : [c] = b ∧ [] = after := by simpa using h
    obtain rfl : c = quote := by simp_all
    exact ⟨[], rfl, .nil, by simp⟩
  | case4 c d rest hc ih =>
    obtain ⟨⟨b', a⟩, hb, he⟩ := Option.map_eq_some_iff.1 h
    cases he
    obtain ⟨body, rfl, hin, hhead⟩ := ih hb
    obtain ⟨hesc, rfl⟩ : escapes = true ∧ c = '\\' := by simpa using hc
    exact ⟨_ :: d :: body, rfl, .escaped hesc hin, hhead⟩
  | case5 c d rest hc hne ih =>
    obtain ⟨⟨b', a⟩, hb, he⟩ := Option.map_eq_some_iff.1 h
    cases he
    obtain ⟨body, rfl, hin, hhead⟩ := ih hb
    exact ⟨c :: body, rfl, .plain (by simpa using hne) (by simpa using hc) hin, hhead⟩
  | case6 c d rest hc hne hd ih =>
    obtain ⟨⟨b', a⟩, hb, he⟩ := Option.map_eq_some_iff.1 h
    cases he
    obtain ⟨body, rfl, hin, hhead⟩ := ih hb
    obtain rfl : c = quote := by simpa using hne
    obtain rfl : d = c := by simpa using hd
    exact ⟨d :: d :: body, rfl, .doubled hin, hhead⟩
  | case7 c d rest hc hne hd =>
    obtain ⟨rfl, rfl⟩ : [c] = b ∧ d :: rest = after := by simpa using h
    obtain rfl : c = quote := by simpa using hne
    exact ⟨[], rfl, .nil, by simpa using hd⟩

def dollars (tag : Text) : Text := '$' :: tag ++ ['$']

def EndsFirst (d t : Text) : Prop := d <:+ t ∧ ∀ l r, t = l ++ d ++ r → r = []

end Quoted

open Quoted

def Token.quotation? : Token → Option Text
  | .string x | .quotedName x => some x
  | _ => none

/-- A quoted token as it should be written, before the text `rest`. -/
inductive Token.Complete (rest : Text) : Token → Prop where
  | plain {body : Text} (hb : Inside '\'' false body) (hr : rest.head? ≠ some '\'') :
      Complete rest (.string ('\'' :: body ++ ['\'']))
  | marked {c : Char} {body : Text} (hc : isMark c = true)
      (hb : Inside '\'' (marksEscapes c) body) (hr : rest.head? ≠ some '\'') :
      Complete rest (.string (c :: '\'' :: body ++ ['\'']))
  | dollar {tag body : Text} (ht : ∀ c ∈ tag, isTagChar c = true)
      (hb : EndsFirst (dollars tag) (body ++ dollars tag)) :
      Complete rest (.string (dollars tag ++ body ++ dollars tag))
  | name {q : Char} {body : Text} (hq : q = '"' ∨ q = '\x60') (hb : Inside q false body)
      (hr : rest.head? ≠ some q) : Complete rest (.quotedName (q :: body ++ [q]))

/-- The opening delimiter of a quoted token, and the scan that looks for its end: what stands up to
there, with the closing delimiter, and what follows. -/
inductive Token.Opening : Token → Text → (Text → Option (Text × Text)) → Prop where
  | plain {x : Text} : Opening (.string x) ['\''] (close? '\'' false)
  | marked {x : Text} {c : Char} (hc : isMark c = true) :
      Opening (.string x) [c, '\''] (close? '\'' (marksEscapes c))
  | dollar {x tag : Text} (ht : ∀ c ∈ tag, isTagChar c = true) :
      Opening (.string x) (dollars tag) fun cs =>
        (around? (dollars tag) cs).map fun (body, after) => (body ++ dollars tag, after)
  | name {x : Text} {q : Char} (hq : q = '"' ∨ q = '\x60') :
      Opening (.quotedName x) [q] (close? q false)

namespace Quoted

variable {q : Char} {escapes : Bool} {cs : Text}

theorem closesAtEnd_iff (hq : Text.isAscii q = true) :
    closesAtEnd escapes (q :: cs) = true ↔ ∃ b, close? q escapes cs = some (b, []) := by
  unfold closesAtEnd
  simp only
  split
  · simp_all
  · rename_i hn
    simp only [Bool.false_eq_true, false_iff]
    rintro ⟨b, hb⟩
    exact hn b hb

theorem isClosed_plain :
    isClosed ('\'' :: cs) = true ↔ ∃ b, close? '\'' false cs = some (b, []) := by
  rw [← closesAtEnd_iff rfl]
  rfl

theorem isClosed_marked {c : Char} (hc : isMark c = true) : isClosed (c :: '\'' :: cs) = true ↔
    ∃ b, close? '\'' (marksEscapes c) cs = some (b, []) := by
  have hdollar : c ≠ '$' := by rintro rfl; simp [isMark] at hc
  rw [← closesAtEnd_iff rfl]
  simp [isClosed, delimiter?, hdollar, hc]

theorem isClosed_name (hq : q = '"' ∨ q = '\x60') :
    isClosed (q :: cs) = true ↔ ∃ b, close? q false cs = some (b, []) := by
  rcases hq with rfl | rfl
  · rw [← closesAtEnd_iff rfl]
    rfl
  · rw [← closesAtEnd_iff rfl]
    rfl

theorem isClosed_dollar {tag : Text} (ht : ∀ c ∈ tag, isTagChar c = true) :
    isClosed (dollars tag ++ cs) = true ↔ dollars tag <:+ cs := by
  have hdel : delimiter? (dollars tag ++ cs) = some (dollars tag) := by
    simpa [dollars] using delimiter?_again ht cs
  rw [isClosed.eq_def, hdel]
  simp only [Bool.and_eq_true, decide_eq_true_eq, List.isSuffixOf_iff_suffix, List.length_append]
  constructor
  · rintro ⟨hlen, hsuf⟩
    exact List.suffix_of_suffix_length_le hsuf (List.suffix_append _ _) (by omega)
  · intro hsuf
    have := hsuf.length_le
    exact ⟨by omega, hsuf.trans (List.suffix_append _ _)⟩

theorem around?_length_le {d : Text} (hd : d ≠ []) (l r : Text) :
    ∃ body after, around? d (l ++ d ++ r) = some (body, after) ∧ body.length ≤ l.length := by
  induction l with
  | nil =>
    obtain ⟨c, d, rfl⟩ := List.exists_cons_of_ne_nil hd
    have hpre : (c :: d).isPrefixOf (c :: (d ++ r)) = true :=
      List.isPrefixOf_iff_prefix.2 (List.prefix_append (c :: d) r)
    exact ⟨[], r, by simp [around?, hpre], le_rfl⟩
  | cons c l ih =>
    obtain ⟨body, after, hbody, hlen⟩ := ih
    rw [List.cons_append, List.cons_append, around?]
    split
    · exact ⟨[], _, rfl, by simp⟩
    · exact ⟨c :: body, after, by rw [hbody]; rfl, by simpa using hlen⟩

theorem endsFirst_of_around? {d body after : Text} (hd : d ≠ [])
    (h : around? d cs = some (body, after)) : EndsFirst d (body ++ d) := by
  refine ⟨List.suffix_append _ _, fun l r he => ?_⟩
  obtain ⟨b, a, hb, hlen⟩ := around?_length_le hd l r
  have hfirst := around?_again hd h []
  rw [List.append_nil, he, hb] at hfirst
  obtain ⟨rfl, -⟩ : b = body ∧ a = [] := by simpa using hfirst
  have := congrArg List.length he
  simp only [List.length_append] at this
  exact List.length_eq_zero_iff.1 (by omega)

theorem EndsFirst.around? {d body : Text} (h : EndsFirst d (body ++ d)) (hd : d ≠ []) (x : Text) :
    Quoted.around? d (body ++ d ++ x) = some (body, x) := by
  obtain ⟨b, a, hb, -⟩ := around?_length_le hd body []
  rw [List.append_nil] at hb
  have hsplit := around?_append hb
  obtain rfl := h.2 b a hsplit.symm
  obtain rfl : b = body := by simpa using hsplit
  exact around?_again hd hb x

end Quoted

namespace Token

variable {t : Token} {x o rest after body : Text} {scan : Text → Option (Text × Text)}

theorem Opening.complete (ho : t.Opening o scan) (hx : t.quotation? = some (o ++ body))
    (h : scan rest = some (body, after)) : t.Complete after := by
  cases ho with
  | plain =>
    obtain ⟨b, rfl, hin, hhead⟩ := inside_of_close? h
    obtain rfl := Option.some.inj hx
    exact .plain hin hhead
  | marked hc =>
    obtain ⟨b, rfl, hin, hhead⟩ := inside_of_close? h
    obtain rfl := Option.some.inj hx
    exact .marked hc hin hhead
  | dollar ht =>
    obtain ⟨⟨b, a⟩, hb, he⟩ := Option.map_eq_some_iff.1 h
    cases he
    obtain rfl := Option.some.inj hx
    simpa using Complete.dollar ht (endsFirst_of_around? (by simp [dollars]) hb)
  | name hq =>
    obtain ⟨b, rfl, hin, hhead⟩ := inside_of_close? h
    obtain rfl := Option.some.inj hx
    exact .name hq hin hhead

theorem Complete.isClosed (h : t.Complete rest) (hx : t.quotation? = some x) :
    Quoted.isClosed x = true := by
  cases h with
  | plain hb =>
    obtain rfl := Option.some.inj hx
    exact isClosed_plain.2 ⟨_, hb.close? (by decide) (by simp)⟩
  | marked hc hb =>
    obtain rfl := Option.some.inj hx
    exact (isClosed_marked hc).2 ⟨_, hb.close? (by decide) (by simp)⟩
  | dollar ht =>
    obtain rfl := Option.some.inj hx
    rw [List.append_assoc]
    exact (isClosed_dollar ht).2 (List.suffix_append _ _)
  | @name q _ hq hb =>
    obtain rfl := Option.some.inj hx
    have hslash : q ≠ '\\' := by rcases hq with rfl | rfl <;> decide
    exact (isClosed_name hq).2 ⟨_, hb.close? hslash (by simp)⟩

/-- Where the scan finds no end, what was read fails the check. -/
theorem Opening.unclosed (ho : t.Opening o scan) (h : scan rest = none) :
    Quoted.isClosed (o ++ rest) = false := by
  refine Bool.not_eq_true _ ▸ fun hc => ?_
  cases ho with
  | plain => simpa [h] using isClosed_plain.1 hc
  | marked hm => simpa [h] using (isClosed_marked hm).1 hc
  | @dollar _ tag ht =>
    obtain ⟨l, rfl⟩ := (isClosed_dollar ht).1 hc
    obtain ⟨b, a, hb, -⟩ := around?_length_le (d := dollars tag) (by simp [dollars]) l []
    rw [List.append_nil] at hb
    simp [hb] at h
  | name hq => simpa [h] using (isClosed_name hq).1 hc

end Token

/-- A quotation is read up to its end, or without one up to the end of the text. -/
theorem quotation_scan (q : Char) (escapes : Bool) (cs : Text) :
    close? q escapes cs = some (quotation q escapes cs) ∨
      close? q escapes cs = none ∧ quotation q escapes cs = (cs, []) := by
  unfold quotation
  cases close? q escapes cs with
  | none => exact .inr ⟨rfl, rfl⟩
  | some r => exact .inl rfl

/-- The token is read from the text `y`, and `after` is left: an opening delimiter, and what the scan
behind it takes or, where it finds no end, all. -/
def Token.ReadFrom (t : Token) (y x after : Text) : Prop :=
  ∃ o scan rest, t.Opening o scan ∧ y = o ++ rest ∧
    ((∃ body, scan rest = some (body, after) ∧ x = o ++ body) ∨
      scan rest = none ∧ x = y ∧ after = [])

theorem Token.Opening.readFrom {t : Token} {o : Text} {q : Char} {escapes : Bool}
    (ho : t.Opening o (close? q escapes)) (rest : Text) :
    t.ReadFrom (o ++ rest) (o ++ (quotation q escapes rest).1) (quotation q escapes rest).2 := by
  refine ⟨o, _, rest, ho, rfl, ?_⟩
  rcases quotation_scan q escapes rest with h | ⟨h, he⟩
  · exact .inl ⟨_, h, rfl⟩
  · exact .inr ⟨h, by rw [he], by rw [he]⟩

theorem readFrom_word {c : Char} {cs x : Text} (hx : (word c cs).1.quotation? = some x) :
    (word c cs).1.ReadFrom (c :: cs) x (word c cs).2 := by
  unfold word at hx ⊢
  rcases hrun : Reader.run isWordChar cs with ⟨w, y⟩
  rw [hrun] at hx
  obtain ⟨-, -, rfl⟩ := run_eq hrun
  split at hx
  · rename_i rest he
    obtain ⟨rfl, rfl⟩ := Prod.mk.inj he
    split at hx
    · rename_i hm
      obtain rfl := Option.some.inj hx
      simpa [hm] using (Token.Opening.marked hm).readFrom rest
    · simp [Token.quotation?] at hx
  · split at hx
    · unfold Scan.keyword at hx
      split at hx <;> simp [Token.quotation?] at hx
    · simp [Token.quotation?] at hx

theorem readFrom_dollar {cs x : Text} (hx : (dollar cs).1.quotation? = some x) :
    (dollar cs).1.ReadFrom ('$' :: cs) x (dollar cs).2 := by
  unfold dollar at hx ⊢
  split at hx
  · rename_i d hd
    obtain ⟨hdel, hsplit⟩ := delimiter?_eq hd
    have hopen : ∀ y : Text, (Token.string y).Opening d fun cs =>
        (around? d cs).map fun (body, after) => (body ++ d, after) := by
      intro y
      rw [hdel]
      exact .dollar fun c => List.mem_takeWhile_imp
    split at hx
    · rename_i body after hb
      obtain rfl := Option.some.inj hx
      refine ⟨d, _, _, hopen _, hsplit, .inl ⟨body ++ d, by simp [hb], by simp⟩⟩
    · rename_i hb
      obtain rfl := Option.some.inj hx
      exact ⟨d, _, _, hopen _, hsplit, .inr ⟨by simp [hb], rfl, rfl⟩⟩
  · split at hx <;> simp [Token.quotation?] at hx

theorem readFrom_next {c : Char} {cs x : Text} (hx : (next c cs).1.quotation? = some x) :
    (next c cs).1.ReadFrom (c :: cs) x (next c cs).2 := by
  revert hx
  fun_cases next c cs
  case case3 =>
    unfold Scan.blockComment
    split <;> simp [Token.quotation?]
  case case4 h =>
    intro hx
    obtain rfl : c = '\'' := by simpa using h
    obtain rfl := Option.some.inj hx
    exact Token.Opening.plain.readFrom cs
  case case5 h =>
    intro hx
    obtain rfl := Option.some.inj hx
    exact (Token.Opening.name (by simpa using h)).readFrom cs
  case case6 h =>
    obtain rfl : c = '$' := by simpa using h
    exact readFrom_dollar
  case case15 => exact readFrom_word
  case case16 =>
    unfold operator
    split <;> simp [Token.quotation?]
  all_goals simp [Token.quotation?]

theorem Token.Lexeme.quotation {t : Token} {rest s x : Text} (h : t.Lexeme rest s)
    (hx : t.quotation? = some x) : s = x := by
  cases t with
  | string y | quotedName y => exact h.trans (Option.some.inj hx)
  | _ => simp [Token.quotation?] at hx

/-- The check agrees with the scan. -/
theorem Token.ReadFrom.closed {t : Token} {y x after : Text} (h : t.ReadFrom y x after)
    (hx : t.quotation? = some x) :
    (after ≠ [] → isClosed x = true) ∧ (isClosed x = true ↔ t.Complete after) ∧
      ∃ o scan rest, t.Opening o scan ∧ y = o ++ rest ∧ (isClosed x = false ↔ scan rest = none) := by
  obtain ⟨o, scan, rest, ho, hy, ⟨body, hscan, rfl⟩ | ⟨hscan, rfl, rfl⟩⟩ := h
  · have hcomplete := ho.complete hx hscan
    have hclosed := hcomplete.isClosed hx
    exact ⟨fun _ => hclosed, by simp [hclosed, hcomplete], o, scan, rest, ho, hy,
      by simp [hclosed, hscan]⟩
  · have hopen : isClosed x = false := hy ▸ ho.unclosed hscan
    have hnot : ¬t.Complete [] := fun hc => by simp [hc.isClosed hx] at hopen
    exact ⟨fun hn => absurd rfl hn, by simp [hopen, hnot], o, scan, rest, ho, hy,
      by simp [hopen, hscan]⟩

theorem readFrom_of_mem {input x : Text} {t : Token} (h : t ∈ tokenize input)
    (hx : t.quotation? = some x) : ∃ y after, t.ReadFrom y x after := by
  fun_induction tokenize input with
  | case1 => simp at h
  | case2 c cs hlen ih =>
    rcases List.mem_cons.1 h with rfl | h
    · exact ⟨_, _, readFrom_next hx⟩
    · exact ih h

/-- A quoted token passes the check iff it is written as it should be where it stands in the text,
and fails it iff it was read to the end of the text without its closing delimiter; so only the last
token may fail. -/
theorem closed_iff_read (input : Text) {l r : List Token} {t : Token} {x : Text}
    (h : tokenize input = l ++ t :: r) (hx : t.quotation? = some x) :
    (r ≠ [] → isClosed x = true) ∧
    ∃ ls rs : List Text, ls.length = l.length ∧ (ls ++ x :: rs).flatten = input ∧
      Lexemes (tokenize input) (ls ++ x :: rs) ∧ (isClosed x = true ↔ t.Complete rs.flatten) ∧
      ∃ o scan rest, t.Opening o scan ∧ x ++ rs.flatten = o ++ rest ∧
        (isClosed x = false ↔ scan rest = none) := by
  fun_induction tokenize input generalizing l with
  | case1 => simp at h
  | case2 c cs hlen ih =>
    obtain ⟨s, hs, hlex⟩ := next_lexeme c cs
    have hne : s ≠ [] := by
      rintro rfl
      have := congrArg List.length hs
      simp only [List.length_cons, List.nil_append] at this
      omega
    cases l with
    | nil =>
      obtain ⟨rfl, rfl⟩ := List.cons.inj h
      obtain rfl := hlex.quotation hx
      obtain ⟨hafter, hcomplete, hscan⟩ := (readFrom_next hx).closed hx
      obtain ⟨rs, hrs, hrest⟩ := lexemes_tokenize (next c cs).2
      refine ⟨fun hr => hafter fun hn => hr (by rw [hn, tokenize]), [], rs, rfl, ?_, ?_, ?_, ?_⟩
      · rw [List.nil_append, List.flatten_cons, hrs, hs]
      · exact .cons hne (by rwa [hrs]) hrest
      · rwa [hrs]
      · rwa [hrs, ← hs]
    | cons u l =>
      obtain ⟨rfl, hrest⟩ := List.cons.inj h
      obtain ⟨hlast, ls, rs, hlength, hflat, hlexemes, hcomplete, hscan⟩ := ih hrest
      refine ⟨hlast, s :: ls, rs, by simp [hlength], ?_, ?_, hcomplete, hscan⟩
      · rw [List.cons_append, List.flatten_cons, hflat, hs]
      · exact .cons hne (hflat.symm ▸ hlex) hlexemes

/-- Of two strings the first one holds an escaped quote and is closed; the second one ends with a
doubled quote, so that its end is not found. -/
theorem closed_iff_read_doubled :
    tokenize "E'it\\'s' 'a''".toList = [.string "E'it\\'s'".toList, .gap [' ']] ++
        .string "'a''".toList :: [] ∧
      Quoted.isClosed "E'it\\'s'".toList = true ∧ Quoted.isClosed "'a''".toList = false ∧
      ∃ o scan rest after, (Token.string "'a''".toList).Opening o scan ∧
        "'a''".toList ++ after = o ++ rest ∧ scan rest = none := by
  have htokens : tokenize "E'it\\'s' 'a''".toList =
      [.string "E'it\\'s'".toList, .gap [' ']] ++ .string "'a''".toList :: [] := by decide +kernel
  have hopen : Quoted.isClosed "'a''".toList = false := by decide +kernel
  obtain ⟨hfirst, -⟩ := closed_iff_read _ (l := []) htokens rfl
  obtain ⟨-, _, rs, -, -, -, -, o, scan, rest, ho, hrest, hscan⟩ := closed_iff_read _ htokens rfl
  exact ⟨htokens, hfirst (by simp), hopen, o, scan, rest, rs.flatten, ho, hrest, hscan.1 hopen⟩

end SqlLayout

import SqlLayout.Proofs.Shape
import SqlLayout.Proofs.UpperCase

/-! Keywords of several words. A keyword takes in the words behind it, so whether it is read again
depends on the words that follow; these are the same however the text is spaced.
-/

set_option autoImplicit false

namespace SqlLayout

open Scan

def solid (ts : List Token) : List Token := ts.filter fun t => !t.isGap

theorem isGap_next (c : Char) (cs : Text) : (next c cs).1.isGap = Text.isGap c := by
  fun_cases next c cs
  case case1 h => exact h.symm
  case case3 h _ _ => unfold Scan.blockComment; split <;> simp_all [Token.isGap]
  case case6 h _ _ _ _ _ => unfold dollar; split <;> split <;> simp_all [Token.isGap]
  case case15 =>
    unfold word Scan.keyword
    repeat' split
    all_goals simp_all [Token.isGap]
  case case16 => unfold operator; split <;> simp_all [Token.isGap]
  all_goals simp_all [Token.isGap]

namespace Keyword

def opening : Keyword → Keyword × List String
  | .ORDER_BY => (.ORDER, ["BY"])
  | .GROUP_BY => (.GROUP, ["BY"])
  | .UNION_ALL => (.UNION, ["ALL"])
  | .LEFT_JOIN => (.LEFT, ["JOIN"])
  | .LEFT_OUTER_JOIN => (.LEFT, ["OUTER", "JOIN"])
  | .RIGHT_JOIN => (.RIGHT, ["JOIN"])
  | .RIGHT_OUTER_JOIN => (.RIGHT, ["OUTER", "JOIN"])
  | .FULL_JOIN => (.FULL, ["JOIN"])
  | .FULL_OUTER_JOIN => (.FULL, ["OUTER", "JOIN"])
  | .INNER_JOIN => (.INNER, ["JOIN"])
  | .OUTER_JOIN => (.OUTER, ["JOIN"])
  | .CROSS_JOIN => (.CROSS, ["JOIN"])
  | .PRIMARY_KEY => (.PRIMARY, ["KEY"])
  | .FOREIGN_KEY => (.FOREIGN, ["KEY"])
  | .IF_EXISTS => (.IF, ["EXISTS"])
  | .IF_NOT_EXISTS => (.IF, ["NOT", "EXISTS"])
  | k => (k, [])

def longWords : List Keyword :=
  [.ORDER_BY, .GROUP_BY, .UNION_ALL, .LEFT_JOIN, .LEFT_OUTER_JOIN, .RIGHT_JOIN, .RIGHT_OUTER_JOIN,
   .FULL_JOIN, .FULL_OUTER_JOIN, .INNER_JOIN, .OUTER_JOIN, .CROSS_JOIN, .PRIMARY_KEY, .FOREIGN_KEY,
   .IF_EXISTS, .IF_NOT_EXISTS]

theorem mem_words (k : Keyword) : k ∈ singleWords ++ longWords := by
  refine List.contains_iff_mem.1 ?_
  cases k <;> rfl

end Keyword

def spacedWords (ws : List Text) : Text := ws.flatMap (' ' :: ·)

namespace Keyword

theorem text_opening : ∀ k ∈ singleWords ++ longWords, k.opening.1 ∈ singleWords ∧
    k.text = k.opening.1.text ++ spacedWords (k.opening.2.map String.toList) := by
  decide +kernel

theorem continuations_opening : ∀ k ∈ singleWords ++ longWords, k.opening = (k, []) ∨
    (k.opening.2, k) ∈ k.opening.1.continuations ∧ k.opening.2 ≠ [] ∧ k.continuations = [] ∧
      ∀ e ∈ k.opening.1.continuations, e = (k.opening.2, k) ∨ e.1 ≠ [] ∧
        Text.sameLetters (k.opening.2.headD "").toList (e.1.headD "").toList = false := by
  decide +kernel

def isLongWord (w : Text) : Bool :=
  2 ≤ w.length && w.all isWordChar && w.head?.any isWordStart

theorem continuations_words : ∀ k ∈ singleWords ++ longWords, ∀ e ∈ k.continuations,
    e.1 ≠ [] ∧ e.2.opening = (k, e.1) ∧ ∀ w ∈ e.1, isLongWord w.toList = true := by
  decide +kernel

theorem single_word : ∀ k ∈ singleWords,
    isLongWord k.text = true ∧ ofWord? k.text = some k ∧ k.opening = (k, []) := by
  decide +kernel

end Keyword

namespace Scan

theorem isWordStart_toLower (c : Char) : isWordStart c.toLower = isWordStart c := by
  have h := Text.toNat_toLower c
  rw [Bool.eq_iff_iff, isWordStart_iff, isWordStart_iff]
  split at h <;> omega

theorem isWordChar_toLower (c : Char) : isWordChar c.toLower = isWordChar c := by
  have h := Text.toNat_toLower c
  rw [Bool.eq_iff_iff, isWordChar_iff, isWordChar_iff, isWordStart_toLower, isWordStart_iff]
  split at h <;> omega

theorem isGap_of_isWordChar {c : Char} (h : isWordChar c = true) : Text.isGap c = false := by
  rw [isWordChar_iff, isWordStart_iff] at h
  rw [← Bool.not_eq_true]
  simp only [Text.isGap, Bool.or_eq_true, beq_iff_eq, ← Char.toNat_inj, Char.reduceToNat]
  omega

end Scan

namespace Text

abbrev folded (t : Text) : Text := t.map Char.toLower

variable {s t : Text}

theorem all_isWordChar (h : folded s = folded t) : s.all isWordChar = t.all isWordChar := by
  have := congrArg (List.all · isWordChar) h
  simpa [folded, List.all_map, Function.comp_def, isWordChar_toLower] using this

theorem head_isWordStart (h : folded s = folded t) :
    s.head?.any isWordStart = t.head?.any isWordStart := by
  cases s <;> cases t <;> simp_all [folded]
  rename_i c _ d _
  rw [← isWordStart_toLower c, h.1, isWordStart_toLower]

theorem isLongWord_congr (h : folded s = folded t) :
    Keyword.isLongWord s = Keyword.isLongWord t := by
  have hlen : s.length = t.length := by simpa using congrArg List.length h
  rw [Keyword.isLongWord, Keyword.isLongWord, hlen, all_isWordChar h, head_isWordStart h]

theorem folded_space {c : Char} (h : c.toLower = ' ') : c = ' ' := by
  have hn := toNat_toLower c
  rw [h] at hn
  rw [← Char.toNat_inj]
  split at hn <;> simp only [Char.reduceToNat] at hn ⊢ <;> omega

end Text

theorem Keyword.of_isLongWord {u : Text} (h : isLongWord u = true) :
    ∃ c w, u = c :: w ∧ w ≠ [] ∧ isWordStart c = true ∧ isWordChar c = true ∧
      ∀ d ∈ w, isWordChar d = true := by
  simp only [isLongWord, Bool.and_eq_true, decide_eq_true_eq, List.all_eq_true] at h
  obtain ⟨⟨hlen, hall⟩, hstart⟩ := h
  rcases u with _ | ⟨c, w⟩
  · simp at hlen
  · refine ⟨c, w, rfl, ?_, by simpa using hstart, hall c (by simp), fun d hd => hall d (by simp [hd])⟩
    rintro rfl
    simp at hlen

theorem Keyword.not_mem_of_isLongWord {u : Text} (h : isLongWord u = true) : ' ' ∉ u := by
  obtain ⟨c, w, rfl, -, -, hc, hw⟩ := of_isLongWord h
  intro hmem
  have hspace : isWordChar ' ' = true := by
    rcases List.mem_cons.1 hmem with rfl | hmem
    · exact hc
    · exact hw _ hmem
  cases hspace

/-- The second text is the first with its letters A to Z in any case and with any blanks, at least
one, in place of each space. -/
inductive Respaced : Text → Text → Prop where
  | nil : Respaced [] []
  | letter {c d : Char} {k s : Text} (hc : c ≠ ' ') (hd : d.toLower = c.toLower)
      (h : Respaced k s) : Respaced (c :: k) (d :: s)
  | gap {g k s : Text} (hne : g ≠ []) (hg : ∀ c ∈ g, Text.isGap c = true) (h : Respaced k s) :
      Respaced (' ' :: k) (g ++ s)

namespace Respaced

variable {a b s t : Text}

theorem append (h : Respaced a s) (h' : Respaced b t) : Respaced (a ++ b) (s ++ t) := by
  induction h with
  | nil => exact h'
  | letter hc hd _ ih => exact .letter hc hd ih
  | gap hne hg _ ih =>
    rw [List.append_assoc]
    exact .gap hne hg ih

theorem of_append (h : Respaced (a ++ b) s) :
    ∃ u v, s = u ++ v ∧ Respaced a u ∧ Respaced b v := by
  induction a generalizing s with
  | nil => exact ⟨[], s, rfl, .nil, h⟩
  | cons c a ih =>
    cases h with
    | @letter _ d _ s hc hd h =>
      obtain ⟨u, v, rfl, hu, hv⟩ := ih h
      exact ⟨d :: u, v, rfl, .letter hc hd hu, hv⟩
    | @gap g _ s hne hg h =>
      obtain ⟨u, v, rfl, hu, hv⟩ := ih h
      exact ⟨g ++ u, v, by simp, .gap hne hg hu, hv⟩

theorem folded (h : Respaced a s) (ha : ' ' ∉ a) : Text.folded s = Text.folded a := by
  induction h with
  | nil => rfl
  | letter _ hd _ ih =>
    simp only [Text.folded, List.map_cons, hd, List.cons.injEq, true_and]
    exact ih fun hn => ha (by simp [hn])
  | gap => simp at ha

theorem of_folded (h : Text.folded s = Text.folded a) : Respaced a s := by
  induction a generalizing s with
  | nil =>
    obtain rfl : s = [] := by simpa [Text.folded] using h
    exact .nil
  | cons c a ih =>
    obtain ⟨d, s, rfl, hd, hs⟩ := List.map_eq_cons_iff.1 h
    by_cases hc : c = ' '
    · subst hc
      obtain rfl := Text.folded_space hd
      exact .gap (g := [' ']) (by simp) (by simp [Text.isGap]) (ih hs)
    · exact .letter hc hd (ih hs)

end Respaced

namespace Scan

variable {u x g : Text}

theorem ends_of_isGap {c : Char} (h : Text.isGap c = true) (x : Text) : Ends isWordChar (c :: x) := by
  change isWordChar c = false
  by_contra hn
  simp [isGap_of_isWordChar (by simpa using hn)] at h

theorem next_longWord {c : Char} {w : Text} (hc : isWordStart c = true) (hne : w ≠ [])
    (hw : ∀ d ∈ w, isWordChar d = true) (hx : Ends isWordChar x) :
    next c (w ++ x) = match Keyword.ofWord? (c :: w) with
      | some k => keyword k x
      | none => (.identifier (c :: w), x) := by
  rw [next_word hc, word, Ends.run hw hx]
  split
  · rename_i he
    exact absurd (Prod.mk.inj he).1 hne
  · rename_i he
    obtain ⟨rfl, rfl⟩ := Prod.mk.inj he
    rfl

theorem dropWhile_gap (hg : ∀ c ∈ g, Text.isGap c = true) (hu : Keyword.isLongWord u = true) :
    (g ++ (u ++ x)).dropWhile Text.isGap = u ++ x := by
  obtain ⟨c, w, rfl, -, -, hc, -⟩ := Keyword.of_isLongWord hu
  rw [List.dropWhile_append_of_pos hg]
  simp [isGap_of_isWordChar hc]

theorem afterWords?_cons (w : String) (ws : List String) (hg : ∀ c ∈ g, Text.isGap c = true)
    (hu : Keyword.isLongWord u = true) (hx : Ends isWordChar x) :
    afterWords? (w :: ws) (g ++ (u ++ x)) =
      if Text.sameLetters u w.toList then afterWords? ws x else none := by
  have hall : ∀ d ∈ u, isWordChar d = true := by
    obtain ⟨c, w, rfl, -, -, hc, hw⟩ := Keyword.of_isLongWord hu
    simpa using ⟨hc, hw⟩
  obtain ⟨htake, hdrop⟩ := Prod.mk.inj (Ends.run hall hx)
  rw [afterWords?]
  simp only [dropWhile_gap hg hu, htake, hdrop]

theorem respaced_cons {w : String} {ws : List String} {r : Text}
    (hw : Keyword.isLongWord w.toList = true)
    (h : Respaced (spacedWords ((w :: ws).map String.toList)) r) :
    ∃ g u r', r = g ++ (u ++ r') ∧ g ≠ [] ∧ (∀ c ∈ g, Text.isGap c = true) ∧
      Text.folded u = Text.folded w.toList ∧ Respaced (spacedWords (ws.map String.toList)) r' := by
  have hsplit : Respaced (' ' :: (w.toList ++ spacedWords (ws.map String.toList))) r := by
    simpa [spacedWords] using h
  cases hsplit with
  | letter hc => exact absurd rfl hc
  | @gap g _ s hne hg hs =>
    obtain ⟨u, r', rfl, hu, hr⟩ := hs.of_append
    exact ⟨g, u, r', rfl, hne, hg, hu.folded (Keyword.not_mem_of_isLongWord hw), hr⟩

theorem ends_spaced {ws : List String} {r : Text}
    (hw : ∀ w ∈ ws, Keyword.isLongWord w.toList = true)
    (hr : Respaced (spacedWords (ws.map String.toList)) r) (hx : Ends isWordChar x) :
    Ends isWordChar (r ++ x) := by
  cases ws with
  | nil =>
    cases hr
    exact hx
  | cons w ws =>
    obtain ⟨g, u, r, rfl, hne, hg, -, -⟩ := respaced_cons (hw w (by simp)) hr
    obtain ⟨c, g, rfl⟩ := List.exists_cons_of_ne_nil hne
    exact ends_of_isGap (hg c (by simp)) _

theorem afterWords?_spaced {ws : List String} (hw : ∀ w ∈ ws, Keyword.isLongWord w.toList = true)
    {r : Text} (hr : Respaced (spacedWords (ws.map String.toList)) r)
    (hx : Ends isWordChar x) : afterWords? ws (r ++ x) = some x := by
  induction ws generalizing r with
  | nil =>
    cases hr
    rfl
  | cons w ws ih =>
    have hws : ∀ v ∈ ws, Keyword.isLongWord v.toList = true := fun v hv => hw v (by simp [hv])
    obtain ⟨g, u, r, rfl, -, hg, hu, hr⟩ := respaced_cons (hw w (by simp)) hr
    have hlong : Keyword.isLongWord u = true := by
      rw [Text.isLongWord_congr hu]
      exact hw w (by simp)
    have hafter := afterWords?_cons w ws hg hlong (ends_spaced hws hr hx)
    rw [if_pos (by rw [Text.sameLetters, beq_iff_eq]; exact hu), ih hws hr] at hafter
    simpa using hafter

theorem afterWords?_other {w v : String} {ws vs : List String} {r : Text}
    (hw : ∀ u ∈ w :: ws, Keyword.isLongWord u.toList = true)
    (hr : Respaced (spacedWords ((w :: ws).map String.toList)) r)
    (hx : Ends isWordChar x) (hv : Text.sameLetters w.toList v.toList = false) :
    afterWords? (v :: vs) (r ++ x) = none := by
  obtain ⟨g, u, r, rfl, -, hg, hu, hr⟩ := respaced_cons (hw w (by simp)) hr
  have hlong : Keyword.isLongWord u = true := by
    rw [Text.isLongWord_congr hu]
    exact hw w (by simp)
  have hafter := afterWords?_cons v vs hg hlong
    (ends_spaced (fun z hz => hw z (by simp [hz])) hr hx)
  have hne : Text.sameLetters u v.toList = false := by
    rw [← hv, Text.sameLetters, Text.sameLetters]
    exact congrArg (· == _) hu
  simpa [hne] using hafter

end Scan

theorem findSome?_eq {α β : Type} {f : α → Option β} {l : List α} {a : α} {b : β} (ha : a ∈ l)
    (hf : f a = some b) (h : ∀ e ∈ l, e = a ∨ f e = none) : l.findSome? f = some b := by
  induction l with
  | nil => simp at ha
  | cons e l ih =>
    rcases h e (by simp) with rfl | hn
    · simp [hf]
    · rcases List.mem_cons.1 ha with rfl | ha
      · simp [hf] at hn
      · simp [hn, ih ha fun e he => h e (by simp [he])]

theorem Keyword.ofWord?_congr {u w : Text} (h : Text.folded u = Text.folded w) :
    ofWord? u = ofWord? w := by
  simp only [ofWord?, Text.sameLetters, show u.map Char.toLower = w.map Char.toLower from h]

/-- A keyword is read from its spelling, in any letter case and with any blanks between its words,
before a text that does not go on with it. -/
theorem reads_keyword {k : Keyword} {r x : Text} (hr : Respaced k.text r)
    (hx : Stops (.keyword k) x) : Reads r (.keyword k) x := by
  obtain ⟨hfirst, htext⟩ := Keyword.text_opening k k.mem_words
  obtain ⟨hlong, hof, -⟩ := Keyword.single_word _ hfirst
  rw [htext] at hr
  obtain ⟨u, v, rfl, hu, hv⟩ := hr.of_append
  replace hu := hu.folded (Keyword.not_mem_of_isLongWord hlong)
  have hulong : Keyword.isLongWord u = true := by rwa [Text.isLongWord_congr hu]
  have huof : Keyword.ofWord? u = some k.opening.1 := by rwa [Keyword.ofWord?_congr hu]
  obtain ⟨c, w, rfl, hne, hc, -, hw⟩ := Keyword.of_isLongWord hulong
  refine ⟨c, w ++ v, rfl, ?_⟩
  rw [List.append_assoc]
  rcases Keyword.continuations_opening k k.mem_words with hk | ⟨hmem, hne', -, hother⟩
  · obtain rfl : v = [] := by
      rw [hk] at hv
      cases hv
      rfl
    rw [List.nil_append, next_longWord hc hne hw hx.1, huof, hk]
    simp only [Scan.keyword]
    rw [List.findSome?_eq_none_iff.2 fun e he => by simp [hx.2.2 e he]]
  · have hwords : ∀ w ∈ k.opening.2, Keyword.isLongWord w.toList = true :=
      (Keyword.continuations_words _ (Keyword.mem_words _) _ hmem).2.2
    have hafter := afterWords?_spaced hwords hv hx.1
    rw [next_longWord hc hne hw (ends_spaced hwords hv hx.1), huof]
    simp only [Scan.keyword]
    rw [findSome?_eq (b := (k, x)) hmem (by simp [hafter])]
    obtain ⟨w₀, ws₀, hopen⟩ := List.exists_cons_of_ne_nil hne'
    rw [hopen] at hv hwords hother
    rintro ⟨ws, l⟩ he
    refine (hother _ he).imp (by simp [hopen]) fun ⟨hws, hdiff⟩ => ?_
    obtain ⟨v₀, vs₀, rfl⟩ := List.exists_cons_of_ne_nil hws
    exact Option.map_eq_none_iff.2 (afterWords?_other hwords hv hx.1 hdiff)

theorem solid_dropWhile (x : Text) :
    solid (tokenize (x.dropWhile Text.isGap)) = solid (tokenize x) := by
  cases x with
  | nil => rfl
  | cons c x =>
    by_cases hc : Text.isGap c = true
    · rw [List.dropWhile_cons_of_pos hc, tokenize_cons, next, if_pos hc]
      rfl
    · rw [List.dropWhile_cons_of_neg hc]

theorem solid_gap {g : Text} (hg : ∀ c ∈ g, Text.isGap c = true) (x : Text) :
    solid (tokenize (g ++ x)) = solid (tokenize x) := by
  rw [← solid_dropWhile, List.dropWhile_append_of_pos hg, solid_dropWhile]

/-- The words of a token, lowered. What is no word is an empty one. -/
def Token.words : Token → List Text
  | .keyword k => Text.folded k.opening.1.text :: k.opening.2.map fun w => Text.folded w.toList
  | .identifier t => [Text.folded t]
  | _ => [[]]

def words (x : Text) : List Text := (solid (tokenize x)).flatMap Token.words

theorem words_cons {c : Char} {cs : Text} (h : (next c cs).1.isGap = false) :
    words (c :: cs) = (next c cs).1.words ++ words (next c cs).2 := by
  simp [words, tokenize_cons, solid, h]

abbrev foldedWords (ws : List String) : List Text := ws.map fun w => Text.folded w.toList

theorem words_dropWhile (x : Text) : words (x.dropWhile Text.isGap) = words x := by
  rw [words, solid_dropWhile, words]

section

variable {n : Nat} (hword : ∀ {u x : Text}, (u ++ x).length ≤ n → Keyword.isLongWord u = true →
  Ends isWordChar x → words (u ++ x) = Text.folded u :: words x)

include hword

theorem words_same {w : Text} {x : Text} (hn : x.length ≤ n) (hw : Keyword.isLongWord w = true)
    (hs : Text.sameLetters ((x.dropWhile Text.isGap).takeWhile isWordChar) w = true) :
    words x = Text.folded w :: words ((x.dropWhile Text.isGap).dropWhile isWordChar) := by
  have hlen : (x.dropWhile Text.isGap).length ≤ x.length := (List.dropWhile_suffix _).length_le
  rw [← words_dropWhile]
  generalize x.dropWhile Text.isGap = start at *
  have hfold : Text.folded (start.takeWhile isWordChar) = Text.folded w := by
    simpa [Text.sameLetters] using hs
  have hlong : Keyword.isLongWord (start.takeWhile isWordChar) = true := by
    rwa [Text.isLongWord_congr hfold]
  have hsplit : start.takeWhile isWordChar ++ start.dropWhile isWordChar = start :=
    List.takeWhile_append_dropWhile
  have := hword (by rw [hsplit]; omega) hlong (run_eq rfl).2.1
  rwa [hsplit, hfold] at this

theorem words_of_afterWords? {ws : List String} {x y : Text} (hn : x.length ≤ n)
    (h : afterWords? ws x = some y) (hw : ∀ w ∈ ws, Keyword.isLongWord w.toList = true) :
    words x = foldedWords ws ++ words y := by
  fun_induction afterWords? ws x with
  | case1 => simp_all
  | case2 w ws x start hs ih =>
    have hlen : (start.dropWhile isWordChar).length ≤ x.length :=
      ((List.dropWhile_suffix _).trans (List.dropWhile_suffix _)).length_le
    rw [words_same hword hn (hw w (by simp)) hs, ih (by omega) h fun v hv => hw v (by simp [hv])]
    rfl
  | case3 => simp at h

end

theorem words_keyword {k : Keyword} {x : Text} (hk : k ∈ Keyword.singleWords)
    (ih : ∀ e ∈ k.continuations, ∀ y, afterWords? e.1 x = some y →
      words x = foldedWords e.1 ++ words y) :
    (Scan.keyword k x).1.words ++ words (Scan.keyword k x).2 = Text.folded k.text :: words x := by
  unfold Scan.keyword
  split
  · rename_i l y hl
    obtain ⟨⟨ws, l⟩, he, hsome⟩ := List.exists_of_findSome?_eq_some hl
    obtain ⟨z, hz, hp⟩ := Option.map_eq_some_iff.1 hsome
    obtain ⟨rfl, rfl⟩ := Prod.mk.inj hp
    have hopen := (Keyword.continuations_words k k.mem_words _ he).2.1
    rw [ih _ he z hz]
    simp [Token.words, hopen, foldedWords]
  · simp [Token.words, (Keyword.single_word k hk).2.2]

theorem ofWord?_eq_some {u : Text} {k : Keyword} (h : Keyword.ofWord? u = some k) :
    k ∈ Keyword.singleWords ∧ Text.folded k.text = Text.folded u :=
  ⟨List.mem_of_find?_eq_some h, by simpa [Text.sameLetters] using List.find?_some h⟩

theorem keyword_not_gap (k : Keyword) (x : Text) : (Scan.keyword k x).1.isGap = false := by
  unfold Scan.keyword
  split <;> rfl

theorem words_word {n : Nat} {u x : Text} (hn : (u ++ x).length ≤ n)
    (hu : Keyword.isLongWord u = true) (hx : Ends isWordChar x) :
    words (u ++ x) = Text.folded u :: words x := by
  induction n generalizing u x with
  | zero =>
    obtain ⟨c, w, rfl, -⟩ := Keyword.of_isLongWord hu
    simp at hn
  | succ n ih =>
    obtain ⟨c, w, rfl, hne, hc, -, hw⟩ := Keyword.of_isLongWord hu
    have hnext := next_longWord hc hne hw hx
    cases hof : Keyword.ofWord? (c :: w) with
    | none =>
      rw [hof] at hnext
      rw [List.cons_append, words_cons (by rw [hnext]; rfl), hnext]
      rfl
    | some k =>
      rw [hof] at hnext
      obtain ⟨hk, hfold⟩ := ofWord?_eq_some hof
      rw [List.cons_append, words_cons (by rw [hnext]; exact keyword_not_gap k x), hnext, ← hfold]
      refine words_keyword hk fun e he y hy => ?_
      refine words_of_afterWords? (n := n) (fun hn => ih hn) ?_ hy
        (Keyword.continuations_words k k.mem_words e he).2.2
      simp only [List.length_append, List.length_cons] at hn
      omega

theorem words_after {ws : List String} {x y : Text} (h : afterWords? ws x = some y)
    (hw : ∀ w ∈ ws, Keyword.isLongWord w.toList = true) : words x = foldedWords ws ++ words y :=
  words_of_afterWords? (n := x.length) words_word le_rfl h hw

theorem Text.folded_folded (t : Text) : folded (folded t) = folded t := by
  have hc : ∀ c : Char, c.toLower.toLower = c.toLower := by
    intro c
    have h := toNat_toLower c
    have h' := toNat_toLower c.toLower
    rw [← Char.toNat_inj]
    split at h <;> split at h' <;> omega
  simp [folded, Function.comp_def, hc]

theorem next_short {c : Char} {cs : Text} (hc : isWordStart c = false ∨ Ends isWordChar cs)
    (hg : Text.isGap c = false) : (next c cs).1.isGap = false ∧
      ∃ u, (next c cs).1.words = [u] ∧ Keyword.isLongWord u = false := by
  have hstart : ∀ {c : Char} (w : Text), isWordStart c = false →
      Keyword.isLongWord (Text.folded (c :: w)) = false := by
    intro c w h
    simp [Keyword.isLongWord, Text.folded, isWordStart_toLower, h]
  have hempty : Keyword.isLongWord [] = false := rfl
  fun_cases next c cs
  case case1 h => simp [h] at hg
  case case3 =>
    unfold Scan.blockComment
    split <;> exact ⟨rfl, _, rfl, hempty⟩
  case case6 =>
    unfold dollar
    split
    · split <;> exact ⟨rfl, _, rfl, hempty⟩
    · split
      · exact ⟨rfl, _, rfl, hempty⟩
      · exact ⟨rfl, _, rfl, hstart _ rfl⟩
  case case14 h =>
    obtain rfl : c = ':' := by simp_all
    exact ⟨rfl, _, rfl, hstart _ rfl⟩
  case case15 h =>
    rcases hc with hc | hc
    · simp [hc] at h
    · unfold word
      rw [show Reader.run isWordChar cs = ([], cs) from Ends.run (w := []) (by simp) hc]
      have hone : Keyword.isLongWord (Text.folded [c]) = false := rfl
      split
      · split
        · exact ⟨rfl, _, rfl, hempty⟩
        · exact ⟨rfl, _, rfl, hone⟩
      · rename_i he
        obtain ⟨rfl, rfl⟩ := Prod.mk.inj he
        rw [ofWord?_singleton]
        exact ⟨rfl, _, rfl, hone⟩
  case case16 =>
    unfold operator
    split <;> exact ⟨rfl, _, rfl, hempty⟩
  all_goals exact ⟨rfl, _, rfl, hempty⟩

theorem same_of_words {w x : Text} (hw : Keyword.isLongWord w = true)
    (h : (words x).head? = some (Text.folded w)) :
    Text.sameLetters ((x.dropWhile Text.isGap).takeWhile isWordChar) w = true := by
  rw [← words_dropWhile] at h
  cases hx : x.dropWhile Text.isGap with
  | nil => simp [hx, words, solid, tokenize] at h
  | cons c cs =>
    rw [hx] at h
    have hg : Text.isGap c = false := by
      have := List.head?_dropWhile_not Text.isGap x
      simpa [hx] using this
    rcases hrun : Reader.run isWordChar cs with ⟨v, y⟩
    obtain ⟨hv, hy, rfl⟩ := run_eq hrun
    by_cases hlong : isWordStart c = true ∧ v ≠ []
    · obtain ⟨hc, hne⟩ := hlong
      have hall : ∀ d ∈ c :: v, isWordChar d = true := by
        simpa using ⟨(isWordChar_iff c).2 (.inr (.inr hc)), hv⟩
      have hcv : Keyword.isLongWord (c :: v) = true := by
        have hlen : 1 ≤ v.length := List.length_pos_iff.2 hne
        simpa [Keyword.isLongWord, hc, hlen] using hall
      rw [← List.cons_append, words_word le_rfl hcv hy] at h
      obtain ⟨htake, -⟩ := Prod.mk.inj (Ends.run hall hy)
      rw [← List.cons_append, htake, Text.sameLetters, beq_iff_eq]
      simpa using h
    · have hshort : isWordStart c = false ∨ Ends isWordChar (v ++ y) := by
        by_cases hc : isWordStart c = true
        · obtain rfl : v = [] := by simpa [hc] using hlong
          exact .inr hy
        · exact .inl (by simpa using hc)
      obtain ⟨hgap, u, hu, hshort⟩ := next_short hshort hg
      rw [words_cons hgap, hu] at h
      obtain rfl : u = Text.folded w := by simpa using h
      rw [Text.isLongWord_congr (Text.folded_folded w), hw] at hshort
      cases hshort

/-- The words that are not passed over are not the first words of the text. -/
theorem words_not_after {ws : List String} {x : Text} (h : afterWords? ws x = none)
    (hw : ∀ w ∈ ws, Keyword.isLongWord w.toList = true) : ¬foldedWords ws <+: words x := by
  fun_induction afterWords? ws x with
  | case1 => simp at h
  | case2 w ws x start hs ih =>
    rw [words_same (n := x.length) words_word le_rfl (hw w (by simp)) hs]
    exact fun hp => ih h (fun v hv => hw v (by simp [hv])) (List.cons_prefix_cons.1 hp).2
  | case3 w ws x start hs =>
    rintro ⟨z, hz⟩
    exact hs (same_of_words (hw w (by simp)) (by rw [← hz]; rfl))

theorem keyword_unextended {k k' : Keyword} {x y : Text} (h : Scan.keyword k' x = (.keyword k, y)) :
    ∀ e ∈ k.continuations, afterWords? e.1 y = none := by
  unfold Scan.keyword at h
  split at h
  · rename_i l z hl
    obtain ⟨⟨ws, l⟩, he, hsome⟩ := List.exists_of_findSome?_eq_some hl
    obtain ⟨u, -, hp⟩ := Option.map_eq_some_iff.1 hsome
    obtain ⟨rfl, rfl⟩ := Prod.mk.inj hp
    obtain ⟨rfl, rfl⟩ : l = k ∧ _ = y := by simpa using h
    obtain ⟨hne, hopen, -⟩ := Keyword.continuations_words k' k'.mem_words _ he
    rcases Keyword.continuations_opening l l.mem_words with hl | ⟨-, -, hnil, -⟩
    · rw [hopen] at hl
      exact absurd (Prod.mk.inj hl).2 hne
    · simp [hnil]
  · rename_i hnone
    obtain ⟨rfl, rfl⟩ : k' = k ∧ x = y := by simpa using h
    intro e he
    simpa using List.findSome?_eq_none_iff.1 hnone e he

theorem next_unextended {c : Char} {cs y : Text} {k : Keyword} :
    next c cs = (.keyword k, y) → ∀ e ∈ k.continuations, afterWords? e.1 y = none := by
  fun_cases next c cs
  case case3 => unfold Scan.blockComment; split <;> simp
  case case6 => unfold dollar; split <;> split <;> simp
  case case15 =>
    unfold word
    split
    · split <;> simp
    · split
      · exact keyword_unextended
      · simp
  case case16 => unfold operator; split <;> simp
  all_goals simp

def Unextended (ts : List Token) : Prop :=
  ∀ l k r, ts = l ++ .keyword k :: r → ∀ e ∈ k.continuations,
    ¬foldedWords e.1 <+: r.flatMap Token.words

theorem Unextended.tail {t : Token} {ts : List Token} (h : Unextended (t :: ts)) : Unextended ts :=
  fun l k r hts => h (t :: l) k r (by rw [hts]; rfl)

theorem unextended_tokenize (x : Text) : Unextended (solid (tokenize x)) := by
  fun_induction tokenize x with
  | case1 => intro l k r h; simp [solid] at h
  | case2 c cs hlen ih =>
    by_cases hg : (next c cs).1.isGap = true
    · simpa [solid, hg] using ih
    · intro l k r h e he
      rw [solid, List.filter_cons_of_pos (by simpa using hg), ← solid] at h
      cases l with
      | nil =>
        obtain ⟨hk, rfl⟩ := List.cons.inj h
        refine words_not_after (next_unextended (Prod.ext hk rfl) e he) ?_
        exact (Keyword.continuations_words k k.mem_words e he).2.2
      | cons t l =>
        obtain ⟨-, h⟩ := List.cons.inj h
        exact ih l k r h e he

end SqlLayout

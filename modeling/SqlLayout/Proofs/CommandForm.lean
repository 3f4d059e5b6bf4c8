import Mathlib.Data.List.Forall2
import SqlLayout.Command
import SqlLayout.Proofs.LowerCase

/-! The lines of a client command are its normal form. Divided into words again they are the words
of the text with the letters lowered where the command lowers them, and read again they are the
same command, which is written with the same lines.
-/

set_option autoImplicit false

namespace SqlLayout

namespace Command

open Text

section

variable {q q' : Option Char} {c : Char} {w g s t : Text} {ws : List Text}

def quoteAfter (q : Option Char) (c : Char) : Option Char :=
  match q with
  | some q => if c = q then none else some q
  | none => if c = '\'' || c = '"' then some c else none

/-- The text leads from one open quote to another with no blank outside quotes. -/
inductive Unbroken : Option Char → Text → Option Char → Prop where
  | nil (q : Option Char) : Unbroken q [] q
  | cons {q q' : Option Char} {c : Char} {w : Text} : (q = none → isBlank c = false) →
      Unbroken (quoteAfter q c) w q' → Unbroken q (c :: w) q'

theorem Unbroken.concat (h : Unbroken q w q') (hc : q' = none → isBlank c = false) :
    Unbroken q (w ++ [c]) (quoteAfter q' c) := by
  induction h with
  | nil => exact .cons hc (.nil _)
  | cons hd _ ih => exact .cons hd (ih hc)

theorem wordsFrom_ink (hc : q = none → isBlank c = false) (current rest : Text) :
    wordsFrom current q (c :: rest) = wordsFrom (c :: current) (quoteAfter q c) rest := by
  cases q with
  | some => rfl
  | none => simp [wordsFrom, quoteAfter, hc rfl]

theorem wordsFrom_unbroken (h : Unbroken q w q') (current rest : Text) :
    wordsFrom current q (w ++ rest) = wordsFrom (w.reverse ++ current) q' rest := by
  induction h generalizing current with
  | nil => rfl
  | cons hc _ ih => rw [List.cons_append, wordsFrom_ink hc, ih, List.reverse_cons,
      List.append_assoc, List.singleton_append]

theorem wordsFrom_gap (hg : ∀ c ∈ g, isBlank c = true) (rest : Text) :
    wordsFrom [] none (g ++ rest) = wordsFrom [] none rest := by
  induction g with
  | nil => rfl
  | cons c g ih => simp [wordsFrom, hg c (by simp), ih fun d hd => hg d (by simp [hd])]

theorem wordsFrom_end (hw : w ≠ []) (hne : g ≠ []) (hg : ∀ c ∈ g, isBlank c = true) (rest : Text) :
    wordsFrom w.reverse none (g ++ rest) = w :: wordsFrom [] none rest := by
  obtain ⟨c, g, rfl⟩ := List.exists_cons_of_ne_nil hne
  have hrest := wordsFrom_gap (g := g) (fun d hd => hg d (by simp [hd])) rest
  simp [wordsFrom, hg c (by simp), hw, hrest]

/-- Words as a text is divided into them: only in the last may a quote stay open. -/
inductive Divided : List Text → Prop where
  | nil : Divided []
  | last {q : Option Char} {w : Text} : w ≠ [] → Unbroken none w q → Divided [w]
  | cons {w : Text} {ws : List Text} : w ≠ [] → Unbroken none w none → Divided ws →
      Divided (w :: ws)

theorem divided_wordsFrom {current : Text} (h : Unbroken none current.reverse q) :
    Divided (wordsFrom current q t) := by
  induction t generalizing current q with
  | nil =>
    unfold wordsFrom
    split
    · exact .nil
    · rename_i hne
      exact .last (by simpa using hne) h
  | cons c t ih =>
    by_cases hc : q = none ∧ isBlank c = true
    · obtain ⟨rfl, hblank⟩ := hc
      have hrest : Divided (wordsFrom [] none t) := ih (.nil none)
      simp only [wordsFrom, hblank, if_true]
      split
      · exact hrest
      · rename_i hne
        exact .cons (by simpa using hne) h hrest
    · have hink : q = none → isBlank c = false := fun hq => by simpa [hq] using hc
      rw [wordsFrom_ink hink]
      exact ih (by simpa using h.concat hink)

theorem divided_words (t : Text) : Divided (words t) := divided_wordsFrom (.nil none)

inductive Spread : List Text → Text → Prop where
  | one (w : Text) : Spread [w] w
  | cons {w g t : Text} {ws : List Text} : g ≠ [] → (∀ c ∈ g, isBlank c = true) → Spread ws t →
      Spread (w :: ws) (w ++ (g ++ t))

theorem Spread.append {vs : List Text} (h : Spread ws s) (hne : g ≠ [])
    (hg : ∀ c ∈ g, isBlank c = true) (h' : Spread vs t) : Spread (ws ++ vs) (s ++ (g ++ t)) := by
  induction h with
  | one w => exact .cons hne hg h'
  | cons hk hk' _ ih => simpa using Spread.cons hk hk' ih

theorem Spread.words (h : Spread ws t) (hd : Divided ws) : words t = ws := by
  have hone : ∀ {q : Option Char} {w : Text}, w ≠ [] → Unbroken none w q →
      Command.words w = [w] := by
    intro q w hw hu
    have := wordsFrom_unbroken hu [] []
    simp only [List.append_nil] at this
    rw [Command.words, this]
    simp [wordsFrom, hw]
  induction h with
  | one w =>
    cases hd with
    | last hw hu => exact hone hw hu
    | cons hw hu => exact hone hw hu
  | @cons w g t ws hne hg h ih =>
    cases hd with
    | last => cases h
    | cons hw hu hd =>
      rw [Command.words, wordsFrom_unbroken hu, List.append_nil, wordsFrom_end hw hne hg]
      exact congrArg _ (ih hd)

theorem spread_values (w : Text) (vs : List Text) :
    Spread (w :: vs) (w ++ vs.flatMap (' ' :: ·)) := by
  induction vs generalizing w with
  | nil => simpa using Spread.one w
  | cons v vs ih =>
    have hblank : ∀ c ∈ [' '], isBlank c = true := by simp [isBlank]
    simpa using Spread.cons (w := w) (List.cons_ne_nil ' ' []) hblank (ih v)

theorem quoteAfter_letter (hq : ∀ d, q = some d → isSign d = true) (hc : isSign c = false) :
    quoteAfter q c = q := by
  cases q with
  | some d =>
    have hd : c ≠ d := by
      rintro rfl
      simp [hq c rfl] at hc
    simp [quoteAfter, hd]
  | none =>
    have hquote : c ≠ '\'' ∧ c ≠ '"' := by
      constructor <;> rintro rfl <;> cases hc
    simp [quoteAfter, hquote]

theorem isSign_quoteAfter (hq : ∀ d, q = some d → isSign d = true) :
    ∀ d, quoteAfter q c = some d → isSign d = true := by
  intro d hd
  unfold quoteAfter at hd
  split at hd
  · split at hd
    · cases hd
    · exact hq d hd
  · split at hd
    · rename_i hquote
      obtain rfl : c = d := by simpa using hd
      rcases (by simpa using hquote : c = '\'' ∨ c = '"') with rfl | rfl <;> rfl
    · cases hd

theorem unbroken_letters (hq : ∀ d, q = some d → isSign d = true) (hw : ∀ d ∈ w, isSign d = false)
    (ht : Unbroken q t q') : Unbroken q (w ++ t) q' := by
  induction w with
  | nil => exact ht
  | cons c w ih =>
    have hc := hw c (by simp)
    have hblank : isBlank c = false := by simp_all [isSign]
    refine .cons (fun _ => hblank) ?_
    rw [quoteAfter_letter hq hc]
    exact ih fun d hd => hw d (by simp [hd])

theorem Unbroken.likewise (h : Likewise s t) (hq : ∀ d, q = some d → isSign d = true)
    (hs : Unbroken q s q') : Unbroken q t q' := by
  induction h generalizing q with
  | nil => exact hs
  | keep c _ ih =>
    cases hs with
    | cons hc hs => exact .cons hc (ih (isSign_quoteAfter hq) hs)
  | letter hc _ hu _ ih =>
    cases hs with
    | cons _ hs =>
      rw [quoteAfter_letter hq hc] at hs
      exact unbroken_letters hq hu (ih hq hs)

theorem Divided.likewise {vs : List Text} (h : List.Forall₂ Likewise ws vs) (hd : Divided ws) :
    Divided vs := by
  have hnone : ∀ d, (none : Option Char) = some d → isSign d = true := by simp
  induction h with
  | nil => exact .nil
  | cons hv hvs ih =>
    cases hd with
    | last hne hu =>
      cases hvs
      exact .last (mt hv.eq_nil_iff.2 hne) (hu.likewise hv hnone)
    | cons hne hu hd => exact .cons (mt hv.eq_nil_iff.2 hne) (hu.likewise hv hnone) (ih hd)

theorem isQuoted_likewise (h : Likewise s t) : isQuoted s = isQuoted t := by
  cases h with
  | nil => rfl
  | keep => rfl
  | @letter c u s t hc hne hu h =>
    obtain ⟨d, u, rfl⟩ := List.exists_cons_of_ne_nil hne
    have hd := hu d (by simp)
    simp only [isSign, Bool.or_eq_false_iff] at hc hd
    simp [isQuoted, hc, hd]

theorem isSetting_likewise (h : Likewise s t) : isSetting s = isSetting t := by
  have hcons : ∀ u : Text, isSetting ('-' :: u) = true ↔ u ≠ [] := by
    intro u
    cases u <;> simp [isSetting]
  have hother : ∀ {c : Char} (u : Text), c ≠ '-' → isSetting (c :: u) = false := by
    intro c u hc
    unfold isSetting
    split <;> simp_all
  cases h with
  | nil => rfl
  | @keep c s t h =>
    by_cases hc : c = '-'
    · rw [hc, Bool.eq_iff_iff, hcons, hcons, ne_eq, ne_eq, h.eq_nil_iff]
    · rw [hother _ hc, hother _ hc]
  | @letter c u s t hc hne hu h =>
    obtain ⟨d, u, rfl⟩ := List.exists_cons_of_ne_nil hne
    have hd := hu d (by simp)
    have hdash : c ≠ '-' ∧ d ≠ '-' := by
      constructor <;> rintro rfl <;> simp_all [isSign]
    rw [hother _ hdash.1, List.cons_append, hother _ hdash.2]

end

def Setting.word (s : Setting) : Text := s.name ++ s.assigned.elim [] ('=' :: ·)

def allWords (c : Command) : List Text :=
  c.verb :: c.arguments ++ c.settings.flatMap fun s => s.word :: s.values

def Setting.normal (s : Setting) : Setting :=
  ⟨s.name, s.assigned.map valueText, s.values.map valueText⟩

/-- The command as its lines spell it. -/
def normal (c : Command) : Command := ⟨verbText c.verb, c.arguments, c.settings.map Setting.normal⟩

/-- An option as one is read: its name ends before the first equals sign, and the words that
follow it are no options. -/
structure Setting.Proper (s : Setting) : Prop where
  name : '=' ∉ s.name
  word : isSetting s.word = true
  values : ∀ v ∈ s.values, isSetting v = false

structure Proper (c : Command) : Prop where
  arguments : ∀ a ∈ c.arguments, isSetting a = false
  settings : ∀ s ∈ c.settings, s.Proper

section

variable {c : Command} {s : Setting} {ss : List Setting} {t v w : Text} {vs ws : List Text}

theorem likewise_valueText (v : Text) : Likewise v (valueText v) := by
  unfold valueText
  split
  · exact .refl v
  · exact likewise_lower v

theorem valueText_valueText (v : Text) : valueText (valueText v) = valueText v := by
  have hquoted := isQuoted_likewise (likewise_lower v)
  unfold valueText
  split
  · rfl
  · rename_i h
    rw [← hquoted, if_neg h, lower_lower]

theorem likewise_word (s : Setting) : Likewise s.word s.normal.word := by
  unfold Setting.word Setting.normal
  cases s.assigned with
  | none => exact .refl _
  | some v => exact (Likewise.refl _).append (.keep '=' (likewise_valueText v))

theorem likewise_values : ∀ vs : List Text, List.Forall₂ Likewise vs (vs.map valueText)
  | [] => .nil
  | v :: vs => .cons (likewise_valueText v) (likewise_values vs)

theorem ofWord_eq (w : Text) (vs : List Text) : '=' ∉ (Setting.ofWord w vs).name ∧
    (Setting.ofWord w vs).word = w ∧ (Setting.ofWord w vs).values = vs := by
  have hsplit := List.takeWhile_append_dropWhile (p := (· != '=')) (l := w)
  have hname : '=' ∉ w.takeWhile (· != '=') := fun h => by
    simpa using List.mem_takeWhile_imp h
  unfold Setting.ofWord
  split
  · rename_i d value hdrop
    have hd : d = '=' := by
      have := List.head?_dropWhile_not (· != '=') w
      simpa [hdrop] using this
    rw [hdrop, hd] at hsplit
    exact ⟨hname, hsplit, rfl⟩
  · rename_i hdrop
    rw [hdrop, List.append_nil] at hsplit
    rw [hsplit] at hname
    exact ⟨hname, by simp [Setting.word], rfl⟩

theorem ofWord_word (h : '=' ∉ s.name) : Setting.ofWord s.word s.values = s := by
  have hname : ∀ c ∈ s.name, (c != '=') = true := by
    intro c hc
    rw [bne_iff_ne]
    rintro rfl
    exact h hc
  obtain ⟨name, assigned, values⟩ := s
  cases assigned with
  | none =>
    have hdrop : name.dropWhile (· != '=') = [] := List.dropWhile_eq_nil_iff.2 hname
    simp [Setting.ofWord, Setting.word, hdrop]
  | some v => simp [Setting.ofWord, Setting.word, List.takeWhile_append_of_pos hname,
      List.dropWhile_append_of_pos hname]

/-- What words are grouped into: the words again, divided before each option. -/
theorem group_eq (ws : List Text) : (∀ a ∈ (group ws).1, isSetting a = false) ∧
    (∀ s ∈ (group ws).2, s.Proper) ∧
      (group ws).1 ++ ((group ws).2.flatMap fun s => s.word :: s.values) = ws := by
  induction ws with
  | nil => simp [group]
  | cons w ws ih =>
    obtain ⟨hfree, hproper, hws⟩ := ih
    unfold group
    simp only
    split
    · rename_i hw
      obtain ⟨hname, hword, hvalues⟩ := ofWord_eq w (group ws).1
      have hs : (Setting.ofWord w (group ws).1).Proper :=
        ⟨hname, by rwa [hword], by rwa [hvalues]⟩
      refine ⟨by simp, List.forall_mem_cons.2 ⟨hs, hproper⟩, ?_⟩
      simp [hword, hvalues, hws]
    · rename_i hw
      exact ⟨List.forall_mem_cons.2 ⟨by simpa using hw, hfree⟩, hproper, by simp [hws]⟩

theorem group_append (hvs : ∀ v ∈ vs, isSetting v = false) (ws : List Text) :
    group (vs ++ ws) = (vs ++ (group ws).1, (group ws).2) := by
  induction vs with
  | nil => rfl
  | cons v vs ih => simp [group, hvs v (by simp), ih fun u hu => hvs u (by simp [hu])]

theorem group_settings (hss : ∀ s ∈ ss, s.Proper) :
    group (ss.flatMap fun s => s.word :: s.values) = ([], ss) := by
  induction ss with
  | nil => rfl
  | cons s ss ih =>
    have hs := hss s (by simp)
    have hrest := ih fun s hs => hss s (by simp [hs])
    rw [List.flatMap_cons, List.cons_append, group, group_append hs.values, hrest]
    simp [hs.word, ofWord_word hs.name]

theorem parse_of_words (hc : c.Proper) (ht : words t = c.allWords) : parse t = c := by
  unfold parse
  rw [ht, allWords, List.cons_append]
  simp [group_append hc.arguments, group_settings hc.settings]

theorem proper_parse (t : Text) : (parse t).Proper := by
  unfold parse
  split
  · exact ⟨by simp, by simp⟩
  · rename_i rest _
    obtain ⟨hfree, hproper, -⟩ := group_eq rest
    exact ⟨hfree, hproper⟩

theorem allWords_parse (h : words t ≠ []) : (parse t).allWords = words t := by
  unfold parse
  split
  · contradiction
  · rename_i verb rest ht
    rw [ht, allWords, List.cons_append, (group_eq rest).2.2]

theorem Setting.Proper.normal (h : s.Proper) : s.normal.Proper where
  name := h.name
  word := by rw [← isSetting_likewise (likewise_word s), h.word]
  values := by
    intro v hv
    obtain ⟨u, hu, rfl⟩ := List.mem_map.1 hv
    rw [← isSetting_likewise (likewise_valueText u), h.values u hu]

theorem Proper.normal (h : c.Proper) : c.normal.Proper where
  arguments := h.arguments
  settings := by
    intro s hs
    obtain ⟨r, hr, rfl⟩ := List.mem_map.1 hs
    exact (h.settings r hr).normal

theorem spread_line (s : Setting) : ∃ u, s.line = Text.spaces 2 ++ u ∧
    Spread (s.normal.word :: s.normal.values) u := by
  refine ⟨_, ?_, spread_values _ _⟩
  unfold Setting.line Setting.normal Setting.word
  cases s.assigned <;> simp [List.flatMap_map]

theorem Spread.join (h : Spread ws t) (ss : List Setting) :
    Spread (ws ++ ss.flatMap fun s => s.normal.word :: s.normal.values)
      (Text.join ['\n'] (t :: ss.map Setting.line)) := by
  induction ss generalizing ws t with
  | nil => simpa [Text.join] using h
  | cons s ss ih =>
    obtain ⟨u, hu, hs⟩ := spread_line s
    have hblank : ∀ c ∈ '\n' :: Text.spaces 2, isBlank c = true :=
      List.all_eq_true.1 (by decide)
    have hnext := ih (h.append (List.cons_ne_nil '\n' (Text.spaces 2)) hblank hs)
    simpa [Text.join_cons, hu] using hnext

/-- The lines of a command show its words in the normal form. -/
theorem spread_lines (c : Command) : Spread c.normal.allWords (Text.join ['\n'] c.lines) := by
  have hfirst := spread_values (verbText c.verb) c.arguments
  have hall := hfirst.join c.settings
  simpa [allWords, Command.normal, List.flatMap_map, lines] using hall

theorem likewise_allWords (hverb : Likewise c.verb (verbText c.verb)) :
    List.Forall₂ Likewise c.allWords c.normal.allWords := by
  have hsettings : ∀ ss : List Setting, List.Forall₂ Likewise
      (ss.flatMap fun s => s.word :: s.values)
      ((ss.map Setting.normal).flatMap fun s => s.word :: s.values) := by
    intro ss
    induction ss with
    | nil => exact .nil
    | cons s ss ih =>
      exact .cons (likewise_word s) (List.rel_append (likewise_values s.values) ih)
  have harguments : List.Forall₂ Likewise c.arguments c.arguments :=
    List.forall₂_same.2 fun a _ => .refl a
  exact .cons hverb (List.rel_append harguments (hsettings c.settings))

theorem line_normal (s : Setting) : s.normal.line = s.line := by
  unfold Setting.line Setting.normal
  cases s.assigned <;> simp [List.flatMap_map, valueText_valueText]

theorem lines_normal (h : verbText (verbText c.verb) = verbText c.verb) :
    c.normal.lines = c.lines := by
  simp [lines, Command.normal, h, line_normal]

end

section

variable {w b : Char} {v : Text}

theorem verbText_wb (hw : w = 'w' ∨ w = 'W') (hb : b = 'b' ∨ b = 'B') (v : Text) :
    verbText (w :: b :: v) = 'W' :: 'B' :: Text.lower v := by
  rcases hw with rfl | rfl <;> rcases hb with rfl | rfl <;> rfl

theorem likewise_verbText (hw : w = 'w' ∨ w = 'W') (hb : b = 'b' ∨ b = 'B') (v : Text) :
    Likewise (w :: b :: v) (verbText (w :: b :: v)) := by
  have hw' : isSign w = false := by rcases hw with rfl | rfl <;> rfl
  have hb' : isSign b = false := by rcases hb with rfl | rfl <;> rfl
  rw [verbText_wb hw hb]
  exact .letter (u := ['W']) hw' (by simp) (by simpa using show isSign 'W' = false from rfl)
    (.letter (u := ['B']) hb' (by simp) (by simpa using show isSign 'B' = false from rfl)
      (likewise_lower v))

/-- The lines of a command whose verb begins with `wb` are a normal form: they have the words of
the text in its order, with only letters lowered and the first two raised, each word has the part
in the command that it had, and read again they are written as the same lines. -/
theorem command_normal_form {t : Text} {ws : List Text} (ht : words t = (w :: b :: v) :: ws)
    (hw : w = 'w' ∨ w = 'W') (hb : b = 'b' ∨ b = 'B') :
    (parse t).allWords = words t ∧
      words (Text.join ['\n'] (parse t).lines) = (parse t).normal.allWords ∧
      (words (Text.join ['\n'] (parse t).lines)).length = (words t).length ∧
      (parse t).normal.verb = 'W' :: 'B' :: Text.lower v ∧
      parse (Text.join ['\n'] (parse t).lines) = (parse t).normal ∧
      (parse (Text.join ['\n'] (parse t).lines)).lines = (parse t).lines := by
  have hall : (parse t).allWords = words t := allWords_parse (by simp [ht])
  have hverb : (parse t).verb = w :: b :: v := by simp [parse, ht]
  have hlike : List.Forall₂ Likewise (parse t).allWords (parse t).normal.allWords :=
    likewise_allWords (by rw [hverb]; exact likewise_verbText hw hb v)
  have hdivided : Divided (parse t).normal.allWords :=
    (hall ▸ divided_words t : Divided (parse t).allWords).likewise hlike
  have hwords := (spread_lines (parse t)).words hdivided
  have hparse := parse_of_words (proper_parse t).normal hwords
  have hagain : verbText (verbText (parse t).verb) = verbText (parse t).verb := by
    rw [hverb, verbText_wb hw hb, verbText_wb (.inr rfl) (.inr rfl), lower_lower]
  refine ⟨hall, hwords, ?_, ?_, hparse, ?_⟩
  · rw [hwords, ← hall, hlike.length_eq]
  · rw [Command.normal, hverb, verbText_wb hw hb]
  · rw [hparse, lines_normal hagain]

end

/-- The value of an option is lowered unless it is quoted. -/
theorem export_normal_form :
    words (Text.join ['\n'] (parse "wbEXPORT a -Type=Text X -file='A b".toList).lines) =
      ["WBexport", "a", "-Type=text", "x", "-file='A b"].map String.toList := by
  have hwords : words "wbEXPORT a -Type=Text X -file='A b".toList =
      ('w' :: 'b' :: "EXPORT".toList) ::
        ["a", "-Type=Text", "X", "-file='A b"].map String.toList := by
    decide
  rw [(command_normal_form hwords (.inl rfl) (.inl rfl)).2.1]
  decide

end Command

end SqlLayout

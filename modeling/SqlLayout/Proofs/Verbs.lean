import SqlLayout.Format
import SqlLayout.Proofs.Rereading

/-! A client command opens with its verb: its first two letters are raised and the others lowered.
-/

set_option autoImplicit false

namespace SqlLayout

open Scan

namespace Text

variable {s : Text}

theorem isAscii_of_isAlpha {c : Char} (h : c.isAlpha = true) : isAscii c = true := by
  rw [isAlpha_iff] at h
  simp only [isAscii, decide_eq_true_eq]
  omega

theorem isBlank_of_isAlpha {c : Char} (h : c.isAlpha = true) : isBlank c = false :=
  isBlank_of_isNumberChar (by simp [isNumberChar, Char.isAlphanum, h])

theorem utf8Size_of_isAlpha {c : Char} (h : c.isAlpha = true) : c.utf8Size = 1 := by
  rw [Char.utf8Size_eq_one_iff, UInt32.le_iff_toNat_le]
  have := isAscii_of_isAlpha h
  simp only [isAscii, decide_eq_true_eq] at this
  exact Nat.le_of_lt_succ this

/-- Outside the reach of the sigma, letters are lowered one by one. -/
theorem lowerAfter_append (hs : ∀ c ∈ s, isAscii c = true) (before u : Text) :
    lowerAfter before (s ++ u) = s.map Char.toLower ++ lowerAfter (s.reverse ++ before) u := by
  induction s generalizing before with
  | nil => rfl
  | cons c s ih =>
    have hc : isAscii c = true := hs c (by simp)
    have hsigma : (c == 'Σ') = false := by
      rw [beq_eq_false_iff_ne]
      rintro rfl
      cases hc
    simp only [List.cons_append, lowerAfter, hsigma, lowerChar, hc]
    simp [ih fun d hd => hs d (by simp [hd])]

end Text

theorem isVerb_letters {v : Text} (h : isVerb v = true) :
    ∃ w b c s, v = w :: b :: c :: s ∧ ∀ d ∈ v, d.isAlpha = true := by
  unfold isVerb at h
  split at h
  · rename_i w b c s
    rw [Bool.and_eq_true, Bool.and_eq_true] at h
    obtain ⟨⟨hw, hb⟩, hs⟩ := h
    refine ⟨w, b, c, s, rfl, ?_⟩
    rw [List.forall_mem_cons, List.forall_mem_cons]
    refine ⟨?_, ?_, List.all_eq_true.1 hs⟩
    · rcases (by simpa using hw : w = 'w' ∨ w = 'W') with rfl | rfl <;> rfl
    · rcases (by simpa using hb : b = 'b' ∨ b = 'B') with rfl | rfl <;> rfl
  · cases h

namespace Command

theorem wordsFrom_letters {s : Text} (hs : ∀ c ∈ s, c.isAlpha = true) (current u : Text) :
    wordsFrom current none (s ++ u) = wordsFrom (s.reverse ++ current) none u := by
  induction s generalizing current with
  | nil => rfl
  | cons c s ih =>
    have hc := hs c (by simp)
    have hquote : (decide (c = '\'') || decide (c = '"')) = false := by
      rw [Bool.or_eq_false_iff, decide_eq_false_iff_not, decide_eq_false_iff_not]
      constructor <;> rintro rfl <;> cases hc
    rw [List.cons_append, wordsFrom]
    simp only [Text.isBlank_of_isAlpha hc, hquote]
    simp [ih fun d hd => hs d (by simp [hd])]

theorem wordsFrom_open {current : Text} (h : current ≠ []) (quote : Option Char) (x : Text) :
    ∃ u ws, wordsFrom current quote x = (current.reverse ++ u) :: ws := by
  induction x generalizing current quote with
  | nil => exact ⟨[], [], by simp [wordsFrom, h]⟩
  | cons c x ih =>
    have hstep : ∀ q, ∃ u ws, wordsFrom (c :: current) q x = (current.reverse ++ u) :: ws := by
      intro q
      obtain ⟨u, ws, hu⟩ := ih (List.cons_ne_nil c current) q
      exact ⟨c :: u, ws, by simp [hu]⟩
    unfold wordsFrom
    split
    · exact hstep _
    · split
      · exact ⟨[], _, by rw [if_neg (by simpa using h), List.append_nil]⟩
      · exact hstep _

theorem verbText_append {w b : Char} {s : Text} (hw : w.isAlpha = true) (hb : b.isAlpha = true)
    (hs : ∀ c ∈ s, c.isAlpha = true) (u : Text) :
    ∃ z, verbText (w :: b :: (s ++ u)) = w.toUpper :: b.toUpper :: (s.map Char.toLower ++ z) := by
  refine ⟨Text.lowerAfter s.reverse u, ?_⟩
  have hupper : Text.upper [w, b] = [w.toUpper, b.toUpper] := Text.upper_ascii fun c hc => by
    rcases (by simpa using hc : c = w ∨ c = b) with rfl | rfl
    · exact Text.isAscii_of_isAlpha hw
    · exact Text.isAscii_of_isAlpha hb
  have hlower : Text.lower (s ++ u) = s.map Char.toLower ++ Text.lowerAfter s.reverse u := by
    rw [Text.lower, Text.lowerAfter_append (fun c hc => Text.isAscii_of_isAlpha (hs c hc)),
      List.append_nil]
  simp [verbText, Text.utf8Size_of_isAlpha hw, Text.utf8Size_of_isAlpha hb, hupper, hlower]

end Command

theorem formatTokens_command {o : Options} {tokens : List Token} {source : Text}
    (hc : isCommand (solid tokens) = true) :
    formatTokens o tokens source = .ok (formatCommand o (solid tokens) source) := by
  have hne : solid tokens ≠ [] := by
    intro hn
    rw [hn] at hc
    cases hc
  unfold formatTokens
  change (if (solid tokens).isEmpty = true then _ else if isCommand (solid tokens) = true then
    Except.ok (formatCommand o (solid tokens) source) else _) = _
  rw [if_neg (by simpa using hne), if_pos hc]

section

variable {v g x : Text}

theorem commandText_append (hne : v ≠ []) (hv : ∀ c ∈ v, c.isAlpha = true)
    (hg : ∀ c ∈ g, Text.isBlank c = true) : ∃ y, commandText (g ++ v ++ x) = v ++ y := by
  have hsolid : Text.Solid v := Text.solid_of_ink hne fun c hc => Text.isBlank_of_isAlpha (hv c hc)
  have htrim : Text.trim (g ++ v ++ x) = v ++ Text.trimEnd x := by
    rw [Text.trim, List.append_assoc, List.dropWhile_append_of_pos hg, hsolid.dropWhile]
    exact hsolid.dropEndWhile (fun _ => id) [] x
  unfold commandText
  simp only [htrim]
  split
  · rename_i hlast
    have hne' : Text.trimEnd x ≠ [] := by
      intro hnil
      rw [hnil, List.append_nil] at hlast
      have := hv _ (List.mem_of_getLast? hlast)
      cases this
    exact ⟨_, List.dropLast_append_of_ne_nil hne'⟩
  · exact ⟨_, rfl⟩

theorem opens_formatCommand {w b : Char} {s : Text} (o : Options) (ts : List Token)
    (hv : ∀ c ∈ w :: b :: s, c.isAlpha = true) (hg : ∀ c ∈ g, Text.isBlank c = true) :
    w.toUpper :: b.toUpper :: s.map Char.toLower <+:
      formatCommand o ts (g ++ (w :: b :: s) ++ x) := by
  have hw := hv w (by simp)
  have hb := hv b (by simp)
  have hs : ∀ c ∈ s, c.isAlpha = true := fun c hc => hv c (by simp [hc])
  have hsolid : Text.Solid (w.toUpper :: b.toUpper :: s.map Char.toLower) := by
    refine Text.solid_of_ink (by simp) fun c hc => ?_
    rcases (by simpa using hc : c = w.toUpper ∨ c = b.toUpper ∨ ∃ d ∈ s, d.toLower = c) with
      rfl | rfl | ⟨d, hd, rfl⟩
    · exact Text.isBlank_toUpper (Text.isBlank_of_isAlpha hw)
    · exact Text.isBlank_toUpper (Text.isBlank_of_isAlpha hb)
    · rw [Text.isBlank_toLower]
      exact Text.isBlank_of_isAlpha (hs d hd)
  obtain ⟨y, hy⟩ := commandText_append (x := x) (List.cons_ne_nil w (b :: s)) hv hg
  have hcurrent : (w :: b :: s).reverse ++ [] ≠ [] := by simp
  obtain ⟨u, ws, hwords⟩ := Command.wordsFrom_open hcurrent none y
  obtain ⟨z, hz⟩ := Command.verbText_append hw hb hs u
  have hline : ∃ t rest, (Command.parse (commandText (g ++ (w :: b :: s) ++ x))).lines = t :: rest ∧
      w.toUpper :: b.toUpper :: s.map Char.toLower <+: t := by
    rw [hy, Command.parse, Command.words, Command.wordsFrom_letters hv, hwords]
    refine ⟨_, _, rfl, ?_⟩
    simp [hz]
  obtain ⟨t, rest, hlines, ht⟩ := hline
  have hblank : Page.blank.IsBlank := ⟨rfl, rfl⟩
  have hopens : (Page.blank.pushLines 0 (t :: rest)).Opens _ :=
    (hblank.push ht).pushBelow hsolid.firm 0 rest
  unfold formatCommand
  rw [hlines]
  refine Draft.opens_text hsolid ?_
  split
  · exact Draft.opens_word hopens .semicolon
  · exact hopens

/-- A text whose first token is a verb in capitals is not what it becomes as a command. -/
theorem formatCommand_ne (o : Options) {ts rest : List Token}
    (hx : solid (tokenize x) = .identifier v :: rest) (hverb : isVerb v = true)
    (hupper : ∀ c ∈ v, c.toUpper = c) : formatCommand o ts x ≠ x := by
  obtain ⟨w, b, c, s, rfl, hv⟩ := isVerb_letters hverb
  obtain ⟨cs, hcs, hline⟩ := line_tokenize x
  rw [hx] at hcs
  obtain ⟨d, ds, hd, -, rfl⟩ := List.forall₂_cons_left_iff.1 hcs
  have hsolid : Text.Solid (w :: b :: c :: s) :=
    Text.solid_of_ink (by simp) fun d hd => Text.isBlank_of_isAlpha (hv d hd)
  have hd2 : d.2 = w :: b :: c :: s := hd.2.2
  have hink : Text.isBlankText d.2 = false := by simpa [hd2] using hsolid.not_blank [] []
  rw [inked, List.filter_cons_of_pos (by simp [hink]), List.map_cons, hd2, hsolid.trim] at hline
  cases hline with
  | @cell _ g x' _ _ hg _ _ =>
    intro he
    obtain ⟨z, hz⟩ := opens_formatCommand (x := x') o ts hv hg.1
    rw [he] at hz
    cases g with
    | nil =>
      have hc : c.toLower = c := by
        simp only [List.map_cons, List.cons_append, List.nil_append, List.cons.injEq] at hz
        exact hz.2.2.1
      have hletter := (isAlpha_iff c).1 (hv c (by simp))
      have hup := Text.toNat_toUpper c
      have hlow := Text.toNat_toLower c
      rw [hupper c (by simp)] at hup
      rw [hc] at hlow
      split at hup <;> split at hlow <;> omega
    | cons d g =>
      obtain ⟨rfl, -⟩ := List.cons.inj hz
      have hblank := hg.1 w.toUpper (by simp)
      have := Text.isBlank_toUpper (Text.isBlank_of_isAlpha (hv w (by simp)))
      simp_all [Rule.loose]

end

end SqlLayout

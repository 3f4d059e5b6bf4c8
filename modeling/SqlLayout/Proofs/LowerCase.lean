import SqlLayout.Proofs.UpperCase

/-! What lowering a text keeps. Lowering twice is lowering once, and blanks, quotes, hyphens and
equals signs are neither made nor dropped.
-/

set_option autoImplicit false

namespace SqlLayout.Text

def isSign (c : Char) : Bool := isBlank c || c == '"' || c == '\'' || c == '-' || c == '='

def signs : List (Nat × Nat) := blanks ++ [(0x22, 0x22), (0x27, 0x27), (0x2D, 0x2D), (0x3D, 0x3D)]

theorem isSign_iff (c : Char) : isSign c = true ↔ ∃ b ∈ signs, b.1 ≤ c.toNat ∧ c.toNat ≤ b.2 := by
  have hone : ∀ (d : Char) (n : Nat), d.toNat = n → (c = d ↔ n ≤ c.toNat ∧ c.toNat ≤ n) := by
    rintro d n rfl
    rw [← Char.toNat_inj]
    omega
  simp only [isSign, Bool.or_eq_true, isBlank_iff, beq_iff_eq, hone '"' 0x22 rfl,
    hone '\'' 0x27 rfl, hone '-' 0x2D rfl, hone '=' 0x3D rfl, signs, List.mem_append,
    List.mem_cons, List.not_mem_nil, or_false, or_and_right, exists_or, exists_eq_left, or_assoc]

def Run.misses (r s : Run) : Bool :=
  let lo := Int.toNat (r.first + r.shift)
  (Int.toNat (r.last + r.shift)).blt s.first || s.last.blt lo ||
    (Nat.blt 0 lo && (r.step == 2 || r.first == r.last) && s.step == 2 && (lo + s.first) % 2 != 0)

theorem Run.has_apply {r s : Run} {n : Nat} (hm : r.misses s = true) (hs : 0 < s.first)
    (hr : r.has n = true) : s.has (r.apply n).toNat = false := by
  simp only [misses, Bool.or_eq_true, Bool.and_eq_true, Nat.blt_eq, beq_iff_eq, bne_iff_ne] at hm
  simp only [has, Bool.and_eq_true, decide_eq_true_eq, beq_iff_eq] at hr
  rw [← Bool.not_eq_true]
  simp only [has, Bool.and_eq_true, decide_eq_true_eq, beq_iff_eq]
  have := r.apply_cases n
  obtain (hm | hm) | ⟨⟨⟨hlo, hrs | hone⟩, hss⟩, hm⟩ := hm
  · omega
  · omega
  · rw [hrs] at hr
    rw [hss]
    omega
  · rw [hss]
    omega

def capitals : List (Nat × Nat) := [(65, 90), (0x130, 0x130), (0x3A3, 0x3A3)]

theorem lowerRuns_avoid : ∀ r ∈ lowerRuns, 0 < r.first ∧ lowerRuns.all r.misses = true ∧
    ∀ b ∈ capitals ++ signs, 0 < b.1 ∧ r.avoids b.1 b.2 = true := by
  decide +kernel

theorem lowerExpansions_lowered : ∀ e ∈ lowerExpansions, e.1 = 0x130 ∧ e.2 ≠ [] ∧ ∀ n ∈ e.2,
    isSign (Char.ofNat n) = false ∧ Char.ofNat n ≠ 'Σ' ∧
      lowerChar (Char.ofNat n) = [Char.ofNat n] := by
  decide +kernel

theorem lowerTables_avoid_signs : ∀ b ∈ signs, b.2 < 65 ∨ 128 ≤ b.1 ∧
    (∀ r ∈ lowerRuns, r.last < b.1 ∨ b.2 < r.first) ∧
      ∀ e ∈ lowerExpansions, e.1 < b.1 ∨ b.2 < e.1 := by
  decide +kernel

variable {c d : Char} {s t : Text}

/-- Where the characters of a small letter come from. -/
theorem mem_lowerChar (h : d ∈ lowerChar c) :
    isAscii c = true ∧ d = c.toLower ∨ isAscii c = false ∧ ((lowerChar c = [c] ∧ d = c) ∨
      (∃ r ∈ lowerRuns, r.has c.toNat = true ∧ d = r.apply c.toNat) ∨
      ∃ e ∈ lowerExpansions, ∃ n ∈ e.2, d = Char.ofNat n) := by
  unfold lowerChar at h ⊢
  split at h
  · rename_i ha
    exact .inl ⟨ha, by simpa using h⟩
  · rename_i ha
    rw [if_neg ha]
    exact .inr ⟨by simpa using ha, mem_mapped h⟩

theorem lowerChar_ne_nil (c : Char) : lowerChar c ≠ [] := by
  unfold lowerChar
  split
  · simp
  · exact mapped_ne_nil fun e he => (lowerExpansions_lowered e he).2.1

theorem lowerChar_sign (h : isSign c = true) : lowerChar c = [c] := by
  obtain ⟨b, hb, hlo, hhi⟩ := (isSign_iff c).1 h
  rcases lowerTables_avoid_signs b hb with hsmall | ⟨hlarge, hruns, hexpansions⟩
  · have hn := toNat_toLower c
    rw [if_neg (by omega), Char.toNat_inj] at hn
    rw [lowerChar, if_pos (by simp [isAscii]; omega), hn]
  · rw [lowerChar, if_neg (by simp [isAscii]; omega)]
    exact mapped_range hruns hexpansions hlo hhi

theorem isSign_toLower (c : Char) : isSign c.toLower = isSign c := by
  have hn := toNat_toLower c
  rw [Bool.eq_iff_iff, isSign_iff, isSign_iff]
  simp only [signs, blanks, List.cons_append, List.nil_append, List.mem_cons, List.not_mem_nil,
    or_false, exists_eq_or_imp, exists_eq_left]
  split at hn <;> omega

/-- No sign comes from a letter. -/
theorem isSign_lowerChar (hc : isSign c = false) (h : d ∈ lowerChar c) : isSign d = false := by
  rcases mem_lowerChar h with ⟨-, rfl⟩ | ⟨-, ⟨-, rfl⟩ | ⟨r, hr, hh, rfl⟩ | ⟨e, he, n, hn, rfl⟩⟩
  · rwa [isSign_toLower]
  · exact hc
  · rw [← Bool.not_eq_true, isSign_iff]
    rintro ⟨b, hb, hin⟩
    obtain ⟨hpos, ha⟩ := (lowerRuns_avoid r hr).2.2 b (by simp [hb])
    exact r.toNat_apply ha hpos hh hin
  · exact ((lowerExpansions_lowered e he).2.2 n hn).1

def IsLow (c : Char) : Prop := lowerChar c = [c] ∧ c ≠ 'Σ'

theorem isLow_toLower (ha : isAscii c = true) : IsLow c.toLower := by
  have hn := toNat_toLower c
  simp only [isAscii, decide_eq_true_eq] at ha
  constructor
  · rw [lowerChar, if_pos (by simp [isAscii]; split at hn <;> omega), toLower_toLower]
  · intro h
    rw [h] at hn
    have : 'Σ'.toNat = 931 := rfl
    split at hn <;> omega

theorem isLow_run {r : Run} (hr : r ∈ lowerRuns) (hh : r.has c.toNat = true) :
    IsLow (r.apply c.toNat) := by
  have hcapital : ∀ b ∈ capitals,
      ¬(b.1 ≤ (r.apply c.toNat).toNat ∧ (r.apply c.toNat).toNat ≤ b.2) := by
    intro b hb
    obtain ⟨hpos, ha⟩ := (lowerRuns_avoid r hr).2.2 b (by simp [hb])
    exact r.toNat_apply ha hpos hh
  simp only [capitals, List.mem_cons, List.not_mem_nil, or_false, forall_eq_or_imp,
    forall_eq] at hcapital
  obtain ⟨hletter, hdotted, hsigma⟩ := hcapital
  constructor
  · unfold lowerChar
    split
    · have hn := toNat_toLower (r.apply c.toNat)
      rw [if_neg hletter, Char.toNat_inj] at hn
      rw [hn]
    · refine mapped_self (fun e he => ?_) fun s hs => ?_
      · have := (lowerExpansions_lowered e he).1
        omega
      · have hmiss := List.all_eq_true.1 (lowerRuns_avoid r hr).2.1 s hs
        exact Run.has_apply hmiss (lowerRuns_avoid s hs).1 hh
  · intro h
    rw [h] at hsigma
    exact hsigma (by decide)

theorem isLow_of_mem_lowerChar (hc : c ≠ 'Σ') (h : d ∈ lowerChar c) : IsLow d := by
  rcases mem_lowerChar h with ⟨ha, rfl⟩ | ⟨-, ⟨hself, rfl⟩ | ⟨r, hr, hh, rfl⟩ | ⟨e, he, n, hn, rfl⟩⟩
  · exact isLow_toLower ha
  · exact ⟨hself, hc⟩
  · exact isLow_run hr hh
  · obtain ⟨-, hsigma, hself⟩ := (lowerExpansions_lowered e he).2.2 n hn
    exact ⟨hself, hsigma⟩

theorem isLow_sigma : IsLow 'σ' ∧ IsLow 'ς' := by
  unfold IsLow
  decide +kernel

theorem isLow_of_mem_lowerAfter {before : Text} (h : d ∈ lowerAfter before t) : IsLow d := by
  induction t generalizing before with
  | nil => cases h
  | cons c t ih =>
    rw [lowerAfter] at h
    rcases List.mem_append.1 h with h | h
    · split at h
      · split at h
        · obtain rfl : d = 'ς' := by simpa using h
          exact isLow_sigma.2
        · obtain rfl : d = 'σ' := by simpa using h
          exact isLow_sigma.1
      · rename_i hc
        exact isLow_of_mem_lowerChar (by simpa using hc) h
    · exact ih h

theorem lowerAfter_low (h : ∀ c ∈ t, IsLow c) (before : Text) : lowerAfter before t = t := by
  induction t generalizing before with
  | nil => rfl
  | cons c t ih =>
    obtain ⟨hself, hsigma⟩ := h c (by simp)
    rw [lowerAfter, if_neg (by simpa using hsigma), hself, ih fun d hd => h d (by simp [hd])]
    rfl

theorem lower_lower (t : Text) : lower (lower t) = lower t :=
  lowerAfter_low (fun _ h => isLow_of_mem_lowerAfter h) []

/-- Two texts that are alike up to the letters between their signs. A letter may become several. -/
inductive Likewise : Text → Text → Prop where
  | nil : Likewise [] []
  | keep (c : Char) {s t : Text} : Likewise s t → Likewise (c :: s) (c :: t)
  | letter {c : Char} {u s t : Text} : isSign c = false → u ≠ [] → (∀ d ∈ u, isSign d = false) →
      Likewise s t → Likewise (c :: s) (u ++ t)

namespace Likewise

theorem refl : ∀ t : Text, Likewise t t
  | [] => nil
  | c :: t => keep c (refl t)

theorem append {s t u v : Text} (h : Likewise s t) (h' : Likewise u v) :
    Likewise (s ++ u) (t ++ v) := by
  induction h with
  | nil => exact h'
  | keep c _ ih => exact keep c ih
  | letter hc hu hl _ ih =>
    rw [List.append_assoc]
    exact letter hc hu hl ih

theorem eq_nil_iff (h : Likewise s t) : s = [] ↔ t = [] := by
  cases h with
  | nil => exact Iff.rfl
  | keep => simp
  | letter _ hu => simp [hu]

end Likewise

theorem likewise_lowerAfter (t before : Text) : Likewise t (lowerAfter before t) := by
  induction t generalizing before with
  | nil => exact .nil
  | cons c t ih =>
    rw [lowerAfter]
    cases hc : isSign c with
    | true =>
      have hsigma : c ≠ 'Σ' := by
        rintro rfl
        cases hc
      rw [if_neg (by simpa using hsigma), lowerChar_sign hc]
      exact .keep c (ih _)
    | false =>
      refine .letter hc ?_ (fun d hd => ?_) (ih _)
      · split
        · split <;> simp
        · exact lowerChar_ne_nil c
      · split at hd
        · split at hd
          · obtain rfl : d = 'ς' := by simpa using hd
            rfl
          · obtain rfl : d = 'σ' := by simpa using hd
            rfl
        · exact isSign_lowerChar hc hd

theorem likewise_lower (t : Text) : Likewise t (lower t) := likewise_lowerAfter t []

end SqlLayout.Text

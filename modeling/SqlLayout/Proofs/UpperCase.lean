import SqlLayout.Proofs.Line
import SqlLayout.Text.Case

/-! What raising a text to upper case keeps: it makes no blanks and drops nothing, and outside
ASCII few letters become ASCII.
-/

set_option autoImplicit false

namespace SqlLayout.Text

theorem toNat_toUpper (c : Char) :
    c.toUpper.toNat = if 97 ≤ c.toNat ∧ c.toNat ≤ 122 then c.toNat - 32 else c.toNat := by
  have hc : 'a'.val ≤ c.val ∧ c.val ≤ 'z'.val ↔ 97 ≤ c.val.toNat ∧ c.val.toNat ≤ 122 := by
    simp only [UInt32.le_iff_toNat_le]
    rfl
  have hs : ('A'.val - 'a'.val).toNat = 4294967264 := by decide
  unfold Char.toUpper Char.toNat
  by_cases h : 'a'.val ≤ c.val ∧ c.val ≤ 'z'.val
  · rw [dif_pos h, if_pos (hc.1 h), UInt32.toNat_add, hs]
    have := hc.1 h
    omega
  · rw [dif_neg h, if_neg (fun hn => h (hc.2 hn))]

theorem toNat_toLower (c : Char) :
    c.toLower.toNat = if 65 ≤ c.toNat ∧ c.toNat ≤ 90 then c.toNat + 32 else c.toNat := by
  have hc : 'A'.val ≤ c.val ∧ c.val ≤ 'Z'.val ↔ 65 ≤ c.val.toNat ∧ c.val.toNat ≤ 90 := by
    simp only [UInt32.le_iff_toNat_le]
    rfl
  have hs : ('a'.val - 'A'.val).toNat = 32 := by decide
  unfold Char.toLower Char.toNat
  by_cases h : 'A'.val ≤ c.val ∧ c.val ≤ 'Z'.val
  · rw [dif_pos h, if_pos (hc.1 h), UInt32.toNat_add, hs]
    have := hc.1 h
    omega
  · rw [dif_neg h, if_neg (fun hn => h (hc.2 hn))]

def Run.avoids (r : Run) (lo hi : Nat) : Bool := r.last + r.shift < lo || hi < r.first + r.shift

theorem Run.apply_cases (r : Run) (n : Nat) :
    (r.apply n).toNat = Int.toNat (n + r.shift) ∨ (r.apply n).toNat = 0 := by
  by_cases hvalid : (Int.toNat (n + r.shift)).isValidChar
  · exact .inl (congrArg Char.toNat (dif_pos hvalid))
  · exact .inr (congrArg Char.toNat (dif_neg hvalid))

theorem Run.toNat_apply {r : Run} {lo hi n : Nat} (ha : r.avoids lo hi = true) (hlo : 0 < lo)
    (hr : r.has n = true) : ¬(lo ≤ (r.apply n).toNat ∧ (r.apply n).toNat ≤ hi) := by
  simp only [avoids, Bool.or_eq_true, decide_eq_true_eq] at ha
  simp only [has, Bool.and_eq_true, decide_eq_true_eq] at hr
  have := r.apply_cases n
  omega

def blanks : List (Nat × Nat) :=
  [(0x9, 0xD), (0x20, 0x20), (0x85, 0x85), (0xA0, 0xA0), (0x1680, 0x1680), (0x2000, 0x200A),
   (0x2028, 0x2029), (0x202F, 0x202F), (0x205F, 0x205F), (0x3000, 0x3000)]

theorem isBlank_iff (c : Char) :
    isBlank c = true ↔ ∃ b ∈ blanks, b.1 ≤ c.toNat ∧ c.toNat ≤ b.2 := by
  simp [isBlank, blanks]
  omega

theorem mem_of_lookup {c : Nat} {ns : List Nat} {l : List (Nat × List Nat)}
    (h : l.lookup c = some ns) : (c, ns) ∈ l := by
  obtain ⟨a, b, rfl, -⟩ := List.lookup_eq_some_iff.1 h
  simp

/-- Of the ASCII letters, the small ones and those of `DECODE` come from ASCII only. -/
def reserved : List (Nat × Nat) := [(67, 69), (79, 79), (97, 122)]

theorem upperRuns_avoid :
    ∀ r ∈ upperRuns, ∀ b ∈ blanks ++ reserved, 0 < b.1 ∧ r.avoids b.1 b.2 = true := by
  decide +kernel

theorem upperExpansions_avoid : ∀ e ∈ upperExpansions, e.2 ≠ [] ∧ ∀ n ∈ e.2,
    ∀ b ∈ blanks ++ reserved, ¬(b.1 ≤ (Char.ofNat n).toNat ∧ (Char.ofNat n).toNat ≤ b.2) := by
  decide +kernel

section

variable {expansions : List (Nat × List Nat)} {runs : List Run} {c d : Char}

theorem mem_mapped (h : d ∈ mapped expansions runs c) :
    (mapped expansions runs c = [c] ∧ d = c) ∨
      (∃ r ∈ runs, r.has c.toNat = true ∧ d = r.apply c.toNat) ∨
      ∃ e ∈ expansions, ∃ n ∈ e.2, d = Char.ofNat n := by
  unfold mapped at h ⊢
  split at h
  · rename_i ns hns
    obtain ⟨n, hn, rfl⟩ := List.mem_map.1 h
    exact .inr (.inr ⟨(c.toNat, ns), mem_of_lookup hns, n, hn, rfl⟩)
  · split at h
    · rename_i r hr
      have hfound := List.find?_some hr
      exact .inr (.inl ⟨r, List.mem_of_find?_eq_some hr, hfound, by simpa using h⟩)
    · exact .inl ⟨rfl, by simpa using h⟩

theorem mapped_ne_nil (h : ∀ e ∈ expansions, e.2 ≠ []) : mapped expansions runs c ≠ [] := by
  unfold mapped
  split
  · rename_i ns hns
    simpa using h _ (mem_of_lookup hns)
  · split <;> simp

theorem mapped_self (he : ∀ e ∈ expansions, e.1 ≠ c.toNat)
    (hr : ∀ r ∈ runs, r.has c.toNat = false) : mapped expansions runs c = [c] := by
  unfold mapped
  split
  · rename_i ns hns
    exact absurd rfl (he _ (mem_of_lookup hns))
  · split
    · rename_i r hfound
      have hhas := List.find?_some hfound
      rw [hr r (List.mem_of_find?_eq_some hfound)] at hhas
      cases hhas
    · rfl

theorem mapped_range {lo hi : Nat} (hr : ∀ r ∈ runs, r.last < lo ∨ hi < r.first)
    (he : ∀ e ∈ expansions, e.1 < lo ∨ hi < e.1) (hlo : lo ≤ c.toNat) (hhi : c.toNat ≤ hi) :
    mapped expansions runs c = [c] := by
  refine mapped_self (fun e hmem => ?_) fun r hmem => ?_
  · have := he e hmem
    omega
  · have := hr r hmem
    rw [← Bool.not_eq_true, Run.has]
    simp only [Bool.and_eq_true, decide_eq_true_eq]
    omega

end

/-- Where the characters of an image come from. -/
theorem mem_upperChar {c d : Char} (h : d ∈ upperChar c) :
    isAscii c = true ∧ d = c.toUpper ∨ isAscii c = false ∧ (d = c ∨
      (∃ r ∈ upperRuns, r.has c.toNat = true ∧ d = r.apply c.toNat) ∨
      ∃ e ∈ upperExpansions, ∃ n ∈ e.2, d = Char.ofNat n) := by
  unfold upperChar at h
  split at h
  · rename_i ha
    exact .inl ⟨ha, by simpa using h⟩
  · rename_i ha
    exact .inr ⟨by simpa using ha, (mem_mapped h).imp_left And.right⟩

theorem upperChar_ne_nil (c : Char) : upperChar c ≠ [] := by
  unfold upperChar
  split
  · simp
  · exact mapped_ne_nil fun e he => (upperExpansions_avoid e he).1

theorem isBlank_toUpper {c : Char} (h : isBlank c = false) : isBlank c.toUpper = false := by
  have hn := toNat_toUpper c
  rw [← Bool.not_eq_true, isBlank_iff] at h ⊢
  simp only [blanks, List.mem_cons, List.not_mem_nil, or_false, exists_eq_or_imp,
    exists_eq_left] at h ⊢
  split at hn <;> omega

theorem isBlank_toLower (c : Char) : isBlank c.toLower = isBlank c := by
  have h := toNat_toLower c
  rw [Bool.eq_iff_iff]
  simp only [isBlank, Bool.or_eq_true, Bool.and_eq_true, decide_eq_true_eq, beq_iff_eq]
  split at h <;> omega

theorem avoid_of_mem_upperChar {c d : Char} (hc : isAscii c = false) (h : d ∈ upperChar c) :
    d = c ∨ ∀ b ∈ blanks ++ reserved, ¬(b.1 ≤ d.toNat ∧ d.toNat ≤ b.2) := by
  rcases mem_upperChar h with ⟨ha, -⟩ | ⟨-, rfl | ⟨r, hr, hh, rfl⟩ | ⟨e, he, n, hn, rfl⟩⟩
  · simp [ha] at hc
  · exact .inl rfl
  · refine .inr fun b hb => ?_
    obtain ⟨hpos, ha⟩ := upperRuns_avoid r hr b hb
    exact r.toNat_apply ha hpos hh
  · exact .inr ((upperExpansions_avoid e he).2 n hn)

theorem isBlank_upperChar {c d : Char} (hc : isBlank c = false) (h : d ∈ upperChar c) :
    isBlank d = false := by
  cases ha : isAscii c with
  | true =>
    obtain rfl : d = c.toUpper := by simpa [upperChar, ha] using h
    exact isBlank_toUpper hc
  | false =>
    rcases avoid_of_mem_upperChar ha h with rfl | havoid
    · exact hc
    · rw [← Bool.not_eq_true, isBlank_iff]
      rintro ⟨b, hb, hin⟩
      exact havoid b (by simp [hb]) hin

theorem Solid.upper {t : Text} (h : Solid t) : Solid (upper t) := by
  constructor
  · obtain ⟨c, a, rfl, hc⟩ := h.starts
    obtain ⟨d, u, hu⟩ := List.exists_cons_of_ne_nil (upperChar_ne_nil c)
    have : isBlank d = false := isBlank_upperChar hc (by simp [hu])
    simp [Text.upper, hu, this]
  · obtain ⟨a, c, rfl, hc⟩ := h.ends
    obtain ⟨u, d, hu⟩ : ∃ u d, upperChar c = u ++ [d] := by
      rcases List.eq_nil_or_concat (upperChar c) with hn | ⟨u, d, hu⟩
      · exact absurd hn (upperChar_ne_nil c)
      · exact ⟨u, d, by simpa using hu⟩
    have : isBlank d = false := isBlank_upperChar hc (by simp [hu])
    simp [Text.upper, hu, this]

theorem not_reserved {c d : Char} (hc : isAscii c = false) (h : d ∈ upperChar c) :
    ∀ b ∈ reserved, ¬(b.1 ≤ d.toNat ∧ d.toNat ≤ b.2) := by
  intro b hb
  rcases avoid_of_mem_upperChar hc h with rfl | havoid
  · have hlarge : 128 ≤ d.toNat := by simpa [isAscii] using hc
    simp only [reserved, List.mem_cons, List.not_mem_nil, or_false] at hb
    rcases hb with rfl | rfl | rfl <;> simp only <;> omega
  · exact havoid b (by simp [hb])

theorem toUpper_of_mem_upper {t : Text} {d : Char} (h : d ∈ upper t) : d.toUpper = d := by
  obtain ⟨c, -, hd⟩ := List.mem_flatMap.1 h
  have hn := toNat_toUpper d
  rw [← Char.toNat_inj]
  cases hc : isAscii c with
  | true =>
    obtain rfl : d = c.toUpper := by simpa [upperChar, hc] using hd
    have hn' := toNat_toUpper c
    split at hn <;> split at hn' <;> omega
  | false =>
    have hsmall := not_reserved hc hd (97, 122) (by simp [reserved])
    rw [if_neg hsmall] at hn
    exact hn

theorem upper_ascii {t : Text} (h : ∀ c ∈ t, isAscii c = true) :
    upper t = t.map Char.toUpper := by
  induction t with
  | nil => rfl
  | cons c t ih =>
    have := ih fun d hd => h d (by simp [hd])
    simp_all [upper, upperChar]

theorem upper_upper {t : Text} (h : ∀ c ∈ upper t, isAscii c = true) : upper (upper t) = upper t := by
  rw [upper_ascii h]
  exact (List.map_congr_left fun d hd => toUpper_of_mem_upper hd).trans (List.map_id _)

theorem toLower_toUpper (c : Char) : c.toUpper.toLower = c.toLower := by
  have h := toNat_toUpper c
  have h' := toNat_toLower c.toUpper
  have h'' := toNat_toLower c
  rw [← Char.toNat_inj]
  split at h <;> split at h' <;> split at h'' <;> omega

theorem toLower_toLower (c : Char) : c.toLower.toLower = c.toLower := by
  have h := toNat_toLower c
  have h' := toNat_toLower c.toLower
  rw [← Char.toNat_inj]
  split at h <;> split at h' <;> omega

theorem sameLetters_decode_upper (t : Text) :
    sameLetters (upper t) "decode".toList = sameLetters t "decode".toList := by
  by_cases ha : ∀ c ∈ t, isAscii c = true
  · rw [upper_ascii ha, sameLetters, sameLetters, List.map_map]
    congr 1
    exact List.map_congr_left fun c _ => toLower_toUpper c
  · simp only [not_forall] at ha
    obtain ⟨c, hc, ha⟩ := ha
    rw [Bool.not_eq_true] at ha
    have hdecode : ∀ {s : Text} {d : Char}, sameLetters s "decode".toList = true → d ∈ s →
        d.toLower ∈ ['d', 'e', 'c', 'o', 'd', 'e'] := by
      intro s d hs hd
      have hs' : s.map Char.toLower = ['d', 'e', 'c', 'o', 'd', 'e'] := by
        simpa [sameLetters] using hs
      rw [← hs']
      exact List.mem_map_of_mem hd
    have hletters : ∀ {d : Char}, d.toLower ∈ ['d', 'e', 'c', 'o', 'd', 'e'] →
        ∃ b ∈ reserved, b.1 ≤ d.toNat ∧ d.toNat ≤ b.2 := by
      intro d hd
      have hn := toNat_toLower d
      have hd' : d.toLower.toNat = 100 ∨ d.toLower.toNat = 101 ∨ d.toLower.toNat = 99 ∨
          d.toLower.toNat = 111 := by
        simp only [List.mem_cons, List.not_mem_nil, or_false] at hd
        rcases hd with h | h | h | h | h | h <;> rw [h] <;> decide
      simp only [reserved, List.mem_cons, List.not_mem_nil, or_false, exists_eq_or_imp,
        exists_eq_left]
      split at hn <;> omega
    obtain ⟨d, hd⟩ := List.exists_mem_of_ne_nil _ (upperChar_ne_nil c)
    have hleft : sameLetters (upper t) "decode".toList = false := by
      by_contra hn
      obtain ⟨b, hb, hin⟩ := hletters (hdecode (s := upper t) (by simpa using hn)
        (List.mem_flatMap.2 ⟨c, hc, hd⟩))
      exact not_reserved ha hd b hb hin
    have hright : sameLetters t "decode".toList = false := by
      by_contra hn
      obtain ⟨b, hb, hin⟩ := hletters (hdecode (by simpa using hn) hc)
      have hlarge : 128 ≤ c.toNat := by simpa [isAscii] using ha
      simp only [reserved, List.mem_cons, List.not_mem_nil, or_false] at hb
      rcases hb with rfl | rfl | rfl <;> simp only at hin <;> omega
    rw [hleft, hright]

theorem upperTables_avoid_blanks : ∀ b ∈ blanks, 128 ≤ b.1 →
    (∀ r ∈ upperRuns, r.last < b.1 ∨ b.2 < r.first) ∧
      ∀ e ∈ upperExpansions, e.1 < b.1 ∨ b.2 < e.1 := by
  decide +kernel

theorem upperChar_blank {c : Char} (hb : isBlank c = true) : upperChar c = [c] := by
  obtain ⟨b, hmem, hlo, hhi⟩ := (isBlank_iff c).1 hb
  by_cases hc : isAscii c = true
  · have hletter : ¬(97 ≤ c.toNat ∧ c.toNat ≤ 122) := by
      simp only [blanks, List.mem_cons, List.not_mem_nil, or_false] at hmem
      rcases hmem with rfl | rfl | rfl | rfl | rfl | rfl | rfl | rfl | rfl | rfl <;> grind
    have hn := toNat_toUpper c
    rw [if_neg hletter, Char.toNat_inj] at hn
    rw [upperChar, if_pos hc, hn]
  rw [Bool.not_eq_true] at hc
  have hlarge : 128 ≤ c.toNat := by simpa [isAscii] using hc
  have hstart : 128 ≤ b.1 := by
    simp only [blanks, List.mem_cons, List.not_mem_nil, or_false] at hmem
    rcases hmem with rfl | rfl | rfl | rfl | rfl | rfl | rfl | rfl | rfl | rfl <;> grind
  obtain ⟨hruns, hexpansions⟩ := upperTables_avoid_blanks b hmem hstart
  rw [upperChar, if_neg (by simp [hc])]
  exact mapped_range hruns hexpansions hlo hhi

/-- If what is raised is ASCII, so was the name, unless it had a letter outside ASCII. -/
theorem ascii_of_upper {t : Text} (h : ∀ c ∈ upper t, isAscii c = true)
    (ht : ∀ c ∈ t, isAscii c = true ∨ isBlank c = true) : ∀ c ∈ t, isAscii c = true := by
  intro c hc
  by_contra hn
  have hb := (ht c hc).resolve_left hn
  rw [Bool.not_eq_true] at hn
  have := h c (List.mem_flatMap.2 ⟨c, hc, by rw [upperChar_blank hb]; simp⟩)
  simp [hn] at this

end SqlLayout.Text

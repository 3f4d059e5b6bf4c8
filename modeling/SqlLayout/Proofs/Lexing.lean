import Mathlib.Algebra.GroupWithZero.Nat
import Mathlib.Data.List.TakeWhile
import SqlLayout.Token.Scan

/-! Reading a token again, before another text. Every reader takes the same text again when what
follows does not go on with it.
-/

set_option autoImplicit false

namespace SqlLayout

namespace Scan

theorem isDigit_iff (c : Char) : c.isDigit = true ↔ 48 ≤ c.toNat ∧ c.toNat ≤ 57 := by
  simp [Char.isDigit, UInt32.le_iff_toNat_le]

theorem isAlpha_iff (c : Char) :
    c.isAlpha = true ↔ 65 ≤ c.toNat ∧ c.toNat ≤ 90 ∨ 97 ≤ c.toNat ∧ c.toNat ≤ 122 := by
  change (decide (c.val ≥ 'A'.val ∧ c.val ≤ 'Z'.val) ||
    decide (c.val ≥ 'a'.val) && decide (c.val ≤ 'z'.val)) = true ↔ _
  simp [UInt32.le_iff_toNat_le]

theorem isWordStart_iff (c : Char) : isWordStart c = true ↔
    65 ≤ c.toNat ∧ c.toNat ≤ 90 ∨ 97 ≤ c.toNat ∧ c.toNat ≤ 122 ∨ c.toNat = 95 ∨ c.toNat = 64 ∨
      c.toNat = 35 ∨ 128 ≤ c.toNat := by
  simp only [isWordStart, Text.isAscii, Bool.or_eq_true, isAlpha_iff, beq_iff_eq,
    Bool.not_eq_true', decide_eq_false_iff_not, ← Char.toNat_inj, Char.reduceToNat]
  omega

theorem isWordChar_iff (c : Char) : isWordChar c = true ↔
    48 ≤ c.toNat ∧ c.toNat ≤ 57 ∨ c.toNat = 36 ∨ isWordStart c = true := by
  simp only [isWordStart_iff, isWordChar, Text.isAscii, Char.isAlphanum, Bool.or_eq_true,
    isAlpha_iff, isDigit_iff, beq_iff_eq, Bool.not_eq_true', decide_eq_false_iff_not,
    ← Char.toNat_inj, Char.reduceToNat]
  omega

theorem isTagChar_iff (c : Char) : Quoted.isTagChar c = true ↔
    65 ≤ c.toNat ∧ c.toNat ≤ 90 ∨ 97 ≤ c.toNat ∧ c.toNat ≤ 122 ∨ c.toNat = 95 := by
  simp only [Quoted.isTagChar, Bool.or_eq_true, isAlpha_iff, beq_iff_eq, ← Char.toNat_inj,
    Char.reduceToNat]
  omega

theorem not_isTagChar {c : Char} (h : isWordChar c = false) : Quoted.isTagChar c = false := by
  rw [← Bool.not_eq_true] at h ⊢
  rw [isWordChar_iff, isWordStart_iff] at h
  rw [isTagChar_iff]
  omega

/-- The text does not go on with a character in `p`. -/
def Ends (p : Char → Bool) (x : Text) : Prop := x.head?.any p = false

theorem Ends.run {p : Char → Bool} {w x : Text} (hw : ∀ c ∈ w, p c = true) (hx : Ends p x) :
    Reader.run p (w ++ x) = (w, x) := by
  induction w with
  | nil =>
    cases x with
    | nil => rfl
    | cons c x =>
      have hc : p c = false := by simpa [Ends] using hx
      simp [Reader.run, hc]
  | cons c w ih =>
    have := ih fun d hd => hw d (by simp [hd])
    simp_all [Reader.run]

def isNumberChar (c : Char) : Bool := c.isAlphanum || c == '_'

def NumberEnds (x : Text) : Prop :=
  Ends isNumberChar x ∧ (∀ y, x = '.' :: y → startsWithDigit y = false) ∧
    ∀ c y, x = c :: y → (c == '+' || c == '-') = true → startsWithDigit y = false

theorem isNumberChar_iff (c : Char) : isNumberChar c = true ↔
    48 ≤ c.toNat ∧ c.toNat ≤ 57 ∨ 65 ≤ c.toNat ∧ c.toNat ≤ 90 ∨ 97 ≤ c.toNat ∧ c.toNat ≤ 122 ∨
      c.toNat = 95 := by
  simp only [isNumberChar, Char.isAlphanum, Bool.or_eq_true, isAlpha_iff, isDigit_iff, beq_iff_eq,
    ← Char.toNat_inj, Char.reduceToNat]
  omega

theorem startsWithDigit_of_ends {x : Text} (h : Ends isNumberChar x) : startsWithDigit x = false := by
  cases x with
  | nil => rfl
  | cons c x =>
    have hc : isNumberChar c = false := by simpa [Ends] using h
    rw [startsWithDigit]
    rw [← Bool.not_eq_true] at hc ⊢
    rw [isNumberChar_iff] at hc
    rw [isDigit_iff]
    omega

theorem ends_isDigit_iff (x : Text) : Ends Char.isDigit x ↔ startsWithDigit x = false := by
  cases x <;> simp [Ends, startsWithDigit]

theorem run_eq {p : Char → Bool} {cs w y : Text} (h : Reader.run p cs = (w, y)) :
    (∀ c ∈ w, p c = true) ∧ Ends p y ∧ w ++ y = cs := by
  obtain ⟨rfl, rfl⟩ : cs.takeWhile p = w ∧ cs.dropWhile p = y := by
    simpa [Reader.run] using h
  refine ⟨fun c => List.mem_takeWhile_imp, ?_, List.takeWhile_append_dropWhile⟩
  have hhead := List.head?_dropWhile_not p cs
  unfold Ends
  cases hd : cs.dropWhile p with
  | nil => rfl
  | cons c r => simpa [hd] using hhead

theorem Ends.of_append {p : Char → Bool} {u x y : Text} (h : Ends p (u ++ y)) (hx : Ends p x) :
    Ends p (u ++ x) := by
  cases u with
  | nil => exact hx
  | cons c u => simpa [Ends] using h

theorem sign_cons (c : Char) (r : Text) :
    sign (c :: r) = if c == '+' || c == '-' then ([c], r) else ([], c :: r) := rfl

theorem exponent_cons (c : Char) (r : Text) : exponent (c :: r) =
    if (c == 'e' || c == 'E') && startsWithDigit (sign r).2 then
      (c :: (sign r).1 ++ (digits (sign r).2).1, (digits (sign r).2).2)
    else ([], c :: r) := rfl

theorem sign_number {c : Char} (hc : isNumberChar c = true) (r : Text) :
    sign (c :: r) = ([], c :: r) := by
  have : (c == '+' || c == '-') = false := by
    rw [isNumberChar_iff] at hc
    rw [← Bool.not_eq_true]
    simp only [Bool.or_eq_true, beq_iff_eq, ← Char.toNat_inj, Char.reduceToNat]
    omega
  simp [sign_cons, this]

theorem isNumberChar_of_isDigit {c : Char} (h : c.isDigit = true) : isNumberChar c = true := by
  rw [isNumberChar_iff]
  rw [isDigit_iff] at h
  omega

theorem sign_again {r s u z : Text} (h : sign r = (s, u)) (hz : startsWithDigit z = true) :
    sign (s ++ z) = (s, z) := by
  obtain ⟨k, z, rfl⟩ : ∃ k z', z = k :: z' := by
    cases z with
    | nil => simp [startsWithDigit] at hz
    | cons k z => exact ⟨k, z, rfl⟩
  have hnone := sign_number (isNumberChar_of_isDigit hz) z
  cases r with
  | nil =>
    obtain ⟨rfl, -⟩ : [] = s ∧ [] = u := by simpa [sign] using h
    exact hnone
  | cons c r =>
    rw [sign_cons] at h
    split at h
    · rename_i hc
      obtain ⟨rfl, -⟩ : [c] = s ∧ r = u := by simpa using h
      simp [sign_cons, hc]
    · obtain ⟨rfl, -⟩ : [] = s ∧ c :: r = u := by simpa using h
      exact hnone

theorem exponent_nil {d x y : Text} (hd : ∀ c ∈ d, isNumberChar c = true)
    (h : (exponent (d ++ y)).1 = []) (hx : NumberEnds x) : exponent (d ++ x) = ([], d ++ x) := by
  have hnone : ∀ {c : Char} {r : Text},
      ((c == 'e' || c == 'E') && startsWithDigit (sign r).2) = false →
      exponent (c :: r) = ([], c :: r) := fun h => by simp [exponent_cons, h]
  rcases d with _ | ⟨c, d⟩
  · cases x with
    | nil => rfl
    | cons k x =>
      refine hnone ?_
      have hk : isNumberChar k = false := by simpa [Ends] using hx.1
      have : (k == 'e' || k == 'E') = false := by
        rw [← Bool.not_eq_true] at hk ⊢
        rw [isNumberChar_iff] at hk
        simp only [Bool.or_eq_true, beq_iff_eq, ← Char.toNat_inj, Char.reduceToNat]
        omega
      simp [this]
  · refine hnone ?_
    have hc : ((c == 'e' || c == 'E') && startsWithDigit (sign (d ++ y)).2) = false := by
      by_contra hn
      rw [List.cons_append, exponent_cons, if_pos (by simpa using hn)] at h
      simp at h
    rcases d with _ | ⟨k, d⟩
    · have : startsWithDigit (sign x).2 = false := by
        cases x with
        | nil => rfl
        | cons k x =>
          rw [sign_cons]
          split
          · rename_i hs
            exact hx.2.2 k x rfl hs
          · exact startsWithDigit_of_ends hx.1
      simp [this]
    · have hk := hd k (by simp)
      change ((c == 'e' || c == 'E') && startsWithDigit (sign (k :: (d ++ x))).2) = false
      rw [List.cons_append, sign_number hk] at hc
      rw [sign_number hk]
      exact hc

theorem startsWithDigit_digits {r ds v z : Text} (h : digits r = (ds, v))
    (hr : startsWithDigit r = true) : startsWithDigit (ds ++ z) = true := by
  cases r with
  | nil => simp [startsWithDigit] at hr
  | cons k u =>
    have hk : k.isDigit = true := hr
    obtain ⟨rfl, -⟩ : k :: u.takeWhile Char.isDigit = ds ∧ _ := by
      simpa [digits, Reader.run, hk] using h
    exact hk

theorem exponent_again {r c d x y : Text} (hc : exponent r = (c, d ++ y))
    (hd : ∀ k ∈ d, isNumberChar k = true) (hx : NumberEnds x) :
    exponent (c ++ (d ++ x)) = (c, d ++ x) := by
  have hdigit : Ends Char.isDigit x := (ends_isDigit_iff x).2 (startsWithDigit_of_ends hx.1)
  rcases r with _ | ⟨e, r⟩
  · obtain ⟨rfl, rfl, rfl⟩ : [] = c ∧ [] = d ∧ [] = y := by
      simpa [exponent, eq_comm] using hc
    exact exponent_nil (y := []) (by simp) rfl hx
  · have hcopy := hc
    rw [exponent_cons] at hc
    split at hc
    · rename_i he
      rcases hs : sign r with ⟨s, u⟩
      rcases hds : digits u with ⟨ds, v⟩
      simp only [hs, hds, Bool.and_eq_true] at hc he
      obtain ⟨rfl, rfl⟩ := Prod.mk.inj hc
      obtain ⟨hchars, hend, -⟩ := run_eq (p := Char.isDigit) hds
      have hfirst : startsWithDigit (ds ++ (d ++ x)) = true := startsWithDigit_digits hds he.2
      have hdigits : digits (ds ++ (d ++ x)) = (ds, d ++ x) :=
        Ends.run hchars (hend.of_append hdigit)
      rw [List.cons_append, List.cons_append, exponent_cons, List.append_assoc,
        sign_again hs hfirst, if_pos (by rw [he.1]; exact hfirst), hdigits]
      rfl
    · obtain ⟨rfl, hr⟩ := Prod.mk.inj hc
      change exponent (d ++ x) = ([], d ++ x)
      refine exponent_nil hd (y := y) ?_ hx
      rw [← hr, hcopy]

theorem fraction_none {z : Text} (h : ∀ y, z = '.' :: y → startsWithDigit y = false) :
    fraction z = ([], z) := by
  unfold fraction
  split
  · rename_i rest
    simp [h rest rfl]
  · rfl

theorem fraction_again {r b u z : Text} (h : fraction r = (b, u)) (hz : Ends Char.isDigit z)
    (hdot : b = [] → ∀ y, z = '.' :: y → startsWithDigit y = false) :
    fraction (b ++ z) = (b, z) := by
  unfold fraction at h
  split at h
  · rename_i rest
    split at h
    · rename_i hr
      rcases hds : digits rest with ⟨ds, v⟩
      rw [hds] at h
      obtain ⟨rfl, -⟩ := Prod.mk.inj h
      have hdigits : digits (ds ++ z) = (ds, z) := Ends.run (run_eq (p := Char.isDigit) hds).1 hz
      simp [fraction, startsWithDigit_digits hds hr, hdigits]
    · obtain ⟨rfl, -⟩ := Prod.mk.inj h
      exact fraction_none (hdot rfl)
  · obtain ⟨rfl, -⟩ := Prod.mk.inj h
    exact fraction_none (hdot rfl)

theorem andThen_eq {f g : Reader} {cs w y : Text} (h : (f.andThen g) cs = (w, y)) :
    ∃ a r b, f cs = (a, r) ∧ g r = (b, y) ∧ w = a ++ b := by
  rcases hf : f cs with ⟨a, r⟩
  rcases hg : g r with ⟨b, y'⟩
  simp only [Reader.andThen, hf, hg, Prod.mk.injEq] at h
  exact ⟨a, r, b, rfl, by rw [hg, h.2], h.1.symm⟩

theorem andThen_again {f g : Reader} {a b x : Text} (hf : f (a ++ (b ++ x)) = (a, b ++ x))
    (hg : g (b ++ x) = (b, x)) : (f.andThen g) (a ++ b ++ x) = (a ++ b, x) := by
  simp [Reader.andThen, hf, hg]

theorem andThen_assoc (f g h : Reader) :
    (f.andThen g).andThen h = f.andThen (g.andThen h) := by
  funext cs
  simp [Reader.andThen]

def numberTail : Reader := exponent.andThen numberEnding

theorem numberTail_again {r w x y : Text} (h : numberTail r = (w, y)) (hx : NumberEnds x) :
    numberTail (w ++ x) = (w, x) := by
  obtain ⟨c, r', d, hc, hd, rfl⟩ := andThen_eq h
  obtain ⟨hchars, -, rfl⟩ := run_eq (p := isNumberChar) hd
  exact andThen_again (exponent_again hc hchars hx) (Ends.run hchars hx.1)

theorem numberTail_split {r w y : Text} (h : numberTail r = (w, y)) : w ++ y = r := by
  have := (splits_exponent.andThen (Reader.splits_run isNumberChar)) r
  rwa [show (exponent.andThen (Reader.run isNumberChar)) r = (w, y) from h] at this

theorem numberTail_head {r w y : Text} (h : numberTail r = (w, y)) :
    ∀ c ∈ w.head?, isNumberChar c = true := by
  obtain ⟨c, r', d, hc, hd, rfl⟩ := andThen_eq h
  intro k hk
  rcases c with _ | ⟨e, c⟩
  · exact (run_eq (p := isNumberChar) hd).1 k (List.mem_of_mem_head? hk)
  · obtain rfl : e = k := by simpa using hk
    cases r with
    | nil => simp [exponent] at hc
    | cons e' r =>
      rw [exponent_cons] at hc
      split at hc
      · rename_i he
        obtain ⟨⟨rfl, -⟩, -⟩ : (e' = e ∧ _) ∧ _ := by simpa using hc
        simp only [Bool.and_eq_true, Bool.or_eq_true, beq_iff_eq] at he
        rcases he.1 with rfl | rfl <;> rfl
      · simp at hc

theorem afterPoint_again {cs w x y : Text} (h : afterPoint cs = (w, y)) (hx : NumberEnds x) :
    afterPoint (w ++ x) = (w, x) := by
  rw [afterPoint, andThen_assoc] at h ⊢
  obtain ⟨a, r, t, ha, ht, rfl⟩ := andThen_eq h
  obtain ⟨hchars, hend, -⟩ := run_eq (p := Char.isDigit) ha
  rw [← numberTail_split ht] at hend
  have hdigit : Ends Char.isDigit x := (ends_isDigit_iff x).2 (startsWithDigit_of_ends hx.1)
  exact andThen_again (Ends.run hchars (hend.of_append hdigit)) (numberTail_again ht hx)

theorem fraction_rest {r b u : Text} (h : fraction r = (b, u)) (hr : Ends Char.isDigit r) :
    Ends Char.isDigit u ∧ ∀ z, Ends Char.isDigit z → Ends Char.isDigit (b ++ z) := by
  unfold fraction at h
  split at h
  · rename_i rest
    split at h
    · rcases hds : digits rest with ⟨ds, v⟩
      rw [hds] at h
      obtain ⟨rfl, rfl⟩ := Prod.mk.inj h
      exact ⟨(run_eq (p := Char.isDigit) hds).2.1, fun z _ => rfl⟩
    · obtain ⟨rfl, rfl⟩ := Prod.mk.inj h
      exact ⟨hr, fun z hz => hz⟩
  · obtain ⟨rfl, rfl⟩ := Prod.mk.inj h
    exact ⟨hr, fun z hz => hz⟩

theorem afterDigit_again {cs w x y : Text} (h : afterDigit cs = (w, y)) (hx : NumberEnds x) :
    afterDigit (w ++ x) = (w, x) := by
  rw [afterDigit, andThen_assoc, andThen_assoc] at h ⊢
  obtain ⟨a, r, u, ha, hu, rfl⟩ := andThen_eq h
  obtain ⟨b, r', t, hb, ht, rfl⟩ := andThen_eq hu
  obtain ⟨hchars, hend, -⟩ := run_eq (p := Char.isDigit) ha
  obtain ⟨hrest, hkeep⟩ := fraction_rest hb hend
  rw [← numberTail_split ht] at hrest
  have hdigit : Ends Char.isDigit x := (ends_isDigit_iff x).2 (startsWithDigit_of_ends hx.1)
  have hz : Ends Char.isDigit (t ++ x) := hrest.of_append hdigit
  have hdot : ∀ y, t ++ x = '.' :: y → startsWithDigit y = false := by
    intro y hy
    cases t with
    | nil => exact hx.2.1 y hy
    | cons k t =>
      have hk := numberTail_head ht k rfl
      obtain ⟨rfl, -⟩ : k = '.' ∧ _ := by simpa using hy
      exact absurd hk (by decide)
  have hmid : (fraction.andThen numberTail) (b ++ t ++ x) = (b ++ t, x) :=
    andThen_again (fraction_again hb hz fun _ => hdot) (numberTail_again ht hx)
  exact andThen_again (Ends.run hchars (by simpa using hkeep _ hz)) hmid

end Scan

namespace Quoted

theorem close?_ne_nil {quote : Char} {escapes : Bool} {t body after : Text}
    (h : close? quote escapes t = some (body, after)) : body ≠ [] := by
  rintro rfl
  unfold close? at h
  split at h
  · simp at h
  · split at h <;> simp at h
  · split at h
    · simp [Option.map_eq_some_iff] at h
    · split at h
      · simp [Option.map_eq_some_iff] at h
      · split at h
        · simp [Option.map_eq_some_iff] at h
        · simp at h

theorem close?_quote {quote : Char} {escapes : Bool} {c : Char} {x : Text}
    (hc : (escapes && c == '\\') = false) (hq : c = quote) (hx : x.head? ≠ some quote) :
    close? quote escapes (c :: x) = some ([c], x) := by
  subst hq
  cases x with
  | nil => simp [close?, hc]
  | cons d x =>
    have hd : (d == c) = false := by simpa using hx
    simp [close?, hc, hd]

/-- A quotation ends at the same place before any text that does not double its quote. -/
theorem close?_again {quote : Char} {escapes : Bool} {t body after : Text}
    (h : close? quote escapes t = some (body, after)) {x : Text} (hx : x.head? ≠ some quote) :
    close? quote escapes (body ++ x) = some (body, x) := by
  fun_induction close? quote escapes t generalizing body with
  | case1 => simp at h
  | case2 => simp at h
  | case3 c hc =>
    simp only [Bool.or_eq_true, not_or, Bool.not_eq_true, bne_eq_false_iff_eq] at hc
    obtain ⟨rfl, -⟩ : [c] = body ∧ _ := by simpa using h
    exact close?_quote hc.1 hc.2 hx
  | case4 c d rest hc ih =>
    obtain ⟨⟨b, a⟩, hb, he⟩ := Option.map_eq_some_iff.1 h
    cases he
    simp [close?, hc, ih hb]
  | case5 c d rest hc hq ih =>
    obtain ⟨⟨b, a⟩, hb, he⟩ := Option.map_eq_some_iff.1 h
    cases he
    obtain ⟨e, b, rfl⟩ := List.exists_cons_of_ne_nil (close?_ne_nil hb)
    have := ih hb
    simp_all [close?]
  | case6 c d rest hc hq hd ih =>
    obtain ⟨⟨b, a⟩, hb, he⟩ := Option.map_eq_some_iff.1 h
    cases he
    have := ih hb
    simp_all [close?]
  | case7 c d rest hc hq hd =>
    obtain ⟨rfl, -⟩ : [c] = body ∧ _ := by simpa using h
    exact close?_quote (by simpa using hc) (by simpa using hq) hx

/-- The first occurrence of a text stays the first one, whatever follows it. -/
theorem around?_again {d t body after : Text} (hd : d ≠ []) (h : around? d t = some (body, after))
    (x : Text) : around? d (body ++ d ++ x) = some (body, x) := by
  fun_induction around? d t generalizing body after with
  | case1 => simp_all
  | case2 => simp at h
  | case3 c rest hp =>
    obtain ⟨rfl, -⟩ : [] = body ∧ _ := by simpa using h
    obtain ⟨e, d, rfl⟩ := List.exists_cons_of_ne_nil hd
    have hself : (e :: d).isPrefixOf (e :: (d ++ x)) = true :=
      List.isPrefixOf_iff_prefix.2 (List.prefix_append (e :: d) x)
    simp only [List.nil_append, List.cons_append, around?, hself, if_true]
    simp
  | case4 c rest hp ih =>
    obtain ⟨⟨b, a⟩, hb, he⟩ := Option.map_eq_some_iff.1 h
    cases he
    have hrest := around?_append hb
    have hnot : d.isPrefixOf (c :: (b ++ d ++ x)) = false := by
      by_contra hn
      have hpre := List.isPrefixOf_iff_prefix.1 (by simpa using hn : d.isPrefixOf _ = true)
      have hshort : d <+: c :: (b ++ d) :=
        List.prefix_of_prefix_length_le hpre (by simp) (by simp; omega)
      exact hp (List.isPrefixOf_iff_prefix.2 (by
        rw [← hrest]
        exact hshort.trans (by simp)))
    have := ih hb
    simp only [List.cons_append, around?, hnot, this]
    simp

end Quoted

end SqlLayout

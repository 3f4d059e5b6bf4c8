import Mathlib.Combinatorics.Enumerative.DyckWord
import SqlLayout.Proofs.Failing

/-! Brackets and their partners. Counting the depth in one pass accepts the tokens whose brackets
form a Dyck word, and from any opening bracket on it stops at the one that closes it.
-/

set_option autoImplicit false

namespace SqlLayout

def Token.step : Token → Option DyckStep
  | .openParen => some .U
  | .closeParen => some .D
  | _ => none

def IsDyck (ts : List Token) : Prop := ∃ w : DyckWord, w.toList = ts.filterMap Token.step

theorem netDepth_eq_count (ts : List Token) :
    netDepth ts = (ts.count .openParen : Int) - ts.count .closeParen := by
  induction ts with
  | nil => rfl
  | cons t ts ih =>
    rw [netDepth_cons, ih]
    cases t <;> simp [Token.turn] <;> omega

theorem netDepth_eq_steps (ts : List Token) : netDepth ts =
    ((ts.filterMap Token.step).count .U : Int) - (ts.filterMap Token.step).count .D := by
  induction ts with
  | nil => rfl
  | cons t ts ih =>
    rw [netDepth_cons, ih]
    cases t <;> simp [List.filterMap_cons, Token.turn, Token.step] <;> omega

theorem isDyck_iff (ts : List Token) : IsDyck ts ↔ Balanced ts := by
  constructor
  · rintro ⟨w, hw⟩
    refine ⟨fun p hp => ?_, ?_⟩
    · have hcount := w.count_D_le_count_U (p.filterMap Token.step).length
      rw [hw, ← List.prefix_iff_eq_take.1 (hp.filterMap Token.step)] at hcount
      rw [netDepth_eq_steps]
      omega
    · have hcount := w.count_U_eq_count_D
      rw [hw] at hcount
      rw [netDepth_eq_steps]
      omega
  · intro h
    refine ⟨⟨ts.filterMap Token.step, ?_, fun i => ?_⟩, rfl⟩
    · have hcount := netDepth_eq_steps ts
      rw [h.2] at hcount
      omega
    · obtain ⟨p, hp, heq⟩ := List.prefix_filterMap_iff.1 (List.take_prefix i (ts.filterMap Token.step))
      have hcount := netDepth_eq_steps p
      have hpos := h.1 p hp
      rw [heq]
      omega

/-- The brackets pair up when `d` of them are open before the tokens: none is closed that is not
open, and none is left open. -/
def Closing (d : Int) (ts : List Token) : Prop :=
  (∀ p, p <+: ts → 0 ≤ d + netDepth p) ∧ d + netDepth ts = 0

theorem closing_zero (ts : List Token) : Closing 0 ts ↔ Balanced ts := by
  simp [Closing, Balanced]

theorem closing_nil (d : Int) : Closing d [] ↔ d = 0 := by
  constructor
  · intro h
    simpa [netDepth] using h.2
  · rintro rfl
    exact ⟨fun p hp => by simp [List.prefix_nil.1 hp, netDepth], rfl⟩

theorem closing_cons (d : Int) (t : Token) (ts : List Token) :
    Closing d (t :: ts) ↔ 0 ≤ d ∧ Closing (d + t.turn) ts := by
  constructor
  · rintro ⟨hp, hd⟩
    refine ⟨by simpa [netDepth] using hp [] List.nil_prefix, fun p hpre => ?_, ?_⟩
    · have := hp (t :: p) (List.cons_prefix_cons.2 ⟨rfl, hpre⟩)
      rw [netDepth_cons] at this
      omega
    · rw [netDepth_cons] at hd
      omega
  · rintro ⟨hpos, hp, hd⟩
    refine ⟨fun p hpre => ?_, ?_⟩
    · rcases List.prefix_cons_iff.1 hpre with rfl | ⟨q, rfl, hq⟩
      · simpa [netDepth] using hpos
      · have := hp q hq
        rw [netDepth_cons]
        omega
    · rw [netDepth_cons]
      omega

theorem Closing.nonneg {d : Int} {ts : List Token} (h : Closing d ts) : 0 ≤ d := by
  simpa [netDepth] using h.1 [] List.nil_prefix

theorem checkBalance_iff_closing (ts : List Token) :
    checkBalance 0 ts = .ok () ↔ Closing 0 ts := by
  rw [checkBalance_ok_iff, closing_zero]

theorem group_cons (d : Nat) (t : Token) (ts : List Token) : group d (t :: ts) =
    if d + t.turn < 0 then .ok ([], ts)
    else (group (d + t.turn).toNat ts).map fun g => (t :: g.1, g.2) := by
  cases t with
  | openParen =>
    rw [group, if_neg (by simp only [Token.turn]; omega)]
    rfl
  | closeParen =>
    cases d with
    | zero => rfl
    | succ d =>
      have hstep : ((d + 1 : Nat) + Token.closeParen.turn).toNat = d := by
        simp only [Token.turn]
        omega
      rw [group, if_neg (by simp only [Token.turn]; omega), hstep]
  | _ =>
    rw [group, if_neg (by simp only [Token.turn]; omega)]
    · simp [Token.turn]
    all_goals simp

theorem turn_neg {d : Nat} {t : Token} (h : d + t.turn < 0) : d = 0 ∧ t = .closeParen := by
  cases t with
  | closeParen =>
    simp only [Token.turn] at h
    exact ⟨by omega, rfl⟩
  | _ =>
    simp only [Token.turn] at h
    omega

/-- The scan finds the bracket in front of which everything is closed that was opened. -/
theorem group_eq_ok_iff {d : Nat} {ts inner after : List Token} :
    group d ts = .ok (inner, after) ↔ ts = inner ++ .closeParen :: after ∧ Closing d inner := by
  induction ts generalizing d inner with
  | nil => simp [group]
  | cons t ts ih =>
    rw [group_cons]
    split
    · -- the scan ends here, and inside the depth never falls so low
      rename_i hneg
      obtain ⟨rfl, rfl⟩ := turn_neg hneg
      cases inner with
      | nil => simp [closing_nil, eq_comm]
      | cons u inner =>
        simp only [Except.ok.injEq, Prod.mk.injEq, List.nil_eq, reduceCtorEq, false_and,
          false_iff, not_and, closing_cons]
        rintro heq - hc
        obtain ⟨rfl, -⟩ := List.cons.inj heq
        exact absurd hc.nonneg (by simp [Token.turn])
    · rename_i hpos
      have hd : ((d + t.turn).toNat : Int) = d + t.turn := by omega
      cases inner with
      | nil =>
        constructor
        · intro h
          obtain ⟨g, -, he⟩ := map_eq_ok h
          cases he
        · rintro ⟨heq, hc⟩
          obtain ⟨rfl, -⟩ := List.cons.inj heq
          have hzero := (closing_nil _).1 hc
          exact absurd (by simp only [Token.turn]; omega) hpos
      | cons u inner =>
        rw [List.cons_append, List.cons.injEq, closing_cons]
        constructor
        · intro h
          obtain ⟨g, hg, he⟩ := map_eq_ok h
          cases he
          obtain ⟨hts, hc⟩ := ih.1 hg
          exact ⟨⟨rfl, hts⟩, by omega, hd ▸ hc⟩
        · rintro ⟨⟨rfl, hts⟩, -, hc⟩
          rw [← hd] at hc
          rw [ih.2 ⟨hts, hc⟩]
          rfl

/-- A scan that finds no end reports the brackets left open: its own and those behind it. -/
theorem eq_of_group_error {d : Nat} {ts : List Token} {e : FormatError}
    (h : group d ts = .error e) : e = .unbalancedBracket (d + 1 + netDepth ts) := by
  induction ts generalizing d with
  | nil =>
    cases h
    simp [netDepth]
  | cons t ts ih =>
    rw [group_cons] at h
    split at h
    · cases h
    · rename_i hpos
      cases hg : group (d + t.turn).toNat ts with
      | ok g =>
        rw [hg] at h
        cases h
      | error e' =>
        rw [hg] at h
        cases h
        rw [ih hg, netDepth_cons, Int.toNat_of_nonneg (by omega)]
        congr 1
        omega

/-- The bracket that opens at `i` closes at `j`: the brackets between the two form a Dyck word. -/
structure Partner (ts : List Token) (i j : Nat) : Prop where
  opens : ts[i]? = some .openParen
  closes : ts[j]? = some .closeParen
  lt : i < j
  between : IsDyck ((ts.take j).drop (i + 1))

theorem drop_eq_cons {ts : List Token} {i : Nat} {t : Token} (h : ts[i]? = some t) :
    ts.drop i = t :: ts.drop (i + 1) := by
  obtain ⟨hi, rfl⟩ := List.getElem?_eq_some_iff.1 h
  exact List.drop_eq_getElem_cons hi

theorem Partner.drop_eq {ts : List Token} {i j : Nat} (h : Partner ts i j) :
    ts.drop (i + 1) = (ts.take j).drop (i + 1) ++ .closeParen :: ts.drop (j + 1) := by
  have hlt := h.lt
  have hj : ts.drop j = (ts.drop (i + 1)).drop (j - (i + 1)) := by
    rw [List.drop_drop]
    congr 1
    omega
  rw [← drop_eq_cons h.closes, hj, List.drop_take, List.take_append_drop]

theorem Partner.take_eq {ts : List Token} {i j : Nat} (h : Partner ts i j) :
    ts.take (j + 1) = ts.take i ++ .openParen :: (ts.take j).drop (i + 1) ++ [.closeParen] := by
  have hwhole : ts.take (j + 1) ++ ts.drop (j + 1) =
      ts.take i ++ .openParen :: (ts.take j).drop (i + 1) ++ [.closeParen] ++ ts.drop (j + 1) := by
    calc ts.take (j + 1) ++ ts.drop (j + 1) = ts.take i ++ ts.drop i := by
          rw [List.take_append_drop, List.take_append_drop]
      _ = ts.take i ++ .openParen ::
          ((ts.take j).drop (i + 1) ++ .closeParen :: ts.drop (j + 1)) := by
        rw [drop_eq_cons h.opens, h.drop_eq]
      _ = _ := by simp
  exact List.append_cancel_right hwhole

/-- Behind an opening bracket the scan finds its partner, and nothing where there is none. -/
theorem group_iff_partner {ts inner after : List Token} {i : Nat}
    (hi : ts[i]? = some .openParen) : group 0 (ts.drop (i + 1)) = .ok (inner, after) ↔
      ∃ j, Partner ts i j ∧ inner = (ts.take j).drop (i + 1) ∧ after = ts.drop (j + 1) := by
  rw [group_eq_ok_iff, Nat.cast_zero, closing_zero, ← isDyck_iff]
  constructor
  · rintro ⟨hts, hdyck⟩
    have hinner : (ts.take (i + 1 + inner.length)).drop (i + 1) = inner := by
      rw [List.drop_take, hts]
      simp
    have hclose : ts[i + 1 + inner.length]? = some .closeParen := by
      rw [← List.getElem?_drop, hts]
      simp
    refine ⟨i + 1 + inner.length, ⟨hi, hclose, by omega, by rwa [hinner]⟩, hinner.symm, ?_⟩
    rw [Nat.add_assoc, ← List.drop_drop, hts]
    simp
  · rintro ⟨j, h, rfl, rfl⟩
    exact ⟨h.drop_eq, h.between⟩

theorem Partner.unique {ts : List Token} {i j k : Nat} (hj : Partner ts i j)
    (hk : Partner ts i k) : j = k := by
  have hgroup := (group_iff_partner hj.opens).2 ⟨j, hj, rfl, rfl⟩
  rw [(group_iff_partner hk.opens).2 ⟨k, hk, rfl, rfl⟩, Except.ok.injEq, Prod.mk.injEq] at hgroup
  have hlength := congrArg List.length hgroup.2
  have hjlt := (List.getElem?_eq_some_iff.1 hj.closes).1
  have hklt := (List.getElem?_eq_some_iff.1 hk.closes).1
  simp only [List.length_drop] at hlength
  omega

/-- The tokens themselves, or what the scan takes from a bracket in them, to any depth. -/
inductive InGroups (ts : List Token) : List Token → Prop where
  | self : InGroups ts ts
  | group {us inner after : List Token} {i : Nat} (h : InGroups ts us)
      (hi : us[i]? = some .openParen) (hg : group 0 (us.drop (i + 1)) = .ok (inner, after)) :
      InGroups ts inner

theorem checkBalance_iff_dyck (ts : List Token) : checkBalance 0 ts = .ok () ↔ IsDyck ts := by
  rw [checkBalance_ok_iff, isDyck_iff]

theorem checkBalance_inGroups {ts us : List Token} (h : checkBalance 0 ts = .ok ())
    (hu : InGroups ts us) : checkBalance 0 us = .ok () := by
  cases hu with
  | self => exact h
  | group _ hi hg =>
    obtain ⟨j, hj, rfl, -⟩ := (group_iff_partner hi).1 hg
    exact (checkBalance_iff_dyck _).2 hj.between

/-- What becomes of the bracket that opens at `i`. -/
structure Taken (ts : List Token) (i : Nat) : Prop where
  /-- The scan takes what stands before the partner, and goes on behind it. -/
  found : ∀ inner after, group 0 (ts.drop (i + 1)) = .ok (inner, after) ↔
    ∃ j, Partner ts i j ∧ inner = (ts.take j).drop (i + 1) ∧ after = ts.drop (j + 1)
  sole : ∀ j k, Partner ts i j → Partner ts i k → j = k
  sound : ∀ j, Partner ts i j → checkBalance 0 ((ts.take j).drop (i + 1)) = .ok ()
  /-- Without a partner it takes nothing, and reports the number of brackets that stay open. -/
  untaken : (¬∃ j, Partner ts i j) → group 0 (ts.drop (i + 1)) =
    .error (.unbalancedBracket (1 + ((ts.drop (i + 1)).count .openParen -
      (ts.drop (i + 1)).count .closeParen)))
  /-- The walk that has come to `i` goes on behind the partner, with the inside of the bracket. -/
  passed : ∀ (nested : Arrange.Nested) (p next : Place) (b : Bracket) (j : Nat),
    p.action (ts.take i).reverse .openParen (ts.drop (i + 1)) = .openBracket b next →
    Partner ts i j → Arrange.run nested p (ts.take i).reverse (ts.drop i) =
      (Arrange.run nested next (ts.take (j + 1)).reverse (ts.drop (j + 1))).map
        (Arrange.bracket nested b p.indent (ts.take i).reverse ((ts.take j).drop (i + 1)) ++ ·)
  /-- Without a partner it ends there, with what the scan reports. -/
  refused : ∀ (nested : Arrange.Nested) (p next : Place) (b : Bracket),
    p.action (ts.take i).reverse .openParen (ts.drop (i + 1)) = .openBracket b next →
    (¬∃ j, Partner ts i j) → Arrange.run nested p (ts.take i).reverse (ts.drop i) =
      .error (.unbalancedBracket (1 + ((ts.drop (i + 1)).count .openParen -
        (ts.drop (i + 1)).count .closeParen)))

theorem group_eq_error {ts : List Token} {i : Nat} (hi : ts[i]? = some .openParen)
    (h : ¬∃ j, Partner ts i j) : group 0 (ts.drop (i + 1)) =
      .error (.unbalancedBracket (1 + ((ts.drop (i + 1)).count .openParen -
        (ts.drop (i + 1)).count .closeParen))) := by
  cases hg : group 0 (ts.drop (i + 1)) with
  | ok g =>
    obtain ⟨j, hj, -⟩ := (group_iff_partner hi).1 hg
    exact absurd ⟨j, hj⟩ h
  | error e =>
    rw [eq_of_group_error hg, netDepth_eq_count]
    rfl

theorem taken {ts : List Token} {i : Nat} (hi : ts[i]? = some .openParen) : Taken ts i where
  found _ _ := group_iff_partner hi
  sole _ _ hj hk := hj.unique hk
  sound _ h := (checkBalance_iff_dyck _).2 h.between
  untaken h := group_eq_error hi h
  passed nested p next b j ha h := by
    have hg := (group_iff_partner hi).2 ⟨j, h, rfl, rfl⟩
    rw [drop_eq_cons hi, Arrange.run_openBracket ha hg, h.take_eq]
    simp
  refused nested p next b ha h := by
    rw [drop_eq_cons hi, Arrange.run_unclosed ha (group_eq_error hi h)]

/-- The check for balance accepts exactly the tokens whose brackets form a Dyck word. Wherever a
bracket opens, it is taken up to its partner, and refused without one. In balanced tokens, and in
all that is taken from them, every bracket is taken. -/
theorem brackets_paired :
    (∀ ts, checkBalance 0 ts = .ok () ↔ IsDyck ts) ∧
    (∀ ts (i : Nat), ts[i]? = some .openParen → Taken ts i) ∧
    ∀ ts us, checkBalance 0 ts = .ok () → InGroups ts us →
      checkBalance 0 us = .ok () ∧
        ∀ i : Nat, us[i]? = some .openParen → ∃ g, group 0 (us.drop (i + 1)) = .ok g := by
  refine ⟨checkBalance_iff_dyck, fun ts i hi => taken hi, fun ts us h hu => ?_⟩
  have hus := checkBalance_inGroups h hu
  refine ⟨hus, fun i hi => closes_of_checkBalance hus _ ?_⟩
  rw [← drop_eq_cons hi]
  exact List.drop_suffix i us

def unclosedTokens : List Token :=
  [.openParen, .identifier ['a'], .openParen, .identifier ['b'], .closeParen, .identifier ['c']]

/-- In `(a (b) c` the inner bracket has its partner and is taken; the outer one has none, and the walk
ends with one bracket open. -/
theorem brackets_paired_unclosed :
    (Partner unclosedTokens 2 4 ∧
      group 0 (unclosedTokens.drop 3) = .ok ([.identifier ['b']], [.identifier ['c']])) ∧
    (¬∃ j, Partner unclosedTokens 0 j) ∧
    ∀ nested, Arrange.run nested .inline [] unclosedTokens = .error (.unbalancedBracket 1) := by
  have hinner : Partner unclosedTokens 2 4 := ⟨rfl, rfl, by decide, 0, rfl⟩
  have htaken := (brackets_paired.2.1 unclosedTokens 2 rfl).found
  have houter := brackets_paired.2.1 unclosedTokens 0 rfl
  have hnone : ¬∃ j, Partner unclosedTokens 0 j := by
    rintro ⟨j, hj⟩
    have hg : group 0 (unclosedTokens.drop 1) = .error (.unbalancedBracket 1) := rfl
    rw [(houter.found _ _).2 ⟨j, hj, rfl, rfl⟩] at hg
    cases hg
  refine ⟨⟨hinner, (htaken _ _).2 ⟨4, hinner, rfl, rfl⟩⟩, hnone, fun nested => ?_⟩
  exact houter.refused nested .inline .inline .expression rfl hnone

end SqlLayout

import SqlLayout.Proofs.Brackets

/-! Dividing tokens at the commas outside brackets. Where brackets pair up there is one way to write
them as balanced parts without such a comma, and it is the one that is found.
-/

set_option autoImplicit false

namespace SqlLayout

def commasAt (d : Int) (ts : List Token) : Nat :=
  (List.range ts.length).countP fun i => ts[i]? = some .comma ∧ netDepth (ts.take i) = d

theorem commasAt_cons (d : Int) (t : Token) (ts : List Token) : commasAt d (t :: ts) =
    (if t = .comma ∧ d = 0 then 1 else 0) + commasAt (d - t.turn) ts := by
  have hlater : ∀ i, ((t :: ts)[i + 1]? = some .comma ∧ netDepth ((t :: ts).take (i + 1)) = d) ↔
      (ts[i]? = some .comma ∧ netDepth (ts.take i) = d - t.turn) := by
    intro i
    rw [List.getElem?_cons_succ, List.take_succ_cons, netDepth_cons, eq_sub_iff_add_eq']
  rw [commasAt, List.length_cons, List.range_succ_eq_map, List.countP_cons, List.countP_map,
    Nat.add_comm]
  congr 1
  · simp [netDepth, @eq_comm Int 0 d]
  · refine List.countP_congr fun i _ => ?_
    rw [Function.comp_apply, decide_eq_true_iff, decide_eq_true_iff]
    exact hlater i

theorem splitFrom_cons (d : Nat) (t : Token) (ts : List Token) : splitFrom d (t :: ts) =
    if t = .comma ∧ d = 0 then ([], (splitFrom 0 ts).1 :: (splitFrom 0 ts).2)
    else (t :: (splitFrom (d + t.turn).toNat ts).1, (splitFrom (d + t.turn).toNat ts).2) := by
  cases t with
  | comma => cases d <;> simp [splitFrom, Token.turn]
  | openParen =>
    rw [if_neg (by simp)]
    rfl
  | closeParen =>
    have hd : ((d : Int) + Token.closeParen.turn).toNat = d - 1 := by
      simp only [Token.turn]
      omega
    rw [if_neg (by simp), hd]
    rfl
  | _ =>
    rw [splitFrom, if_neg (by simp)]
    · simp [Token.turn]
    all_goals simp

/-- A part in which all brackets are closed and that no comma divides is passed as a whole. -/
theorem splitFrom_append {d : Nat} {part : List Token} (hc : Closing d part)
    (hu : commasAt (-d) part = 0) (rest : List Token) :
    splitFrom d (part ++ rest) = (part ++ (splitFrom 0 rest).1, (splitFrom 0 rest).2) := by
  -- both the depth and the commas are counted from where the part has come to
  induction part generalizing d with
  | nil =>
    obtain rfl : d = 0 := by simpa [closing_nil] using hc
    rfl
  | cons t part ih =>
    rw [closing_cons] at hc
    rw [commasAt_cons] at hu
    have hd : ((d + t.turn).toNat : Int) = d + t.turn := Int.toNat_of_nonneg hc.2.nonneg
    have ht : ¬(t = .comma ∧ d = 0) := by
      rintro ⟨rfl, rfl⟩
      simp at hu
    have hdepth : -((d + t.turn).toNat : Int) = -d - t.turn := by omega
    have hrest := ih (d := (d + t.turn).toNat) (hd ▸ hc.2) (by rw [hdepth]; omega)
    rw [List.cons_append, splitFrom_cons, if_neg ht, hrest]
    rfl

/-- The tokens as balanced parts that no comma divides, with single commas between them; nothing
has no parts. -/
structure CommaParts (ts : List Token) (parts : List (List Token)) : Prop where
  joined : [Token.comma].intercalate parts = ts
  sound : ∀ part ∈ parts, checkBalance 0 part = .ok ()
  undivided : ∀ part ∈ parts, commasAt 0 part = 0
  empty : ts = [] → parts = []

theorem splitFrom_intercalate {part : List Token} {parts : List (List Token)}
    (hs : ∀ p ∈ part :: parts, checkBalance 0 p = .ok ())
    (hu : ∀ p ∈ part :: parts, commasAt 0 p = 0) :
    splitFrom 0 ([Token.comma].intercalate (part :: parts)) = (part, parts) := by
  have hclosing : Closing (0 : Nat) part :=
    (checkBalance_iff_closing part).1 (hs part (by simp))
  induction parts generalizing part with
  | nil =>
    have := splitFrom_append hclosing (hu part (by simp)) []
    simpa [splitFrom] using this
  | cons q parts ih =>
    have hq := ih (fun p hp => hs p (by simp [hp])) (fun p hp => hu p (by simp [hp]))
      ((checkBalance_iff_closing q).1 (hs q (by simp)))
    rw [List.intercalate_cons_cons, List.append_assoc,
      splitFrom_append hclosing (hu part (by simp)), List.singleton_append, splitFrom_cons]
    simp [hq]

theorem CommaParts.eq_splitCommas {ts : List Token} {parts : List (List Token)}
    (h : CommaParts ts parts) : parts = splitCommas ts := by
  by_cases hts : ts = []
  · rw [h.empty hts, hts]
    rfl
  · cases parts with
    | nil => exact absurd h.joined.symm hts
    | cons part parts =>
      have hsplit := splitFrom_intercalate h.sound h.undivided
      rw [h.joined] at hsplit
      simp [splitCommas, hts, hsplit]

/-- What the division finds when `d` brackets are open: the first part closes them, the others are
balanced, no comma divides a part, and there is a part behind each comma that does. -/
theorem closing_splitFrom {d : Nat} {ts : List Token} (h : Closing d ts) :
    (Closing d (splitFrom d ts).1 ∧ commasAt (-d) (splitFrom d ts).1 = 0) ∧
    (∀ part ∈ (splitFrom d ts).2, Closing 0 part ∧ commasAt 0 part = 0) ∧
    (splitFrom d ts).2.length = commasAt (-d) ts := by
  induction ts generalizing d with
  | nil => exact ⟨⟨h, rfl⟩, by simp [splitFrom], rfl⟩
  | cons t ts ih =>
    rw [closing_cons] at h
    rw [splitFrom_cons, commasAt_cons]
    split
    · rename_i hcomma
      obtain ⟨rfl, rfl⟩ := hcomma
      obtain ⟨hfirst, hparts, hlength⟩ := ih (d := 0) (by simpa [Token.turn] using h.2)
      have hbehind : (splitFrom 0 ts).2.length = commasAt 0 ts := by simpa using hlength
      refine ⟨⟨(closing_nil _).2 rfl, rfl⟩, ?_, ?_⟩
      · exact List.forall_mem_cons.2 ⟨by simpa using hfirst, hparts⟩
      · simp [Token.turn, hbehind, Nat.add_comm]
    · -- the token joins the first part, which is divided at the depth behind it
      rename_i hcomma
      have hd : ((d + t.turn).toNat : Int) = d + t.turn := Int.toNat_of_nonneg h.2.nonneg
      have hdepth : -((d + t.turn).toNat : Int) = -d - t.turn := by omega
      obtain ⟨⟨hclosing, hcount⟩, hparts, hlength⟩ := ih (d := (d + t.turn).toNat) (hd ▸ h.2)
      rw [hdepth] at hcount hlength
      have hnone : (if t = .comma ∧ -(d : Int) = 0 then 1 else 0) = 0 :=
        if_neg fun hc => hcomma ⟨hc.1, by omega⟩
      refine ⟨⟨(closing_cons ..).2 ⟨h.1, hd ▸ hclosing⟩, ?_⟩, hparts, ?_⟩
      · rw [commasAt_cons, hnone, hcount]
      · rw [hlength, hnone, Nat.zero_add]

theorem commaParts_splitCommas {ts : List Token} (h : checkBalance 0 ts = .ok ()) :
    CommaParts ts (splitCommas ts) ∧
      (splitCommas ts).length = if ts = [] then 0 else commasAt 0 ts + 1 := by
  obtain ⟨⟨hclosing, hcount⟩, hparts, hlength⟩ :=
    closing_splitFrom (d := 0) ((checkBalance_iff_closing ts).1 h)
  have hall : ∀ part ∈ splitCommas ts, Closing 0 part ∧ commasAt 0 part = 0 := by
    unfold splitCommas
    split
    · simp
    · exact List.forall_mem_cons.2 ⟨⟨hclosing, hcount⟩, hparts⟩
  refine ⟨⟨intercalate_splitCommas ts, fun part hp => ?_, fun part hp => (hall part hp).2, ?_⟩, ?_⟩
  · exact (checkBalance_iff_closing part).2 (hall part hp).1
  · rintro rfl
    rfl
  · by_cases hts : ts = []
    · simp [splitCommas, hts]
    · simpa [splitCommas, hts] using hlength

/-- Balanced tokens have one division into balanced parts at the commas outside brackets, with one
part more than there are such commas. Joined again, the parts are the tokens, balanced or not. -/
theorem splitCommas_divides :
    (∀ ts, checkBalance 0 ts = .ok () →
      (∀ parts, CommaParts ts parts ↔ parts = splitCommas ts) ∧
        (splitCommas ts).length = if ts = [] then 0 else commasAt 0 ts + 1) ∧
    ∀ ts, [Token.comma].intercalate (splitCommas ts) = ts := by
  refine ⟨fun ts h => ?_, intercalate_splitCommas⟩
  obtain ⟨hparts, hlength⟩ := commaParts_splitCommas h
  refine ⟨fun parts => ⟨CommaParts.eq_splitCommas, ?_⟩, hlength⟩
  rintro rfl
  exact hparts

theorem splitCommas_divides_ends :
    let part : List Token := [.identifier ['a'], .openParen, .identifier ['b'], .comma,
      .identifier ['c'], .closeParen]
    let ts := .comma :: part ++ [.comma]
    checkBalance 0 ts = .ok () ∧ commasAt 0 ts = 2 ∧
      (∀ parts, CommaParts ts parts ↔ parts = [[], part, []]) ∧ (splitCommas ts).length = 3 := by
  intro part ts
  have hts : checkBalance 0 ts = .ok () := rfl
  exact ⟨hts, rfl, (splitCommas_divides.1 ts hts).1, (splitCommas_divides.1 ts hts).2⟩

end SqlLayout

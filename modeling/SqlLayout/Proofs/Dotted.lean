import Mathlib.Data.List.Forall2
import SqlLayout.Format
import SqlLayout.Proofs.Reading

/-! Keywords directly behind a dot, and the tokens with such keywords made names. Where nothing listens
for the keyword there, both are divided into the same brackets, cases and elements, and each token is
read alike.
-/

set_option autoImplicit false

namespace SqlLayout

def Keyword.asName (k : Keyword) : Token := .identifier (k.text.map Char.toLower)

def Token.asName : Token → Token
  | .keyword k => if k ∈ Keyword.singleWords then k.asName else .keyword k
  | t => t

/-- The token before is a dot if `dotted`. Gaps are passed over. -/
def namesFrom (dotted : Bool) : List Token → List Token
  | [] => []
  | t :: ts =>
    (if dotted then t.asName else t) :: namesFrom (if t.isGap then dotted else t = .dot) ts

def names (ts : List Token) : List Token := namesFrom false ts

/-- A clause by the keywords that open it and by what ends it where no bracket is open in it: a token
that stands behind `last`. -/
structure Span where
  opens : Keyword → Bool
  ends (last : Option Token) (t : Token) : Bool

namespace Span

def condition : Span where
  opens k := k = .WHERE || k = .HAVING
  ends last t := last != some .dot && t.ends .condition

def head : Span where
  opens k := k = .CREATE
  ends last t :=
    t.breaksBefore || t = .semicolon || t = .openParen && !last.any Token.isDecode

/-- Behind these tokens, the last one first, the clause goes on, with `d` brackets open in it. -/
inductive Within (c : Span) : Nat → List Token → Prop where
  | opened {k : Keyword} {older : List Token} (hk : c.opens k = true) :
      c.Within 0 (.keyword k :: older)
  | openParen {d : Nat} {before : List Token} (h : c.Within d before)
      (hgoes : d = 0 → c.ends before.head? .openParen = false) :
      c.Within (d + 1) (.openParen :: before)
  | closeParen {d : Nat} {before : List Token} (h : c.Within d before) :
      c.Within (d - 1) (.closeParen :: before)
  | token {d : Nat} {before : List Token} {t : Token} (h : c.Within d before)
      (ht : t ≠ .openParen ∧ t ≠ .closeParen) (hgoes : d = 0 → c.ends before.head? t = false) :
      c.Within d (t :: before)
  /-- A `CASE` is passed as a whole. -/
  | caseEnd {d : Nat} {before ts inner after : List Token} (h : c.Within d before)
      (hc : caseEnd? 0 ts = some (inner, after)) :
      c.Within d (inner.reverse ++ .keyword .CASE :: before)

variable {c : Span} {d : Nat} {before : List Token}

theorem Within.exists_opens (h : c.Within d before) : ∃ k, c.opens k = true ∧ .keyword k ∈ before := by
  induction h with
  | opened hk => exact ⟨_, hk, by simp⟩
  | openParen _ _ ih | closeParen _ ih | token _ _ _ ih | caseEnd _ _ ih =>
    obtain ⟨k, hk, hmem⟩ := ih
    exact ⟨k, hk, by simp [hmem]⟩

theorem Within.append (h : c.Within d before) (y : List Token) : c.Within d (before ++ y) := by
  have hhead : ∀ {d : Nat} {x : List Token}, c.Within d x → (x ++ y).head? = x.head? := fun hx => by
    obtain ⟨k, -, hmem⟩ := hx.exists_opens
    exact List.head?_append_of_ne_nil _ (List.ne_nil_of_mem hmem)
  induction h with
  | opened hk => exact .opened hk
  | openParen h hgoes ih => exact .openParen ih (hhead h ▸ hgoes)
  | closeParen _ ih => exact .closeParen ih
  | token h ht hgoes ih => exact .token ih ht (hhead h ▸ hgoes)
  | caseEnd _ hc ih =>
    rw [List.append_assoc]
    exact .caseEnd ih hc

theorem Within.group {e : Nat} {ts inner after : List Token} (h : c.Within (d + 1 + e) before)
    (hg : SqlLayout.group e ts = .ok (inner, after)) :
    c.Within d (.closeParen :: (inner.reverse ++ before)) := by
  -- with a bracket open nothing ends it
  fun_induction SqlLayout.group e ts generalizing inner before with
  | case1 => cases hg
  | case2 =>
    cases hg
    exact .closeParen h
  | case3 ts e ih =>
    obtain ⟨⟨i, a⟩, hrest, heq⟩ := map_eq_ok hg
    cases heq
    simpa using ih (.closeParen h) hrest
  | case4 ts e ih =>
    obtain ⟨⟨i, a⟩, hrest, heq⟩ := map_eq_ok hg
    cases heq
    have hopen : c.Within (d + 1 + e + 1) (.openParen :: before) :=
      .openParen h fun hzero => absurd hzero (by omega)
    simpa using ih hopen hrest
  | case5 t ts e hclose hclose' hopen ih =>
    obtain ⟨⟨i, a⟩, hrest, heq⟩ := map_eq_ok hg
    cases heq
    have ht : t ≠ .openParen ∧ t ≠ .closeParen := by
      refine ⟨hopen, ?_⟩
      rintro rfl
      cases e <;> simp_all
    simpa using ih (.token h ht fun hzero => absurd hzero (by omega)) hrest

/-- What the last token does to the clause, if it is not that of a `CASE`. -/
theorem Within.of_cons {t : Token} (h : c.Within d (t :: before))
    (hcase : .keyword .CASE ∉ t :: before) : (∃ k, t = .keyword k ∧ c.opens k = true) ∨
      ∃ e, c.Within e before ∧ (e = 0 → t = .closeParen ∨ c.ends before.head? t = false) := by
  generalize hx : t :: before = x at h
  cases h with
  | opened hk => exact .inl ⟨_, (List.cons.inj hx).1, hk⟩
  | openParen h hgoes =>
    obtain ⟨rfl, rfl⟩ := List.cons.inj hx
    exact .inr ⟨_, h, fun hzero => .inr (hgoes hzero)⟩
  | closeParen h =>
    obtain ⟨rfl, rfl⟩ := List.cons.inj hx
    exact .inr ⟨_, h, fun _ => .inl rfl⟩
  | token h _ hgoes =>
    obtain ⟨rfl, rfl⟩ := List.cons.inj hx
    exact .inr ⟨_, h, fun hzero => .inr (hgoes hzero)⟩
  | caseEnd => exact absurd (hx ▸ by simp) hcase

theorem Within.eq_zero (h : c.Within d before) (hopen : .openParen ∉ before) : d = 0 := by
  induction h with
  | opened => rfl
  | openParen => simp at hopen
  | closeParen _ ih => rw [ih (by simp_all)]
  | token _ _ _ ih => exact ih (by simp_all)
  | caseEnd _ _ ih => exact ih (by simp_all)

/-- Without brackets and `CASE`s the clause is over behind a token that ends it. -/
theorem not_within {newer older : List Token} {t : Token}
    (hplain : ∀ u ∈ newer ++ t :: older, u ≠ .openParen ∧ u ≠ .closeParen ∧ u ≠ .keyword .CASE)
    (hopens : ∀ k, .keyword k ∈ newer ++ [t] → c.opens k = false)
    (ht : c.ends older.head? t = true) : ¬c.Within d (newer ++ t :: older) := by
  have hcase : .keyword .CASE ∉ newer ++ t :: older := fun h => (hplain _ h).2.2 rfl
  induction newer generalizing d with
  | nil =>
    intro h
    rcases h.of_cons hcase with ⟨k, rfl, hk⟩ | ⟨e, he, hgoes⟩
    · simp [hopens k] at hk
    · have hzero := he.eq_zero fun hmem => (hplain .openParen (by simp [hmem])).1 rfl
      rcases hgoes hzero with rfl | hend
      · exact (hplain .closeParen (by simp)).2.1 rfl
      · simp [hend] at ht
  | cons u newer ih =>
    intro h
    rcases h.of_cons hcase with ⟨k, rfl, hk⟩ | ⟨e, he, -⟩
    · simp [hopens k] at hk
    · exact ih (fun v hv => hplain v (List.mem_cons_of_mem u hv))
        (fun k hk => hopens k (List.mem_cons_of_mem u hk)) (fun hc => hcase (List.mem_cons_of_mem u hc)) he

end Span

/-- Behind these tokens, the last one first, a `CASE` waits for its `END`, with `d` others in it. -/
inductive OpenCase : Nat → List Token → Prop where
  | here {older : List Token} : OpenCase 0 (.keyword .CASE :: older)
  | deeper {d : Nat} {before : List Token} (h : OpenCase d before) :
      OpenCase (d + 1) (.keyword .CASE :: before)
  | closed {d : Nat} {before : List Token} (h : OpenCase (d + 1) before) :
      OpenCase d (.keyword .END :: before)
  | other {d : Nat} {before : List Token} {t : Token} (h : OpenCase d before)
      (ht : t ≠ .keyword .CASE ∧ t ≠ .keyword .END) : OpenCase d (t :: before)

theorem OpenCase.append {d : Nat} {x : List Token} (h : OpenCase d x) (y : List Token) :
    OpenCase d (x ++ y) := by
  induction h with
  | here => exact .here
  | deeper _ ih => exact .deeper ih
  | closed _ ih => exact .closed ih
  | other _ ht ih => exact .other ih ht

theorem OpenCase.mem {d : Nat} {x : List Token} (h : OpenCase d x) : .keyword .CASE ∈ x := by
  induction h with
  | here => simp
  | deeper _ ih | closed _ ih | other _ _ ih => exact List.mem_cons_of_mem _ ih

/-- Nothing listens for the keyword `k` that stands behind a dot, with the tokens `before`, the last one
first, and `after` around it. -/
structure Unheard (before : List Token) (k : Keyword) (after : List Token) : Prop where
  /-- A bracket that follows is that of a function. -/
  call : after.head? = some .openParen → k.isCallable = true
  /-- No `CASE` is open whose `END` is looked for. -/
  ofCase : ∀ d, OpenCase d before → k ≠ .CASE ∧ k ≠ .END
  /-- In a condition `AND` and `OR` start lines where no bracket is open, and `BETWEEN` takes an `AND`
  for its own anywhere. -/
  condition : ∀ d, Span.condition.Within d before →
    k ≠ .BETWEEN ∧ (d = 0 → k ≠ .AND ∧ k ≠ .OR)
  /-- The head of a `CREATE` looks for the kind of the object, for the `ON` of an index and for a
  keyword that ends it. -/
  head : Span.head.Within 0 before →
    k ≠ .TABLE ∧ k ≠ .VIEW ∧ k ≠ .INDEX ∧ k ≠ .ON ∧ k.breaksBefore = false
  /-- No `AS` takes it for the clause that it is in. -/
  clause : .keyword .AS ∈ after → k ≠ .WITH ∧
    (k = .CREATE ∨ k ≠ .AS ∧ k.breaksBefore = true → .keyword .WITH ∉ before)
  /-- The dot is not the name of a column. -/
  column : .keyword .CREATE ∈ before → ∀ t older, before = .dot :: t :: older →
    t ≠ .openParen ∧ t ≠ .comma

theorem Unheard.mono {x y after after' : List Token} {k : Keyword} (h : Unheard (x ++ y) k after)
    (ha : after' <+: after) : Unheard x k after' where
  call hc := h.call (by
    obtain ⟨r, rfl⟩ := ha
    cases after' with
    | nil => simp at hc
    | cons t after' => simpa using hc)
  ofCase d hc := h.ofCase d (hc.append y)
  condition d hc := h.condition d (hc.append y)
  head hc := h.head (hc.append y)
  clause hm := by
    obtain ⟨hne, hw⟩ := h.clause (ha.mem hm)
    exact ⟨hne, fun hk hm => hw hk (List.mem_append_left y hm)⟩
  column hm t older hx :=
    h.column (List.mem_append_left y hm) t (older ++ y) (by simp [hx])

/-- The same tokens, but for unheard keywords behind a dot that are made names. The tokens `before`
them are those with the names, the last one first, and `tail` follows them. -/
inductive Named (tail : List Token) : List Token → List Token → List Token → Prop where
  | nil {before : List Token} : Named tail before [] []
  | keep {before ts ts' : List Token} {t : Token} (h : Named tail (t :: before) ts ts') :
      Named tail before (t :: ts) (t :: ts')
  | name {before ts ts' : List Token} {k : Keyword} (hdot : before.head? = some .dot)
      (hk : Unheard before k (ts' ++ tail)) (h : Named tail (k.asName :: before) ts ts') :
      Named tail before (.keyword k :: ts) (k.asName :: ts')

inductive Past : List Token → List Token → List Token → Prop where
  | nil {after : List Token} : Past [] [] after
  | keep {before before' after : List Token} {t : Token} (h : Past before before' (t :: after)) :
      Past (t :: before) (t :: before') after
  | name {before before' after : List Token} {k : Keyword} (hdot : before'.head? = some .dot)
      (hk : Unheard before' k after) (h : Past before before' (k.asName :: after)) :
      Past (.keyword k :: before) (k.asName :: before') after

inductive Both {ε α : Type} (R : α → α → Prop) : Except ε α → Except ε α → Prop where
  | error (e e' : ε) : Both R (.error e) (.error e')
  | ok {a a' : α} (h : R a a') : Both R (.ok a) (.ok a')

theorem Both.map {ε α β : Type} {R : α → α → Prop} {S : β → β → Prop} {f f' : α → β}
    {x x' : Except ε α} (h : Both R x x') (hf : ∀ {a a'}, R a a' → S (f a) (f' a')) :
    Both S (x.map f) (x'.map f') := by
  cases h with
  | error e e' => exact .error e e'
  | ok h => exact .ok (hf h)

theorem Both.split {ε α : Type} {R : α → α → Prop} {x x' : Except ε α} (h : Both R x x') :
    (∃ e e', x = .error e ∧ x' = .error e') ∨ ∃ a a', x = .ok a ∧ x' = .ok a' ∧ R a a' := by
  cases h with
  | error e e' => exact .inl ⟨e, e', rfl, rfl⟩
  | ok h => exact .inr ⟨_, _, rfl, rfl, h⟩

namespace Named

variable {tail before ts ts' : List Token}

theorem part {x y : List Token} (h : Named tail (x ++ y) ts ts')
    (hx : x ≠ [] ∨ y.head? ≠ some .dot) : Named [] x ts ts' := by
  generalize hb : x ++ y = before at h
  induction h generalizing x with
  | nil => exact .nil
  | @keep before ts ts' t h ih => exact .keep (ih (.inl (by simp)) (by simp [hb]))
  | @name before ts ts' k hdot hk h ih =>
    subst hb
    refine .name ?_ (hk.mono (by simp)) (ih (.inl (by simp)) rfl)
    cases x with
    | nil => simp_all
    | cons t x => simpa using hdot

theorem past {before₀ : List Token} (h : Named tail before ts ts')
    (hp : Past before₀ before (ts' ++ tail)) :
    Past (ts.reverse ++ before₀) (ts'.reverse ++ before) tail := by
  induction h generalizing before₀ with
  | nil => exact hp
  | keep h ih => simpa using ih (.keep hp)
  | name hdot hk h ih => simpa using ih (.name hdot hk hp)

theorem rel_map {α β γ δ : Type} {R : α → β → Prop} {S : γ → δ → Prop} {f : α → γ} {g : β → δ}
    {a : Option α} {b : Option β} (h : Option.Rel R a b) (hfg : ∀ {x y}, R x y → S (f x) (g y)) :
    Option.Rel S (a.map f) (b.map g) := by
  cases h with
  | some h => exact .some (hfg h)
  | none => exact .none

theorem rel_none {α β : Type} {R : α → β → Prop} {b : Option β} (h : Option.Rel R none b) :
    b = none := by
  cases h
  rfl

theorem rel_some {α β : Type} {R : α → β → Prop} {a : α} {b : Option β}
    (h : Option.Rel R (some a) b) : ∃ y, b = some y ∧ R a y := by
  cases h with
  | some h => exact ⟨_, rfl, h⟩

def Found (close tail before ts' : List Token) (x y : List Token × List Token) : Prop :=
  ts' = y.1 ++ (close ++ y.2) ∧ Named (close ++ y.2 ++ tail) before x.1 y.1 ∧
    Named tail (close.reverse ++ (y.1.reverse ++ before)) x.2 y.2

theorem Found.keep {close : List Token} {t : Token} {x y : List Token × List Token}
    (h : Found close tail (t :: before) ts' x y) :
    Found close tail before (t :: ts') (t :: x.1, x.2) (t :: y.1, y.2) :=
  ⟨by simp [h.1], .keep h.2.1, by simpa using h.2.2⟩

theorem Found.name {close : List Token} {k : Keyword} {x y : List Token × List Token}
    (hdot : before.head? = some .dot) (hk : Unheard before k (ts' ++ tail))
    (h : Found close tail (k.asName :: before) ts' x y) :
    Found close tail before (k.asName :: ts') (.keyword k :: x.1, x.2) (k.asName :: y.1, y.2) := by
  obtain ⟨hts, hinner, hafter⟩ := h
  exact ⟨by simp [hts], .name hdot (by simpa [hts] using hk) hinner, by simpa using hafter⟩

theorem group (h : Named tail before ts ts') (d : Nat) :
    Both (Found [.closeParen] tail before ts') (group d ts) (SqlLayout.group d ts') := by
  induction h generalizing d with
  | nil => exact .error _ _
  | @keep before ts ts' t h ih =>
    have hstep : ∀ d, Both (Found [.closeParen] tail before (t :: ts'))
        ((SqlLayout.group d ts).map fun x => (t :: x.1, x.2))
        ((SqlLayout.group d ts').map fun x => (t :: x.1, x.2)) := fun d => (ih d).map Found.keep
    cases t with
    | closeParen =>
      cases d with
      | zero => exact .ok ⟨rfl, .nil, h⟩
      | succ d => exact hstep d
    | openParen => exact hstep (d + 1)
    | _ => exact hstep d
  | @name before ts ts' k hdot hk h ih => exact (ih d).map (Found.name hdot hk)

theorem caseEnd?_skip {t : Token} (he : t ≠ .keyword .END) (hc : t ≠ .keyword .CASE) (d : Nat)
    (ts : List Token) : SqlLayout.caseEnd? d (t :: ts) =
      (SqlLayout.caseEnd? d ts).map fun x => (t :: x.1, x.2) := by
  rw [SqlLayout.caseEnd?]
  · exact hc
  · exact fun ht _ => he ht
  · exact fun _ ht _ => he ht

theorem caseEnd? (h : Named tail before ts ts') {d : Nat} (hc : OpenCase d before) :
    Option.Rel (Found [] tail before ts') (caseEnd? d ts) (SqlLayout.caseEnd? d ts') := by
  induction h generalizing d with
  | nil => exact .none
  | @keep before ts ts' t h ih =>
    have hstep : ∀ {d}, OpenCase d (t :: before) → Option.Rel (Found [] tail before (t :: ts'))
        ((SqlLayout.caseEnd? d ts).map fun x => (t :: x.1, x.2))
        ((SqlLayout.caseEnd? d ts').map fun x => (t :: x.1, x.2)) :=
      fun hd => rel_map (ih hd) Found.keep
    by_cases hend : t = .keyword .END
    · subst hend
      cases d with
      | zero => exact .some ⟨rfl, .keep .nil, h⟩
      | succ d => exact hstep (.closed hc)
    · by_cases hcase : t = .keyword .CASE
      · subst hcase
        exact hstep (.deeper hc)
      · rw [caseEnd?_skip hend hcase, caseEnd?_skip hend hcase]
        exact hstep (.other hc ⟨hcase, hend⟩)
  | @name before ts ts' k hdot hk h ih =>
    obtain ⟨hcase, hend⟩ := hk.ofCase d hc
    have hname : k.asName ≠ .keyword .CASE ∧ k.asName ≠ .keyword .END := by simp [Keyword.asName]
    rw [caseEnd?_skip (by simpa using hend) (by simpa using hcase), caseEnd?_skip hname.2 hname.1]
    exact rel_map (ih (.other hc hname)) (Found.name hdot hk)

def Element (before part part' : List Token) : Prop :=
  ∃ t x, (t = .openParen ∨ t = .comma) ∧ Named [] (t :: (x ++ before)) part part'

theorem Element.further {t : Token} {part part' : List Token} (h : Element (t :: before) part part') :
    Element before part part' := by
  obtain ⟨u, x, hu, hpart⟩ := h
  exact ⟨u, x ++ [t], hu, by simpa using hpart⟩

theorem splitFrom (h : Named tail before ts ts') (d : Nat) :
    Named [] before (splitFrom d ts).1 (SqlLayout.splitFrom d ts').1 ∧
      (SqlLayout.splitFrom d ts').1 <+: ts' ∧
      List.Forall₂ (Element before) (SqlLayout.splitFrom d ts).2 (SqlLayout.splitFrom d ts').2 := by
  induction h generalizing d with
  | nil => exact ⟨.nil, List.prefix_rfl, .nil⟩
  | @keep before ts ts' t h ih =>
    have hstep : ∀ d, Named [] before (t :: (SqlLayout.splitFrom d ts).1)
        (t :: (SqlLayout.splitFrom d ts').1) ∧ t :: (SqlLayout.splitFrom d ts').1 <+: t :: ts' ∧
        List.Forall₂ (Element before) (SqlLayout.splitFrom d ts).2 (SqlLayout.splitFrom d ts').2 := by
      intro d
      obtain ⟨hpart, hprefix, hparts⟩ := ih d
      exact ⟨.keep hpart, (List.prefix_cons_inj t).2 hprefix, hparts.imp fun _ _ => Element.further⟩
    cases t with
    | comma =>
      cases d with
      | zero =>
        obtain ⟨hpart, -, hparts⟩ := ih 0
        exact ⟨.nil, List.nil_prefix,
          .cons ⟨.comma, [], .inr rfl, hpart⟩ (hparts.imp fun _ _ => Element.further)⟩
      | succ d => exact hstep (d + 1)
    | openParen => exact hstep (d + 1)
    | closeParen => exact hstep (d - 1)
    | _ => exact hstep d
  | @name before ts ts' k hdot hk h ih =>
    obtain ⟨hpart, hprefix, hparts⟩ := ih d
    have hk' : Unheard (before ++ []) k (ts' ++ tail) := by simpa using hk
    have hlater : (SqlLayout.splitFrom d ts').1 ++ [] <+: ts' ++ tail := by
      rw [List.append_nil]
      exact hprefix.trans (List.prefix_append ts' tail)
    exact ⟨.name hdot (hk'.mono hlater) hpart, (List.prefix_cons_inj _).2 hprefix,
      hparts.imp fun _ _ => Element.further⟩

theorem isEmpty_eq (h : Named tail before ts ts') : ts.isEmpty = ts'.isEmpty := by
  cases h <;> rfl

theorem splitCommas (h : Named tail (.openParen :: before) ts ts') :
    List.Forall₂ (Element before) (splitCommas ts) (SqlLayout.splitCommas ts') := by
  unfold SqlLayout.splitCommas
  rw [h.isEmpty_eq]
  split
  · exact .nil
  · obtain ⟨hpart, -, hparts⟩ := h.splitFrom 0
    exact .cons ⟨.openParen, [], .inl rfl, hpart⟩ (hparts.imp fun _ _ => Element.further)

theorem startsQuery_eq (h : Named tail before ts ts') (hb : before.head? ≠ some .dot) :
    startsQuery ts = startsQuery ts' := by
  induction h with
  | nil => rfl
  | @keep before ts ts' t h ih =>
    by_cases hc : t.isComment = true
    · have hdot : (t :: before).head? ≠ some .dot := by
        rintro hd
        obtain rfl : t = .dot := by simpa using hd
        simp [Token.isComment] at hc
      simpa [startsQuery, hc] using ih hdot
    · simp [startsQuery, hc]
  | name hdot => exact absurd hdot hb

theorem any_isComment (h : Named tail before ts ts') :
    ts.any Token.isComment = ts'.any Token.isComment := by
  induction h with
  | nil => rfl
  | keep h ih => simp [ih]
  | name hdot hk h ih => simpa [Token.isComment, Keyword.asName] using ih

theorem isCommand_eq (h : Named tail [] ts ts') : isCommand ts = isCommand ts' := by
  cases h with
  | nil => rfl
  | @keep _ _ _ t => cases t <;> rfl
  | name hdot => simp at hdot

theorem checkQuotes_eq (h : Named tail before ts ts') : checkQuotes ts = checkQuotes ts' := by
  induction h with
  | nil => rfl
  | @keep before ts ts' t h ih => cases t <;> simp [checkQuotes, ih]
  | name hdot hk h ih => simpa [checkQuotes, Keyword.asName] using ih

theorem checkBalance_eq (h : Named tail before ts ts') (d : Nat) :
    checkBalance d ts = checkBalance d ts' := by
  induction h generalizing d with
  | nil => rfl
  | @keep before ts ts' t h ih =>
    cases t with
    | closeParen => cases d <;> simp [checkBalance, ih]
    | _ => simp [checkBalance, ih]
  | name hdot hk h ih => simpa [checkBalance, Keyword.asName] using ih d

/-- Where every keyword of one word behind a dot is unheard, all of them are made names. -/
theorem of_unheard {dotted : Bool} (hgap : ∀ t ∈ ts, t.isGap = false)
    (hdot : dotted = true → before.head? = some .dot)
    (hk : dotted = true → ∀ k b, ts = .keyword k :: b → k ∈ Keyword.singleWords →
      Unheard before k (names b))
    (h : ∀ a k b, ts = a ++ .dot :: .keyword k :: b → k ∈ Keyword.singleWords →
      Unheard (.dot :: ((namesFrom dotted a).reverse ++ before)) k (names b)) :
    Named [] before ts (namesFrom dotted ts) := by
  induction ts generalizing before dotted with
  | nil => exact .nil
  | cons t ts ih =>
    have ht : t.isGap = false := hgap t (by simp)
    have hcons : ∀ a, namesFrom dotted (t :: a) =
        (if dotted then t.asName else t) :: namesFrom (t = .dot) a := fun a => by
      simp [namesFrom, ht]
    have hname : ∀ {b : Bool}, t = .dot → (if b then t.asName else t) = .dot := by
      rintro b rfl
      cases b <;> rfl
    have hrest : Named [] ((if dotted then t.asName else t) :: before) ts
        (namesFrom (t = .dot) ts) := by
      refine ih (fun u hu => hgap u (by simp [hu])) (fun hd => ?_) (fun hd k b hts hw => ?_)
        fun a k b hts hw => ?_
      · simp [hname (of_decide_eq_true hd)]
      · rw [hname (of_decide_eq_true hd)]
        exact h [] k b (by rw [hts, of_decide_eq_true hd]; rfl) hw
      · simpa [hcons] using h (t :: a) k b (by rw [hts]; rfl) hw
    rw [hcons]
    by_cases hword : dotted = true ∧ ∃ k ∈ Keyword.singleWords, t = .keyword k
    · obtain ⟨rfl, k, hw, rfl⟩ := hword
      have hunheard := hk rfl k ts rfl hw
      simp only [if_true, Token.asName, hw] at hrest ⊢
      exact .name (hdot rfl) (by simpa [names] using hunheard) hrest
    · have hsame : (if dotted then t.asName else t) = t := by
        cases dotted with
        | false => rfl
        | true =>
          cases t with
          | keyword k => exact if_neg fun hw => hword ⟨rfl, k, hw, rfl⟩
          | _ => rfl
      rw [hsame] at hrest ⊢
      exact .keep hrest

end Named

namespace Past

variable {before before' after : List Token}

theorem isDecode_asName (k : Keyword) : k.asName.isDecode = false := by
  cases k <;> rfl

theorem afterDot_eq (h : Past before before' after) : Place.afterDot before = Place.afterDot before' := by
  cases h <;> rfl

theorem isDecode_eq (h : Past before before' after) :
    before.head?.any Token.isDecode = before'.head?.any Token.isDecode := by
  cases h with
  | nil => rfl
  | keep => rfl
  | name => exact (isDecode_asName _).symm

theorem afterIntroducer_eq (h : Past before before' (.openParen :: after)) :
    Place.afterIntroducer before = Place.afterIntroducer before' := by
  cases h with
  | nil => rfl
  | keep => rfl
  | @name before before' after k hdot hk h =>
    have hcall := hk.call rfl
    cases k <;> simp_all [Keyword.isCallable, Place.afterIntroducer, Token.introducesSubselect,
      Keyword.introducesSubselect, Keyword.asName]

theorem inWith_eq_false {d : Int} {ts : List Token} (h : .keyword .WITH ∉ ts) :
    Place.inWith d ts = false := by
  fun_induction Place.inWith d ts <;> simp_all

theorem inWith_eq (h : Past before before' after) (has : .keyword .AS ∈ after) (d : Int) :
    Place.inWith d before = Place.inWith d before' := by
  induction h generalizing d with
  | nil => rfl
  | @keep before before' after t h ih =>
    have hrest := ih (List.mem_cons_of_mem t has)
    cases t <;> simp [Place.inWith, hrest]
  | @name before before' after k hdot hk h ih =>
    have hrest := ih (List.mem_cons_of_mem _ has)
    obtain ⟨hwith, hclause⟩ := hk.clause has
    have hname : Place.inWith d (k.asName :: before') = Place.inWith d before' := rfl
    rw [hname, Place.inWith]
    split
    · simp_all
    · split
      · rename_i hk
        refine (inWith_eq_false (hclause ?_)).symm
        simp only [Bool.and_eq_true, Bool.or_eq_true, decide_eq_true_eq] at hk
        exact hk.2.elim (fun hb => .inr ⟨hk.1.2, hb⟩) .inl
      · exact hrest d

end Past

namespace Place

def Opened : Place → List Token → Prop
  | .condition depth _, before => Span.condition.Within depth before
  | .create, before | .createIndex, before => Span.head.Within 0 before
  | .createObject, before => .keyword .CREATE ∈ before
  | _, _ => True

inductive Leads (before : List Token) (t : Token) : Action → Prop where
  | write {items : List Item} {next : Place} (h : next.Opened (t :: before)) :
      Leads before t (.write items next)
  | openBracket {b : Bracket} {next : Place}
      (h : ∀ {ts inner after : List Token}, group 0 ts = .ok (inner, after) →
        next.Opened (.closeParen :: (inner.reverse ++ t :: before)))
      (hb : b = .columns → .keyword .CREATE ∈ before) : Leads before t (.openBracket b next)
  | openCase {next : Place}
      (h : ∀ {ts inner after : List Token}, caseEnd? 0 ts = some (inner, after) →
        next.Opened (inner.reverse ++ t :: before)) : Leads before t (.openCase next)
  | finish {items : List Item} : Leads before t (.finish items)

variable {p : Place} {before : List Token} {t : Token}

theorem Leads.opened {items : List Item} {next : Place} (h : Leads before t (.write items next)) :
    next.Opened (t :: before) := by
  cases h with | write h => exact h

theorem Leads.opened_group {b : Bracket} {next : Place} (h : Leads before t (.openBracket b next))
    {ts inner after : List Token} (hg : group 0 ts = .ok (inner, after)) :
    next.Opened (.closeParen :: (inner.reverse ++ t :: before)) := by
  cases h with | openBracket h => exact h hg

theorem Leads.of_columns {next : Place} (h : Leads before t (.openBracket .columns next)) :
    .keyword .CREATE ∈ before := by
  cases h with | openBracket _ hb => exact hb rfl

theorem Leads.opened_case {next : Place} (h : Leads before t (.openCase next))
    {ts inner after : List Token} (hc : caseEnd? 0 ts = some (inner, after)) :
    next.Opened (inner.reverse ++ t :: before) := by
  cases h with | openCase h => exact h hc

theorem Opened.mem (h : Span.head.Within 0 before) : .keyword .CREATE ∈ before := by
  obtain ⟨k, hk, hmem⟩ := h.exists_opens
  obtain rfl : k = .CREATE := by simpa [Span.head] using hk
  exact hmem

theorem Opened.word (h : p.Opened before) (hopen : t ≠ .openParen)
    (hclose : t = .closeParen → p.brackets = 0)
    (hhead : p = .create ∨ p = .createIndex → t.breaksBefore = false ∧ t ≠ .semicolon)
    (hcondition : ∀ between, p = .condition 0 between →
      afterDot before = true ∨ t.ends .condition = false) : p.Opened (t :: before) := by
  have hkept : ∀ {c : Span} {d : Nat}, c.Within d before → (t = .closeParen → d = 0) →
      (d = 0 → c.ends before.head? t = false) → c.Within d (t :: before) := by
    intro c d hw hzero hgoes
    by_cases ht : t = .closeParen
    · obtain rfl := hzero ht
      exact ht ▸ .closeParen hw
    · exact .token hw ⟨hopen, ht⟩ hgoes
  have hgoes : p = .create ∨ p = .createIndex → Span.head.ends before.head? t = false := fun hp => by
    simp [Span.head, hhead hp, hopen]
  cases p with
  | condition depth between =>
    refine hkept h hclose ?_
    rintro rfl
    exact (hcondition between rfl).elim (fun hd => by simp_all [Span.condition, afterDot])
      fun he => by simp [Span.condition, he]
  | create => exact hkept h (fun _ => rfl) fun _ => hgoes (.inl rfl)
  | createIndex => exact hkept h (fun _ => rfl) fun _ => hgoes (.inr rfl)
  | createObject => exact List.mem_cons_of_mem t h
  | _ => trivial

theorem Opened.group (h : p.Opened before)
    (hhead : p = .create ∨ p = .createIndex → before.head?.any Token.isDecode = true)
    {ts inner after : List Token} (hg : SqlLayout.group 0 ts = .ok (inner, after)) :
    p.Opened (.closeParen :: (inner.reverse ++ .openParen :: before)) := by
  have hgoes : p = .create ∨ p = .createIndex →
      Span.head.ends before.head? .openParen = false := fun hp => by
    simp [Span.head, hhead hp, Token.breaksBefore]
  cases p with
  | condition depth between =>
    exact Span.Within.group (e := 0) (.openParen h fun _ => by simp [Span.condition, Token.ends]) hg
  | create => exact Span.Within.group (e := 0) (.openParen h fun _ => hgoes (.inl rfl)) hg
  | createIndex => exact Span.Within.group (e := 0) (.openParen h fun _ => hgoes (.inr rfl)) hg
  | createObject => simp_all [Opened]
  | _ => trivial

theorem Opened.caseEnd (h : p.Opened before) {ts inner after : List Token}
    (hc : caseEnd? 0 ts = some (inner, after)) :
    p.Opened (inner.reverse ++ .keyword .CASE :: before) := by
  cases p with
  | condition => exact Span.Within.caseEnd h hc
  | create | createIndex => exact Span.Within.caseEnd h hc
  | createObject => simp_all [Opened]
  | _ => trivial

theorem opened_behindKeyword (k : Keyword) : (behindKeyword k).Opened (.keyword k :: before) := by
  unfold behindKeyword
  split
  any_goals trivial
  all_goals exact .opened rfl

theorem Step.leads {a : Action} (h : Step before p t a) (hp : p.Opened before) :
    Leads before t a := by
  induction h with
  | decode hd => exact .openBracket (fun hg => hp.group (fun _ => hd) hg) (by simp)
  | word _ hopen hclose _ _ hhead hcondition => exact .write (hp.word hopen hclose hhead hcondition)
  | expression _ hhead =>
    exact .openBracket (fun hg => hp.group (fun hc => absurd hc (by simp [hhead])) hg) (by simp)
  | case => exact .openCase fun hc => hp.caseEnd hc
  | handed _ _ _ ih => exact ih trivial
  | clause => exact .write (opened_behindKeyword _)
  | connective _ _ hend =>
    exact .write (.token hp (by simp) fun _ => by simp [Span.condition, Token.ends, hend])
  | openGroup => exact .write (.openParen hp fun _ => by simp [Span.condition, Token.ends])
  | closeGroup => exact .write (.closeParen hp)
  | object => exact .write (List.mem_cons_of_mem _ (Opened.mem hp))
  | index | on => exact .write (.token hp (by simp) fun _ => rfl)
  | columns => exact .openBracket (fun _ => trivial) fun _ => hp
  | targets | row | indexColumns => exact .openBracket (fun _ => trivial) (by simp)
  | finish => exact .finish
  | name | semicolon | element | between | line | pair | head | branch => exact .write trivial

theorem leads_action (hp : p.Opened before) (rest : List Token) :
    Leads before t (p.action before t rest) :=
  (step_action p before t rest).leads hp

def afterName : Place → Place
  | .values => .statement
  | p => p

theorem action_asName {k : Keyword} (hp : p ≠ .caseHead) (hdot : afterDot before = true)
    (rest : List Token) : p.action before k.asName rest = .write [.word k.asName] p.afterName := by
  have hexpression : ∀ q, inExpression q before k.asName = .write [.word k.asName] q := fun q => rfl
  unfold Keyword.asName at hexpression ⊢
  cases p <;> simp_all [action, inStatement, inList, inCondition, inInto, inValues, inCreate,
    inCreateObject, inCreateIndex, inBranches, Token.breaksBefore, afterName]

/-- Where nothing listens for it, a keyword behind a dot is read like a name. -/
theorem action_unheard {before' after : List Token} {k : Keyword} (hp : p ≠ .caseHead)
    (hopened : p.Opened before') (hk : Unheard before' k after) (hdot : afterDot before = true)
    (rest : List Token) :
    p.action before (.keyword k) rest = .write [.word (.keyword k)] p.afterName := by
  have hexpression : ∀ q, inExpression q before (.keyword k) = .write [.word (.keyword k)] q := by
    intro q
    unfold inExpression
    split
    · simp_all
    · rw [if_pos hdot]
    · rfl
  have hstatement : inStatement before (.keyword k) = .write [.word (.keyword k)] .statement := by
    unfold inStatement
    rw [if_pos hdot, hexpression]
  cases p with
  | statement => simpa [action, afterName] using hstatement
  | list c => simp [action, inList, hdot, hexpression, afterName]
  | condition depth between =>
    obtain ⟨hbetween, hjoins⟩ := hk.condition depth hopened
    simp only [action, inCondition, hdot, afterName]
    split
    · simp_all
    · split
      · simp_all
      · split <;> simp_all
  | into => simp [action, inInto, hdot, hexpression, afterName]
  | values => simp [action, inValues, hstatement, afterName]
  | create =>
    obtain ⟨htable, hview, hindex, -, hbreak⟩ := hk.head hopened
    simp only [action, inCreate, afterName]
    split
    · simp_all
    · split <;> simp_all [Token.breaksBefore]
  | createObject => simp [action, inCreateObject, hdot, hexpression, afterName]
  | createIndex =>
    obtain ⟨-, -, -, hon, hbreak⟩ := hk.head hopened
    simp only [action, inCreateIndex, afterName]
    split
    · simp_all
    · split <;> simp_all [Token.breaksBefore]
  | inline => simp [action, hexpression, afterName]
  | block => simp [action, hexpression, afterName]
  | pairs n => simp [action, hexpression, afterName]
  | caseHead => exact absurd rfl hp
  | branches => simp [action, inBranches, hdot, hexpression, afterName]

end Place

namespace Past

variable {p : Place} {before before' rest rest' : List Token}

theorem action_keep {t : Token} (hp : Past before before' (t :: rest'))
    (h : Named [] (t :: before') rest rest') :
    p.action before' t rest' = p.action before t rest := by
  refine Place.action_congr hp.afterDot_eq.symm (fun ht => ?_) (fun _ => hp.isDecode_eq.symm)
    (fun ht => ?_) fun ht => ?_
  · exact (hp.inWith_eq (by simp [ht]) 0).symm
  · subst ht
    exact hp.afterIntroducer_eq.symm
  · exact (h.startsQuery_eq (by simp [ht])).symm

theorem action_name {k : Keyword} {after : List Token} (hp : Past before before' (k.asName :: rest'))
    (hdot : before'.head? = some .dot) (hk : Unheard before' k after) (hopened : p.Opened before')
    (hc : p = .caseHead → before = []) :
    p.action before (.keyword k) rest = .write [.word (.keyword k)] p.afterName ∧
      p.action before' k.asName rest' = .write [.word k.asName] p.afterName ∧
      p.afterName.Opened (k.asName :: before') ∧ p.afterName ≠ .caseHead := by
  have hdot' : Place.afterDot before' = true := by simp [Place.afterDot, hdot]
  have hne : p ≠ .caseHead := by
    intro hcase
    rw [← hp.afterDot_eq, hc hcase] at hdot'
    simp [Place.afterDot] at hdot'
  have hname := Place.action_asName (k := k) hne hdot' rest'
  have hleads : Place.Leads before' k.asName (.write [.word k.asName] p.afterName) :=
    hname ▸ Place.leads_action hopened rest'
  refine ⟨Place.action_unheard hne hopened hk (hp.afterDot_eq.trans hdot') rest, hname,
    hleads.opened, ?_⟩
  cases p <;> simp_all [Place.afterName]

theorem kept {ts' : List Token} {t : Token} (hp : Past before before' ts')
    (h : Named [] before' (t :: rest) ts') (hopened : p.Opened before')
    (hc : p = .caseHead → before = []) (ha : ∀ items next, p.action before t rest ≠ .write items next) :
    ∃ rest', ts' = t :: rest' ∧ Named [] (t :: before') rest rest' ∧
      p.action before' t rest' = p.action before t rest := by
  cases h with
  | keep hrest => exact ⟨_, rfl, hrest, hp.action_keep hrest⟩
  | name hdot hk hrest => exact absurd (hp.action_name hdot hk hopened hc).1 (ha _ _)

end Past

end SqlLayout

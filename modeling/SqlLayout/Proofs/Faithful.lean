import SqlLayout.Proofs.Arrangement

/-! Where the fences nest, an arrangement writes all its tokens, in order, and a string loses its
line ends only where a `CASE` or a `DECODE` encloses it.
-/

set_option autoImplicit false

namespace SqlLayout

/-- A token between a `CASE` and its `END`, or between the brackets of a `DECODE`, where `before`
and `after` are the tokens on its two sides. -/
def Enclosed (before after : List Token) : Prop :=
  ∃ a b c d : List Token, Fenced (b ++ c) ∧
    (before = a ++ .keyword .CASE :: b ∧ after = c ++ .keyword .END :: d ∨
      ∃ name : Token, name.isDecode = true ∧ before = a ++ name :: .openParen :: b ∧
        after = c ++ .closeParen :: d)

theorem Enclosed.extend {before after : List Token} (h : Enclosed before after)
    (x y : List Token) : Enclosed (x ++ before) (after ++ y) := by
  obtain ⟨a, b, c, d, hf, ⟨rfl, rfl⟩ | ⟨name, hn, rfl, rfl⟩⟩ := h
  · exact ⟨x ++ a, b, c, d ++ y, hf, .inl ⟨by simp, by simp⟩⟩
  · exact ⟨x ++ a, b, c, d ++ y, hf, .inr ⟨name, hn, by simp, by simp⟩⟩

theorem Fenced.without {t : Token} (hp : t.isPlain = true) {b c : List Token}
    (h : Fenced (b ++ t :: c)) : Fenced (b ++ c) := by
  unfold Fenced at h ⊢
  rw [fences_append] at h ⊢
  simpa only [fences_plain hp] using h

theorem append_cons_eq_concat {α : Type} {a r body : List α} {s e : α}
    (h : a ++ s :: r = body ++ [e]) (hne : s ≠ e) : ∃ c, r = c ++ [e] ∧ body = a ++ s :: c := by
  rcases List.eq_nil_or_concat r with rfl | ⟨c, z, rfl⟩
  · exact absurd (by simpa using List.append_inj_right' h rfl) hne
  · have h' : (a ++ s :: c) ++ [z] = body ++ [e] := by simpa using h
    obtain rfl : z = e := by simpa using List.append_inj_right' h' rfl
    exact ⟨c, by simp, (List.append_inj_left' h' rfl).symm⟩

structure Faithful (before ts : List Token) (marks : List (Bool × Token)) : Prop where
  tokens : marks.map Prod.snd = ts
  flat : ∀ {l r : List (Bool × Token)} {x : Text}, marks = l ++ (true, .string x) :: r →
    Enclosed (before.reverse ++ l.map Prod.snd) (r.map Prod.snd)

namespace Faithful

variable {before ts v : List Token} {ms ns : List (Bool × Token)}

theorem append (h : Faithful before ts ms) (h' : Faithful (ts.reverse ++ before) v ns) :
    Faithful before (ts ++ v) (ms ++ ns) where
  tokens := by simp [h.tokens, h'.tokens]
  flat := by
    intro l r x he
    rcases List.append_eq_append_iff.1 he with ⟨a, rfl, ha⟩ | ⟨a, hm, hn⟩
    · have := h'.flat ha
      simpa [h.tokens] using this
    · cases a with
      | nil =>
        have := h'.flat (l := []) (by simpa using hn.symm)
        have ht := h.tokens
        simp_all
      | cons m a =>
        obtain ⟨rfl, rfl⟩ : (true, Token.string x) = m ∧ r = a ++ ns := by simpa using hn
        simpa using (h.flat hm).extend [] (ns.map Prod.snd)

theorem tail {m : Bool × Token} (h : Faithful before ts (m :: ms)) :
    Faithful (m.2 :: before) (ms.map Prod.snd) ms where
  tokens := rfl
  flat he := by simpa using h.flat (l := m :: _) (by rw [he]; rfl)

theorem nil : Faithful before [] [] := ⟨rfl, by simp⟩

theorem unmarked (before ts : List Token) : Faithful before ts (ts.map (false, ·)) where
  tokens := by simp [Function.comp_def]
  flat := by
    intro l r x he
    have : (true, Token.string x) ∈ ts.map (false, ·) := by simp [he]
    simp at this

theorem inner (h : Faithful [] ts ms) (before : List Token) : Faithful before ts ms where
  tokens := h.tokens
  flat he := by simpa using (h.flat he).extend before.reverse []

theorem brackets (h : Faithful (.openParen :: before) ts ms) :
    Faithful before (.openParen :: ts ++ [.closeParen])
      ((false, .openParen) :: ms ++ [(false, .closeParen)]) :=
  ((unmarked before [.openParen]).append h).append (.unmarked _ [.closeParen])

theorem ofCase {body : List Token} (hb : Fenced body)
    (h : ms.map Prod.snd = .keyword .CASE :: body ++ [.keyword .END]) :
    Faithful before (.keyword .CASE :: body ++ [.keyword .END]) ms where
  tokens := h
  flat := by
    intro l r x he
    have hs : l.map Prod.snd ++ .string x :: r.map Prod.snd =
        .keyword .CASE :: body ++ [.keyword .END] := by
      simpa [he] using h
    obtain ⟨c, hc, hl⟩ := append_cons_eq_concat hs (by simp)
    rcases hb' : l.map Prod.snd with _ | ⟨t, b⟩
    · simp [hb'] at hl
    obtain ⟨rfl, rfl⟩ : .keyword .CASE = t ∧ body = b ++ .string x :: c := by simpa [hb'] using hl
    exact ⟨before.reverse, b, c, [], hb.without rfl, .inl ⟨rfl, hc⟩⟩

theorem ofPairs {inside : List Token} (hb : Fenced inside) (h : ms.map Prod.snd = inside)
    (hd : before.head?.any Token.isDecode = true) :
    Faithful before (.openParen :: inside ++ [.closeParen])
      ((false, .openParen) :: ms ++ [(false, .closeParen)]) where
  tokens := by simp [h]
  flat := by
    intro l r x he
    obtain ⟨c, rfl, hl⟩ := append_cons_eq_concat he.symm (by simp)
    rcases l with _ | ⟨m, l⟩
    · simp at hl
    obtain ⟨rfl, rfl⟩ : (false, Token.openParen) = m ∧ ms = l ++ (true, .string x) :: c := by
      simpa using hl
    rcases before with _ | ⟨name, before⟩
    · simp at hd
    refine ⟨before.reverse, l.map Prod.snd, c.map Prod.snd, [], ?_,
      .inr ⟨name, by simpa using hd, by simp, by simp⟩⟩
    apply Fenced.without (t := .string x) rfl
    simpa [← h] using hb

end Faithful

namespace Arrange

def Ready (p : Place) (ts : List Token) : Prop :=
  match p with
  | .caseHead => ∃ body, ts = .keyword .CASE :: body ++ [.keyword .END] ∧ Fenced body
  | .branches => ∃ body, ts = body ++ [.keyword .END] ∧ Fenced body
  | _ => Stretch ts

theorem ready_of_stretch {p : Place} {ts : List Token} (hp : p.isOpen = false) (h : Stretch ts) :
    Ready p ts := by
  cases p <;> first | exact h | simp [Place.isOpen] at hp

def NestedFaithful (nested : Nested) : Prop :=
  ∀ {p : Place} {ts : List Token} {body : List Item}, Ready p ts → Undotted ts →
    nested p ts = .ok body → Faithful [] ts (Item.allMarked false body)

variable {nested : Nested}

theorem allTokens_inset {flat : Bool} {p : Place} {indent : Nat} {ts : List Token}
    (h : ∀ body, nested p ts = .ok body → Item.allTokens body = ts) :
    Item.allTokens (inset nested flat p indent ts) = ts := by
  unfold inset
  split
  · rename_i body hb
    simpa [Item.allTokens, Item.tokens] using h body hb
  · simp

theorem NestedFaithful.inset (hn : NestedFaithful nested) {p : Place} {ts : List Token}
    (hr : Ready p ts) (hu : Undotted ts) (indent : Nat) (before : List Token) :
    Faithful before ts (Item.allMarked false (inset nested false p indent ts)) := by
  unfold Arrange.inset
  split
  · rename_i body hb
    simpa [Item.allMarked, Item.marked] using (hn hr hu hb).inner before
  · rw [Item.allMarked_echo]
    exact .unmarked before ts

theorem NestedFaithful.query (hn : NestedFaithful nested) {ts : List Token}
    (hs : Stretch ts) (hu : Undotted ts) (indent : Nat) (before : List Token) :
    Faithful before ts (Item.allMarked false (query nested indent ts)) := by
  unfold Arrange.query
  split
  · rename_i body hb
    simpa [Item.allMarked, Item.marked] using (hn (p := .statement) hs hu hb).inner before
  · rw [Item.allMarked_echo]
    exact .unmarked before ts

theorem NestedFaithful.definition (hn : NestedFaithful nested) {ts : List Token}
    (hs : Stretch ts) (hu : Undotted ts) :
    Faithful [] ts (Item.allMarked false (definition nested ts)) := by
  cases ts with
  | nil => exact .nil
  | cons name rest =>
    have hsuf : rest <:+: name :: rest := (List.suffix_cons name rest).isInfix
    have hname : ∀ {body : List Item}, Faithful [name] rest (Item.allMarked false body) →
        Faithful [] (name :: rest) (Item.allMarked false (.word name :: body)) :=
      (Faithful.unmarked [] [name]).append
    unfold Arrange.definition
    refine hname ?_
    split
    · rename_i body hb
      exact (hn (p := .inline) (hs.within hsuf) (hu.within hsuf) hb).inner [name]
    · rw [Item.allMarked_echo]
      exact .unmarked [name] rest

theorem faithful_parts {f : List Token → List Item} {parts : List (List Token)}
    (h : ∀ part ∈ parts, Faithful [] part (Item.allMarked false (f part))) (before : List Token) :
    Faithful before ([Token.comma].intercalate parts) (Item.partMarked false (parts.map f)) := by
  induction parts generalizing before with
  | nil => exact .nil
  | cons part parts ih =>
    have hp := (h part (by simp)).inner before
    cases parts with
    | nil => simpa [Item.partMarked] using hp
    | cons next parts =>
      have hc := Faithful.unmarked (part.reverse ++ before) [.comma]
      have hrest := ih (fun q hq => h q (by simp [hq]))
        ([Token.comma].reverse ++ (part.reverse ++ before))
      simpa [Item.partMarked] using hp.append (hc.append hrest)

theorem NestedFaithful.bracket (hn : NestedFaithful nested) {b : Bracket} {before ts : List Token}
    (hf : Fenced ts) (hu : Undotted ts) (hd : b = .pairs → before.head?.any Token.isDecode = true)
    (indent : Nat) : Faithful before (.openParen :: ts ++ [.closeParen])
      (Item.allMarked false (bracket nested b indent before ts)) := by
  have hs := hf.stretch
  have hpart : ∀ part ∈ splitCommas ts, Stretch part ∧ Undotted part := fun part h =>
    ⟨hs.within (infix_of_mem_splitCommas h), hu.within (infix_of_mem_splitCommas h)⟩
  have hform := form_bracket nested b indent before ts
  generalize Arrange.bracket nested b indent before ts = items at hform ⊢
  cases hform with
  | query =>
    have hquery := (hn.query hs hu indent (.openParen :: before)).brackets
    simpa [Item.allMarked_append, Item.allMarked, Item.marked, opening, closing] using hquery
  | elements =>
    have hp := faithful_parts (f := Arrange.inset nested false .inline indent)
      (fun part h => hn.inset (p := .inline) (hpart part h).1 (hpart part h).2 indent [])
      (.openParen :: before)
    rw [intercalate_splitCommas] at hp
    simpa [Item.allMarked, Item.marked, opening, closing] using hp.brackets
  | «inline» =>
    have hinset := (hn.inset (p := .inline) hs hu indent (.openParen :: before)).brackets
    simpa [Item.allMarked_append, Item.allMarked, Item.marked, opening, closing] using hinset
  | pairs hb =>
    have ht : Item.allTokens (Arrange.inset nested true (.pairs 0) indent ts) = ts :=
      allTokens_inset fun body hb => by
        rw [← Item.map_allMarked false]
        exact (hn (p := .pairs 0) hs hu hb).tokens
    rw [← Item.map_allMarked false] at ht
    simpa [Item.allMarked_append, Item.allMarked, Item.marked, opening, closing] using
      Faithful.ofPairs hf ht (hd hb)
  | empty he =>
    subst he
    exact Faithful.nil.brackets
  | lines =>
    have hinset := (hn.inset (p := .block) hs hu indent (.openParen :: before)).brackets
    simpa [Item.allMarked_append, Item.allMarked, Item.marked, opening, closing] using hinset
  | definitions =>
    have hp := faithful_parts (f := Arrange.definition nested)
      (fun part h => hn.definition (hpart part h).1 (hpart part h).2) (.openParen :: before)
    rw [intercalate_splitCommas] at hp
    simpa [Item.allMarked, Item.marked] using hp.brackets

theorem Ready.tail {p next : Place} {before rest : List Token} {t : Token} {items : List Item}
    (h : Ready p (t :: rest)) (hu : Undotted (before.head?.toList ++ t :: rest))
    (hr : p.Reads before t (.write items next)) : Ready next rest := by
  cases hr with
  | write _ _ ho hn hb =>
    by_cases hp : p.isOpen = true
    · obtain rfl := Place.eq_branches (ho.trans hp) hn
      cases p with
      | caseHead =>
        obtain ⟨body, hts, hf⟩ := h
        exact ⟨body, by simpa using (List.cons.inj hts).2, hf⟩
      | branches =>
        obtain ⟨body, hts, hf⟩ := h
        obtain ⟨hopen, hkey⟩ := hb rfl
        have hplain : t ≠ .keyword .CASE ∧ t ≠ .keyword .END := by
          by_cases hd : Place.afterDot before = true
          · obtain ⟨before, rfl⟩ : ∃ b, before = .dot :: b := by
              cases before <;> simp_all [Place.afterDot]
            exact (List.isChain_cons_cons.1 hu).1 rfl
          · exact ⟨fun h => hd (hkey (.inl h)), fun h => hd (hkey (.inr h))⟩
        cases body with
        | nil => exact absurd (List.cons.inj hts).1 hplain.2
        | cons x body =>
          obtain ⟨rfl, rfl⟩ := List.cons.inj hts
          rcases fences_cons hf with ⟨hp, -⟩ | ⟨rfl, -⟩ | ⟨rfl, -⟩ | ⟨-, s, hs, -⟩ | ⟨rfl, -⟩
          · exact ⟨body, rfl, hf.tail_plain hp⟩
          · exact absurd rfl hopen
          · exact absurd rfl hplain.1
          · simp at hs
          · exact absurd rfl hplain.2
      | _ => simp [Place.isOpen] at hp
    · have hs : Stretch (t :: rest) := by cases p <;> first | exact h | simp [Place.isOpen] at hp
      exact ready_of_stretch (by simpa [ho] using hp) (hs.within (List.suffix_cons t rest).isInfix)

/-- A bracket opened where the tokens fit holds fenced text, and behind it they still fit. -/
theorem Ready.group {p next : Place} {rest inner after : List Token} (hp : p ≠ .caseHead)
    (ho : next.isOpen = p.isOpen) (hn : next ≠ .caseHead) (h : Ready p (.openParen :: rest))
    (hg : group 0 rest = .ok (inner, after)) : Fenced inner ∧ Ready next after := by
  by_cases hopen : p.isOpen = true
  · obtain rfl := Place.eq_branches (ho.trans hopen) hn
    obtain rfl := Place.eq_branches hopen hp
    obtain ⟨body, hts, hf⟩ := h
    rcases body with _ | ⟨x, body⟩
    · simp at hts
    obtain ⟨rfl, rfl⟩ := List.cons.inj hts
    have he := group_eq_append hg
    obtain ⟨c, hc, hbody⟩ := append_cons_eq_concat he.symm (by simp)
    subst hbody
    obtain ⟨hi, ha⟩ := hf.after_group (group_append hg c)
    exact ⟨hi, c, hc, ha⟩
  · have hs : Stretch (.openParen :: rest) := by
      cases p <;> first | exact h | simp [Place.isOpen] at hopen
    obtain ⟨hi, ha⟩ := hs.group hg
    exact ⟨hi, ready_of_stretch (by simpa [ho] using hopen) ha⟩

theorem Ready.caseEnd {p next : Place} {rest inner after : List Token} (hp : p ≠ .caseHead)
    (ho : next.isOpen = p.isOpen) (hn : next ≠ .caseHead) (h : Ready p (.keyword .CASE :: rest))
    (hc : caseEnd? 0 rest = some (inner, after)) :
    (∃ body, inner = body ++ [.keyword .END] ∧ Fenced body) ∧ Ready next after := by
  by_cases hopen : p.isOpen = true
  · obtain rfl := Place.eq_branches (ho.trans hopen) hn
    obtain rfl := Place.eq_branches hopen hp
    obtain ⟨body, hts, hf⟩ := h
    rcases body with _ | ⟨x, body⟩
    · simp at hts
    obtain ⟨rfl, rfl⟩ := List.cons.inj hts
    have hall : fences [.case, .case] (body ++ [.keyword .END]) = some [] := by
      have hfr : fences [.case, .case] body = some [.case] :=
        fences_frame (s := [.case]) hf [.case]
      rw [fences_append, hfr]
      rfl
    obtain ⟨b, hb, hbf, ha⟩ := caseEnd?_fences hc (u := []) rfl hall
    rcases List.eq_nil_or_concat after with rfl | ⟨c, z, rfl⟩
    · simp [fences] at ha
    have he : body ++ [.keyword .END] = (inner ++ c) ++ [z] := by
      simpa using caseEnd?_eq_append hc
    obtain rfl : .keyword .END = z := by simpa using List.append_inj_right' he rfl
    obtain rfl : body = inner ++ c := List.append_inj_left' he rfl
    exact ⟨⟨b, hb, hbf⟩, c, by simp, hf.after_case (caseEnd?_append hc c)⟩
  · have hs : Stretch (.keyword .CASE :: rest) := by
      cases p <;> first | exact h | simp [Place.isOpen] at hopen
    obtain ⟨hi, ha⟩ := hs.caseEnd hc
    exact ⟨hi, ready_of_stretch (by simpa [ho] using hopen) ha⟩

/-- What is arranged where the fences nest writes every token, in order. -/
theorem Arranged.faithful (hn : NestedFaithful nested) {p : Place} {before ts : List Token}
    {items : List Item} (h : Arranged nested p before ts items) (hready : Ready p ts)
    (hu : Undotted (before.head?.toList ++ ts)) :
    Faithful before ts (Item.allMarked false items) := by
  induction h with
  | done => exact .nil
  | @token p next before rest t items more hr _ ih =>
    have hrest := ih (hready.tail hu hr) (hu.within (by
      exact (List.suffix_append _ _).isInfix))
    rw [Item.allMarked_append, allMarked_written hr]
    exact (Faithful.unmarked before [t]).append hrest
  | @bracket p next before rest inner after b more hr hg _ ih =>
    obtain rfl := group_eq_append hg
    cases hr with
    | openBracket _ hp ho hnext hd =>
      obtain ⟨hi, ha⟩ := hready.group hp ho hnext hg
      have hu' : Undotted (.openParen :: (inner ++ .closeParen :: after)) :=
        hu.within (List.suffix_append _ _).isInfix
      have hrest := ih ha (hu'.within ⟨.openParen :: inner, [], by simp⟩)
      have hinner : Undotted inner := hu'.within ⟨[.openParen], .closeParen :: after, by simp⟩
      have hb := hn.bracket hi hinner hd p.indent
      rw [Item.allMarked_append]
      have := hb.append (v := after) (by simpa using hrest)
      simpa using this
  | @looseCase p before rest hp hc =>
    have := Faithful.unmarked before (.keyword .CASE :: rest)
    simpa [Item.allMarked, Item.marked, Item.allMarked_echo] using this
  | @caseEnd p next before rest inner after more hr hc _ ih =>
    obtain rfl := caseEnd?_eq_append hc
    cases hr with
    | openCase _ hp ho hnext =>
      obtain ⟨⟨body, rfl, hf⟩, ha⟩ := hready.caseEnd hp ho hnext hc
      have hu' : Undotted (.keyword .CASE :: (body ++ [.keyword .END] ++ after)) :=
        hu.within (List.suffix_append _ _).isInfix
      have hhead : ((body ++ [Token.keyword .END]).reverse ++ .keyword .CASE :: before).head? =
          some (.keyword .END) := by simp
      have hrest := ih ha (by
        rw [hhead]
        exact hu'.within ⟨.keyword .CASE :: body, [], by simp⟩)
      have hcase : Undotted (.keyword .CASE :: body ++ [.keyword .END]) :=
        hu'.within ⟨[], after, by simp⟩
      have ht : Item.allTokens (inset nested true .caseHead p.indent
          (.keyword .CASE :: body ++ [.keyword .END])) = _ := allTokens_inset fun b hb => by
        rw [← Item.map_allMarked false]
        exact (hn (p := .caseHead) ⟨body, rfl, hf⟩ hcase hb).tokens
      rw [← Item.map_allMarked false] at ht
      rw [Item.allMarked_append]
      have hwhole : Faithful before (.keyword .CASE :: body ++ [.keyword .END]) _ := .ofCase hf ht
      simpa using hwhole.append (v := after) (by simpa using hrest)
  | @finish before rest =>
    obtain ⟨body, hts, hf⟩ := hready
    cases body with
    | nil =>
      obtain rfl : rest = [] := by simpa using hts
      exact .unmarked before [.keyword .END]
    | cons x body =>
      obtain ⟨rfl, -⟩ := List.cons.inj hts
      simp [Fenced, fences] at hf

end Arrange

open Arrange in
theorem nestedFaithful_arrange (limit room : Nat) : NestedFaithful (arrange limit room) := by
  apply arrange_induction (motive := NestedFaithful)
  case deep => exact fun _ _ h => by cases h
  case run =>
    intro nested hn p ts body hready hu hb
    refine (arranged_of_run (fun hp => ⟨rfl, ?_⟩) hb).faithful hn hready hu
    subst hp
    obtain ⟨body, rfl, -⟩ := hready
    exact ⟨_, rfl⟩

end SqlLayout

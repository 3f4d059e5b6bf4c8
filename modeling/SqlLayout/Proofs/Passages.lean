import SqlLayout.Proofs.LayoutComparison
import SqlLayout.Proofs.PagePosition

/-! The passages of a layout. A passage is written on a page of its own and then set in, so what
stands in it stands in the layout too, moved by as much as the passage itself.
-/

set_option autoImplicit false

namespace SqlLayout

open Item

def Text.Unbroken (t : Text) : Prop := '\n' ∉ t

theorem Text.lasting_unbroken : Lasting Unbroken where
  nil := by simp [Unbroken]
  space := by unfold Unbroken; decide
  mark := fun hc h => by
    rw [List.mem_singleton] at h
    subst h
    cases hc
  append := fun hs ht h => (List.mem_append.1 h).elim hs ht
  dropEnd := fun ht h => ht ((Text.dropEndWhile_prefix _ _).subset h)
  trim := fun ht h =>
    ht ((List.dropWhile_suffix _).subset ((Text.dropEndWhile_prefix _ _).subset h))
  trimEnd := fun ht h => ht ((Text.dropEndWhile_prefix _ _).subset h)

def Item.behind (wrap : Option Nat) (parts : List (List Item)) : List Item :=
  parts.flatMap fun q => .word .comma :: ((wrap.elim [] fun n => [.startLine n]) ++ q)

theorem writeElements_eq (o : Options) (flat : Bool) (wrap : Option Nat) (parts : List (List Item))
    (d : Draft) : writeElements o flat wrap parts d = writeAll o flat (behind wrap parts) d := by
  induction parts generalizing d with
  | nil => rfl
  | cons part parts ih =>
    have hstart : ∀ e : Draft, writeAll o flat (wrap.elim [] fun n => [.startLine n]) e =
        wrap.elim e fun n => e.startLine n := by
      intro e
      cases wrap <;> rfl
    simp only [writeElements, behind, List.flatMap_cons, List.cons_append, writeAll,
      writeAll_append, hstart]
    exact ih _

theorem write_elements (o : Options) (flat : Bool) (part : List Item) (parts : List (List Item))
    (d : Draft) : (Item.elements (part :: parts)).write o flat d =
      writeAll o flat (part ++ behind
        (if elementLimit < parts.length + 1 then some d.page.column else none) parts) d := by
  rw [writeAll_append, ← writeElements_eq]
  rfl

theorem allMarked_behind (flat : Bool) (wrap : Option Nat) (parts : List (List Item)) :
    allMarked flat (behind wrap parts) =
      parts.flatMap fun q => (flat, .comma) :: allMarked flat q := by
  induction parts with
  | nil => rfl
  | cons part parts ih =>
    have hstart : allMarked flat (wrap.elim [] fun n => [.startLine n]) = [] := by
      cases wrap <;> rfl
    rw [behind, List.flatMap_cons, allMarked_append, allMarked, allMarked_append, hstart]
    simpa [behind, marked] using ih

structure Passage where
  flat : Bool
  items : List Item
  draft : Draft

namespace Passage

def ofItems (items : List Item) : Passage := ⟨false, items, .blank⟩

def written (o : Options) (p : Passage) : Draft := writeAll o p.flat p.items p.draft

/-- The writing of the first passage comes to the second: further on the same page, or on the page
of what is set in there, behind as many characters that are not blank. What goes on one line is left
out: a short query, and all that stands in a definition, the queries in it with what they hold. -/
inductive Reaches (o : Options) : Passage → Passage → Nat → Prop where
  | here {p : Passage} : Reaches o p p 0
  | next {flat : Bool} {i : Item} {rest : List Item} {d : Draft} {q : Passage} {n : Nat}
      (h : Reaches o ⟨flat, rest, i.write o flat d⟩ q n) : Reaches o ⟨flat, i :: rest, d⟩ q n
  | inset {flat f : Bool} {body rest : List Item} {d : Draft} {q : Passage} {n : Nat}
      (h : Reaches o ⟨flat || f, body, .blank⟩ q n) :
      Reaches o ⟨flat, .inset f body :: rest, d⟩ q (d.page.ink + n)
  | query {flat : Bool} {body rest : List Item} {d : Draft} {q : Passage} {n : Nat}
      (hline : onOneLine o flat body = false) (h : Reaches o ⟨flat, body, .blank⟩ q n) :
      Reaches o ⟨flat, .query body :: rest, d⟩ q (d.page.ink + n)
  | elements {flat : Bool} {part : List Item} {parts : List (List Item)} {rest : List Item}
      {d : Draft} {q : Passage} {n : Nat}
      (h : Reaches o ⟨flat, part ++ behind
        (if elementLimit < parts.length + 1 then some d.page.column else none) parts ++ rest,
          d⟩ q n) :
      Reaches o ⟨flat, .elements (part :: parts) :: rest, d⟩ q n

/-- Everything on the page is counted, and there is no line break in the passage, if what is looked
for in it does not stand `low`. -/
structure Fair (o : Options) (low : Prop) (p : Passage) : Prop where
  counted : p.draft.page.Counted
  unbroken : low ∨ p.draft.page.Each Text.Unbroken ∧
    ∀ m ∈ allMarked p.flat p.items, ∀ prev, Text.Unbroken (m.2.render o m.1 prev)

namespace Fair

variable {o : Options} {low : Prop} {flat f : Bool} {i : Item} {body rest : List Item} {d : Draft}

theorem blank
    (hm : low ∨ ∀ m ∈ allMarked flat body, ∀ prev, Text.Unbroken (m.2.render o m.1 prev)) :
    Fair o low ⟨flat, body, .blank⟩ :=
  ⟨rfl, hm.imp_right fun h => ⟨Draft.each_blank Text.lasting_unbroken, h⟩⟩

theorem mark {p : Passage} (h : p.Fair o low) : low ∨ '\n' ∉ p.draft.page.current :=
  h.unbroken.imp_right fun ⟨heach, _⟩ => by simpa [Text.Unbroken] using heach.2

theorem next (h : Fair o low ⟨flat, i :: rest, d⟩) : Fair o low ⟨flat, rest, i.write o flat d⟩ where
  counted := keeps_write Text.lasting_true i flat Page.keeps_counted (fun _ _ _ => trivial) h.counted
  unbroken := h.unbroken.imp_right fun ⟨heach, hm⟩ => by
    simp only [allMarked] at hm
    exact ⟨keeps_write Text.lasting_unbroken i flat (Page.keeps_each Text.lasting_unbroken)
      (fun m hm' => hm m (by simp [hm'])) heach, fun m hm' => hm m (by simp [hm'])⟩

theorem inset (h : Fair o low ⟨flat, .inset f body :: rest, d⟩) :
    Fair o low ⟨flat || f, body, .blank⟩ :=
  blank (h.unbroken.imp_right fun ⟨_, hm⟩ m hm' => hm m (by simp [allMarked, marked, hm']))

theorem query (h : Fair o low ⟨flat, .query body :: rest, d⟩) : Fair o low ⟨flat, body, .blank⟩ :=
  blank (h.unbroken.imp_right fun ⟨_, hm⟩ m hm' => hm m (by simp [allMarked, marked, hm']))

theorem elements {part : List Item} {parts : List (List Item)} {wrap : Option Nat}
    (h : Fair o low ⟨flat, .elements (part :: parts) :: rest, d⟩) :
    Fair o low ⟨flat, part ++ behind wrap parts ++ rest, d⟩ :=
  ⟨h.counted, h.unbroken.imp_right fun ⟨heach, hm⟩ => ⟨heach, by
    simpa [allMarked, marked, partMarked_cons, allMarked_append, allMarked_behind] using hm⟩⟩

end Fair

theorem Reaches.fair {o : Options} {low : Prop} {p q : Passage} {n : Nat} (h : Reaches o p q n)
    (hp : p.Fair o low) : q.Fair o low := by
  induction h with
  | here => exact hp
  | next _ ih => exact ih hp.next
  | inset _ ih => exact ih hp.inset
  | query _ _ ih => exact ih hp.query
  | elements _ ih => exact ih hp.elements

theorem Reaches.trans {o : Options} {p q r : Passage} {n m : Nat} (h : Reaches o p q n)
    (h' : Reaches o q r m) : Reaches o p r (n + m) := by
  induction h with
  | here => rwa [Nat.zero_add]
  | next _ ih => exact .next (ih h')
  | inset _ ih =>
    rw [Nat.add_assoc]
    exact .inset (ih h')
  | query hline _ ih =>
    rw [Nat.add_assoc]
    exact .query hline (ih h')
  | elements _ ih => exact .elements (ih h')

theorem hung_inset {o : Options} {low : Prop} {d : Draft} (hcounted : d.page.Counted)
    (hmark : low ∨ '\n' ∉ d.page.current) (flat f : Bool) (body rest : List Item) :
    ∃ k, ∀ {i c : Nat} {ls : List Text}, ls ≠ [] → (∀ t ∈ ls, Text.Firm t) →
      Hung low (writeAll o f body .blank).page.lines i c ls →
        Hung low (writeAll o flat rest (d.setIn (writeAll o f body .blank))).page.lines
          (d.page.ink + i) (k + c) ls :=
  ⟨_, fun hne hf h => Draft.hung_writeAll
    (Draft.hung_setIn h hne hf (Draft.neat_writeAll o f body) hcounted hmark) hne hf o flat rest⟩

/-- What stands on the page of a passage stands, at one remove for all of it, on the page that the
passage is set in. -/
theorem Reaches.hung {o : Options} {low : Prop} {p q : Passage} {n : Nat} (h : Reaches o p q n)
    (hp : p.Fair o low) : ∃ k, ∀ {i c : Nat} {ls : List Text}, ls ≠ [] → (∀ t ∈ ls, Text.Firm t) →
      Hung low (q.written o).page.lines i c ls →
        Hung low (p.written o).page.lines (n + i) (k + c) ls := by
  -- Only a page that is set in moves what stands on it, by the column where it is set in.
  induction h with
  | here => exact ⟨0, fun _ _ h => by simpa using h⟩
  | next _ ih => exact ih hp.next
  | @inset flat f body rest d q n _ ih =>
    obtain ⟨k, hk⟩ := ih hp.inset
    obtain ⟨l, hl⟩ := hung_inset hp.counted hp.mark flat (flat || f) body rest
    refine ⟨l + k, fun hne hf h => ?_⟩
    rw [Nat.add_assoc, Nat.add_assoc]
    exact hl hne hf (hk hne hf h)
  | @query flat body rest d q n hline _ ih =>
    obtain ⟨k, hk⟩ := ih hp.query
    obtain ⟨l, hl⟩ := hung_inset hp.counted hp.mark flat flat body rest
    refine ⟨l + k, fun hne hf h => ?_⟩
    rw [written, writeAll, write_query, if_neg (by simp [hline]), Nat.add_assoc, Nat.add_assoc]
    exact hl hne hf (hk hne hf h)
  | @elements flat part parts rest d q n _ ih =>
    have hwritten : written o ⟨flat, .elements (part :: parts) :: rest, d⟩ =
        written o ⟨flat, part ++ behind
          (if elementLimit < parts.length + 1 then some d.page.column else none) parts ++ rest,
            d⟩ := by
      rw [written, writeAll, write_elements, ← writeAll_append]
      rfl
    rw [hwritten]
    exact ih hp.elements

theorem Reaches.stands {o : Options} {low : Prop} {p q : Passage} {n : Nat} (h : Reaches o p q n)
    (hp : p.Fair o low) : ∃ k, ∀ {i c : Nat} {ls : List Text}, ls ≠ [] → (∀ t ∈ ls, Text.Firm t) →
      Hung low (q.written o).page.lines i c ls → (p.written o).text.Stands (n + i) (k + c) ls := by
  obtain ⟨k, hk⟩ := h.hung hp
  exact ⟨k, fun hne hf h => Draft.text_stands (hk hne hf h) hne hf⟩

end Passage

theorem text_of_formatTokens {o : Options} {tokens : List Token} {source out : Text}
    {items : List Item} (hcommand : isCommand (solid tokens) = false)
    (hitems : arrange o.nestingLimit o.nestingLimit .statement (solid tokens) = .ok items)
    (hout : formatTokens o tokens source = .ok out) :
    out = ((Passage.ofItems items).written o).text := by
  obtain ⟨hnil, rfl⟩ | ⟨-, -, -, items', hitems', rfl⟩ := formatTokens_ok hout hcommand
  · rw [hnil, Arrange.arrange_eq, Arrange.run] at hitems
    obtain rfl : [] = items := by simpa [Arrange.atEnd, Place.isOpen] using hitems
    rfl
  · obtain rfl : items = items' := by simpa [hitems] using hitems'
    rfl

end SqlLayout

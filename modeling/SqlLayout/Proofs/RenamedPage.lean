import SqlLayout.Layout.Write
import SqlLayout.Proofs.Renaming

/-! Items whose tokens are renamed in two ways make the same page, if the two are written alike. -/

set_option autoImplicit false

namespace SqlLayout

/-- Takes away every text that may change. -/
def Renaming.erase : Renaming where
  name t := if Text.sameLetters t "decode".toList then "decode".toList else []
  string _ := []
  comment _ := []
  decode t := by
    split
    · simp_all [Text.sameLetters]
    · simp_all [Text.sameLetters]

namespace Token

abbrev erase (t : Token) : Token := t.rename .erase

theorem erase_rename (g : Renaming) (t : Token) : (t.rename g).erase = t.erase := by
  cases t with
  | identifier t => simp only [erase, rename, Renaming.erase, g.decode]
  | _ => rfl

theorem spaced_rename (g g' : Renaming) (p q : Token) :
    (p.rename g).spaced (q.rename g') = p.spaced q := by
  cases p <;> cases q <;> rfl

theorem spaced_congr {p p' q q' : Token} (hp : p.erase = p'.erase) (hq : q.erase = q'.erase) :
    p.spaced q = p'.spaced q' := by
  have h := spaced_rename .erase .erase p q
  rw [show p.rename .erase = _ from hp, show q.rename .erase = _ from hq] at h
  rw [← h, spaced_rename]

theorem render_congr {o : Options} {flat : Bool} {p p' : Option Token} (t : Token)
    (hp : p.map erase = p'.map erase) : t.render o flat p = t.render o flat p' := by
  have hdot : ∀ {q : Option Token}, q.map erase = some .dot ↔ q = some .dot := by
    intro q
    cases q <;> simp [rename_eq_dot]
  cases t with
  | keyword k =>
    have hiff : p = some .dot ↔ p' = some .dot := by rw [← hdot, hp, hdot]
    simp only [render, hiff]
  | _ => rfl

end Token

theorem orElse_map {α β : Type} {f : α → β} {a b a' b' : Option α} (h : a.map f = b.map f)
    (h' : a'.map f = b'.map f) : (a <|> a').map f = (b <|> b').map f := by
  cases a <;> cases b <;> simp_all

structure Draft.Alike (d e : Draft) : Prop where
  page : d.page = e.page
  first : d.first.map Token.erase = e.first.map Token.erase
  last : d.last.map Token.erase = e.last.map Token.erase
  remarked : d.remarked = e.remarked

namespace Draft.Alike

variable {o : Options} {flat : Bool} {d e i j : Draft} {t u : Token}

theorem refl (d : Draft) : d.Alike d := ⟨rfl, rfl, rfl, rfl⟩

theorem spaceBefore (h : d.Alike e) (ht : t.erase = u.erase) :
    d.spaceBefore t = e.spaceBefore u := by
  have hneeds : needsSpace d.last t d.page.atLineStart = needsSpace e.last u e.page.atLineStart := by
    have hlast := h.last
    cases hd : d.last <;> cases he : e.last <;> simp_all [needsSpace, h.page]
    rw [Token.spaced_congr hlast ht]
  unfold Draft.spaceBefore
  rw [hneeds, h.page]

theorem word (h : d.Alike e) (ht : t.erase = u.erase)
    (hr : ∀ prev, t.render o flat prev = u.render o flat prev) :
    (d.word o flat t).Alike (e.word o flat u) where
  page := by
    simp only [Draft.word]
    rw [h.spaceBefore ht, hr, Token.render_congr u h.last]
  first := orElse_map h.first (by simp [ht])
  last := by simp [Draft.word, ht]
  remarked := h.remarked

theorem remark (h : d.Alike e) {t u : Text} (n : Nat)
    (hr : ∀ prev, (Token.lineComment t).render o flat prev =
      (Token.lineComment u).render o flat prev) :
    (d.remark o flat t n).Alike (e.remark o flat u n) where
  page := by
    simp only [Draft.remark]
    rw [hr, h.page]
    rfl
  first := orElse_map h.first rfl
  last := rfl
  remarked := rfl

theorem newline (h : d.Alike e) : d.newline.Alike e.newline :=
  ⟨by rw [Draft.newline, h.page]; rfl, h.first, h.last, h.remarked⟩

theorem startLine (h : d.Alike e) (n : Nat) : (d.startLine n).Alike (e.startLine n) :=
  ⟨by rw [Draft.startLine, h.page]; rfl, h.first, h.last, h.remarked⟩

theorem pushBelow (h : d.Alike e) (n : Nat) (lines : List Text) :
    Draft.Alike { d with page := d.page.pushBelow n lines }
      { e with page := e.page.pushBelow n lines } :=
  ⟨by rw [h.page], h.first, h.last, h.remarked⟩

theorem lines (h : d.Alike e) : d.lines = e.lines := by
  have hlast := h.last
  unfold Draft.lines
  rw [h.page]
  cases hd : d.last <;> cases he : e.last <;> simp_all
  rename_i t u
  cases t <;> cases u <;> simp_all [Token.rename]

theorem start (h : d.Alike e) (hi : i.Alike j) :
    (i.first.elim d.page fun t => d.spaceBefore t) =
      j.first.elim e.page fun t => e.spaceBefore t := by
  have hfirst := hi.first
  cases hd : i.first <;> cases he : j.first <;> simp_all [h.page]
  exact h.spaceBefore hfirst

theorem setIn (h : d.Alike e) (hi : i.Alike j) : (d.setIn i).Alike (e.setIn j) where
  page := by simp only [Draft.setIn]; rw [h.start hi, hi.lines]
  first := orElse_map h.first hi.first
  last := orElse_map hi.last h.last
  remarked := by simp [Draft.setIn, h.remarked, hi.remarked]

theorem setOnLine (h : d.Alike e) (hi : i.Alike j) : (d.setOnLine i).Alike (e.setOnLine j) where
  page := by simp only [Draft.setOnLine]; rw [h.start hi, hi.lines]
  first := orElse_map h.first hi.first
  last := orElse_map hi.last h.last
  remarked := by simp [Draft.setOnLine, h.remarked, hi.remarked]

theorem text (h : d.Alike e) : d.text = e.text := by
  have hlast : d.last = some .semicolon ↔ e.last = some .semicolon := by
    have hlast := h.last
    have hsemi : ∀ t : Token, t.erase = .semicolon ↔ t = .semicolon := fun t => by
      cases t <;> simp [Token.rename]
    cases hd : d.last <;> cases he : e.last <;> simp_all
    rw [← hsemi, hlast, hsemi]
  unfold Draft.text
  simp only [h.page, hlast]

end Draft.Alike

def WrittenAlike (o : Options) (g g' : Renaming) (m : Bool × Token) : Prop :=
  ∀ prev, (m.2.rename g).render o m.1 prev = (m.2.rename g').render o m.1 prev

section

variable {o : Options} {g g' : Renaming}

theorem WrittenAlike.word {flat : Bool} {t : Token} (h : WrittenAlike o g g' (flat, t))
    {d e : Draft} (hd : d.Alike e) :
    (d.word o flat (t.rename g)).Alike (e.word o flat (t.rename g')) :=
  hd.word (by rw [Token.erase_rename, Token.erase_rename]) h

mutual

theorem write_alike : ∀ (i : Item) (flat : Bool) {d e : Draft},
    (∀ m ∈ i.marked flat, WrittenAlike o g g' m) → d.Alike e →
    ((i.rename g).write o flat d).Alike ((i.rename g').write o flat e)
  | .word t, flat, d, e, hm, hd => by
    simp only [Item.rename, Item.write]
    exact (hm (flat, t) (by simp [Item.marked])).word hd
  | .remark t n, flat, d, e, hm, hd => by
    simp only [Item.rename, Item.write]
    exact hd.remark n (hm (flat, .lineComment t) (by simp [Item.marked]))
  | .newline, _, _, _, _, hd => hd.newline
  | .startLine n, _, _, _, _, hd => hd.startLine n
  | .inset f body, flat, d, e, hm, hd => by
    simp only [Item.rename, Item.write]
    exact hd.setIn (writeAll_alike body (flat || f) hm (.refl .blank))
  | .query body, flat, d, e, hm, hd => by
    have hbody := writeAll_alike body flat hm (.refl .blank)
    simp only [Item.rename, Item.write]
    rw [hbody.page, hbody.remarked]
    split
    · exact hd.setOnLine hbody
    · exact hd.setIn hbody
  | .elements [], _, _, _, _, hd => by
    simpa [Item.rename, Item.renameParts, Item.write] using hd
  | .elements (part :: rest), flat, d, e, hm, hd => by
    have hparts : ∀ q ∈ part :: rest, ∀ m ∈ Item.allMarked flat q, WrittenAlike o g g' m :=
      fun q hq m h => hm m (Item.allMarked_subset flat hq h)
    have hpart := writeAll_alike part flat (hparts part (by simp)) hd
    have hlength : ∀ f : Renaming, (Item.renameAll f part :: Item.renameParts f rest).length =
        (part :: rest).length := fun f => by simp [Item.renameParts_eq]
    simp only [Item.rename, Item.renameParts, Item.write, hlength, hd.page]
    exact writeElements_alike rest flat _ (fun q hq => hparts q (by simp [hq])) hpart
  | .definitions parts, flat, d, e, hm, hd => by
    have hdefs := readDefinitions_alike parts flat fun q hq m h =>
      hm m (by simp [Item.marked, Item.allMarked_subset flat hq h])
    have hopen : ((d.startLine 0).word o flat .openParen).Alike
        ((e.startLine 0).word o flat .openParen) := (hd.startLine 0).word rfl fun _ => rfl
    simp only [Item.rename, Item.write, hdefs]
    exact ((hopen.pushBelow 0 _).startLine 0).word rfl fun _ => rfl

theorem writeAll_alike : ∀ (items : List Item) (flat : Bool) {d e : Draft},
    (∀ m ∈ Item.allMarked flat items, WrittenAlike o g g' m) → d.Alike e →
    (writeAll o flat (Item.renameAll g items) d).Alike (writeAll o flat (Item.renameAll g' items) e)
  | [], _, _, _, _, hd => by simpa [writeAll] using hd
  | i :: rest, flat, d, e, hm, hd => by
    simp only [Item.renameAll_cons, writeAll]
    exact writeAll_alike rest flat (fun m h => hm m (by simp [Item.allMarked, h]))
      (write_alike i flat (fun m h => hm m (by simp [Item.allMarked, h])) hd)

theorem writeElements_alike : ∀ (parts : List (List Item)) (flat : Bool) (wrap : Option Nat)
    {d e : Draft}, (∀ part ∈ parts, ∀ m ∈ Item.allMarked flat part, WrittenAlike o g g' m) →
    d.Alike e → (writeElements o flat wrap (Item.renameParts g parts) d).Alike
      (writeElements o flat wrap (Item.renameParts g' parts) e)
  | [], _, _, _, _, _, hd => by simpa [Item.renameParts, writeElements] using hd
  | part :: rest, flat, wrap, d, e, hm, hd => by
    have hcomma : (d.word o flat .comma).Alike (e.word o flat .comma) := hd.word rfl fun _ => rfl
    simp only [Item.renameParts, writeElements]
    refine writeElements_alike rest flat wrap (fun q hq => hm q (by simp [hq])) ?_
    refine writeAll_alike part flat (hm part (by simp)) ?_
    cases wrap with
    | none => exact hcomma
    | some n => exact hcomma.startLine n

theorem readDefinitions_alike : ∀ (parts : List (List Item)) (flat : Bool),
    (∀ part ∈ parts, ∀ m ∈ Item.allMarked flat part, WrittenAlike o g g' m) →
    readDefinitions o flat (Item.renameParts g parts) =
      readDefinitions o flat (Item.renameParts g' parts)
  | [], _, _ => rfl
  | [] :: rest, flat, hm => by
    have hrest := readDefinitions_alike rest flat fun q hq => hm q (by simp [hq])
    simpa [Item.renameParts, readDefinitions] using hrest
  | (name :: more) :: rest, flat, hm => by
    have hrest := readDefinitions_alike rest flat fun q hq => hm q (by simp [hq])
    have hpart := hm (name :: more) (by simp)
    have hname := write_alike name flat (fun m h => hpart m (by simp [Item.allMarked, h]))
      (.refl .blank)
    have hmore := writeAll_alike more flat (fun m h => hpart m (by simp [Item.allMarked, h]))
      (.refl .blank)
    simp only [Item.renameParts, Item.renameAll_cons, readDefinitions, hname.lines, hmore.lines,
      hrest]

end

end

end SqlLayout

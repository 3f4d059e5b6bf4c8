import SqlLayout.Proofs.Laid
import SqlLayout.Proofs.Passages

/-! Where definitions stand. They belong to an object that is created, so a keyword was written on
their page before them, and they never begin on its first line.
-/

set_option autoImplicit false

namespace SqlLayout

open Item

namespace Item

def isKeyword : Item → Bool
  | .word (.keyword _) => true
  | _ => false

mutual

def Behind (seen : Bool) : Item → Prop
  | .word _ | .remark _ _ | .newline | .startLine _ => True
  | .inset _ body | .query body => AllBehind false body
  | .elements parts => PartsBehind parts
  | .definitions _ => seen = true

def AllBehind (seen : Bool) : List Item → Prop
  | [] => True
  | i :: rest => i.Behind seen ∧ AllBehind (seen || i.isKeyword) rest

def PartsBehind : List (List Item) → Prop
  | [] => True
  | part :: rest => AllBehind false part ∧ PartsBehind rest

end

variable {seen : Bool} {a b items : List Item}

theorem allBehind_append : AllBehind seen (a ++ b) ↔
    AllBehind seen a ∧ AllBehind (seen || a.any isKeyword) b := by
  induction a generalizing seen with
  | nil => simp [AllBehind]
  | cons i a ih => simp [AllBehind, ih, and_assoc, Bool.or_assoc]

theorem AllBehind.mono {old new : Bool} (h : AllBehind old items)
    (hle : old = true → new = true) : AllBehind new items := by
  induction items generalizing old new with
  | nil => trivial
  | cons i items ih =>
    refine ⟨?_, ih h.2 (by simpa using fun ho => ho.imp_left hle)⟩
    cases i <;> first | exact h.1 | exact hle h.1

theorem allBehind_echo (seen : Bool) (indent : Nat) (ts : List Token) :
    AllBehind seen (echo indent ts) := by
  induction ts generalizing seen with
  | nil => trivial
  | cons t ts ih => cases t <;> exact ⟨trivial, ih _⟩

theorem allBehind_breaks (h : ∀ i ∈ items, i.isBreak = true) (seen : Bool) :
    AllBehind seen items := by
  induction items generalizing seen with
  | nil => trivial
  | cons i items ih =>
    have hi := h i (by simp)
    refine ⟨?_, ih (fun j hj => h j (by simp [hj])) _⟩
    cases i <;> simp_all [isBreak, Behind]

theorem partsBehind_map {f : List Token → List Item} (h : ∀ part, AllBehind false (f part))
    (parts : List (List Token)) : PartsBehind (parts.map f) := by
  induction parts with
  | nil => trivial
  | cons part parts ih => exact ⟨h part, ih⟩

theorem allBehind_behind {parts : List (List Item)} (h : PartsBehind parts) (wrap : Option Nat)
    (seen : Bool) : AllBehind seen (behind wrap parts) := by
  induction parts generalizing seen with
  | nil => trivial
  | cons part parts ih =>
    have hstart : ∀ seen, AllBehind seen (wrap.elim [] fun n => [.startLine n]) := by
      intro seen
      cases wrap <;> simp [AllBehind, Behind]
    rw [behind, List.flatMap_cons, List.cons_append]
    refine ⟨trivial, allBehind_append.2 ⟨allBehind_append.2 ⟨hstart _, ?_⟩, ih h.2 _⟩⟩
    exact h.1.mono (by simp)

end Item

namespace Place

/-- What a step at `p` leads to: only the brackets of an object that is created hold columns, and
its place is entered with a keyword. -/
inductive Creates (p : Place) : Action → Prop where
  | write {items : List Item} {next : Place}
      (h : next = .createObject → p = .createObject ∨ ∃ k, items = [.word (.keyword k)]) :
      Creates p (.write items next)
  | openBracket {b : Bracket} {next : Place} (h : next = .createObject → p = .createObject)
      (hb : b = .columns → p = .createObject) : Creates p (.openBracket b next)
  | openCase {next : Place} (h : next = .createObject → p = .createObject) :
      Creates p (.openCase next)
  | finish {items : List Item} : Creates p (.finish items)

theorem behindKeyword_ne_createObject (k : Keyword) : behindKeyword k ≠ .createObject := by
  cases k <;> simp [behindKeyword]

theorem Step.creates {p : Place} {before : List Token} {t : Token} {a : Action}
    (h : Step before p t a) : Creates p a := by
  induction h with
  | decode => exact .openBracket id (by simp)
  | expression => exact .openBracket id (by simp)
  | word => exact .write .inl
  | case => exact .openCase id
  | handed _ _ _ ih =>
    cases ih with
    | write h => exact .write fun hn => .inr ((h hn).resolve_left (by simp))
    | openBracket h hb =>
      exact .openBracket (fun hn => absurd (h hn) (by simp)) fun hc => absurd (hb hc) (by simp)
    | openCase h => exact .openCase fun hn => absurd (h hn) (by simp)
    | finish => exact .finish
  | clause => exact .write fun h => absurd h (behindKeyword_ne_createObject _)
  | object => exact .write fun _ => .inr ⟨_, rfl⟩
  | columns => exact .openBracket (by simp) (by simp)
  | targets | row | indexColumns => exact .openBracket (by simp) (by simp)
  | finish => exact .finish
  | _ => exact .write (by simp)

theorem creates_action (p : Place) (before : List Token) (t : Token) (rest : List Token) :
    Creates p (p.action before t rest) :=
  (step_action p before t rest).creates

end Place

namespace Arrange

def NestedBehind (nested : Nested) : Prop :=
  ∀ {p : Place} {ts : List Token} {body : List Item}, Starts p [] ts → p ≠ .createObject →
    nested p ts = .ok body → AllBehind false body

variable {nested : Nested}

theorem NestedBehind.inset (hn : NestedBehind nested) {p : Place} {ts : List Token}
    (hs : Starts p [] ts) (hp : p ≠ .createObject) (flat : Bool) (indent : Nat) :
    AllBehind false (inset nested flat p indent ts) := by
  unfold Arrange.inset
  split
  · rename_i body hb
    exact ⟨hn hs hp hb, trivial⟩
  · exact allBehind_echo false indent ts

theorem NestedBehind.query (hn : NestedBehind nested) (indent : Nat) (ts : List Token) :
    AllBehind false (query nested indent ts) := by
  unfold Arrange.query
  split
  · rename_i body hb
    exact ⟨hn (by simp [Starts]) (by simp) hb, trivial⟩
  · exact allBehind_echo false indent ts

theorem NestedBehind.bracket (hn : NestedBehind nested) {b : Bracket} {seen : Bool}
    (hb : b = .columns → seen = true) (indent : Nat) (before ts : List Token) :
    AllBehind seen (bracket nested b indent before ts) := by
  have hround : ∀ {l : List Item}, AllBehind false l → AllBehind seen (opening :: l ++ [closing]) :=
    fun h => ⟨trivial, allBehind_append.2 ⟨h.mono (by simp), trivial, trivial⟩⟩
  have hinline : ∀ part, AllBehind false (Arrange.inset nested false .inline indent part) :=
    fun part => hn.inset (by simp [Starts]) (by simp) false indent
  have hform := form_bracket nested b indent before ts
  generalize Arrange.bracket nested b indent before ts = items at hform ⊢
  cases hform with
  | query => exact hround (hn.query indent ts)
  | elements => exact hround (l := [_]) ⟨partsBehind_map hinline _, trivial⟩
  | «inline» => exact hround (hinline ts)
  | pairs => exact hround (hn.inset (p := .pairs 0) (by simp [Starts]) (by simp) true indent)
  | empty => exact hround (l := []) trivial
  | lines =>
    have hbody : AllBehind false (Arrange.inset nested false .block indent ts) :=
      hn.inset (by simp [Starts]) (by simp) false indent
    exact ⟨trivial, trivial, trivial, allBehind_append.2 ⟨hbody.mono (by simp), trivial, trivial,
      trivial⟩⟩
  | definitions hc => exact ⟨hb hc, trivial⟩

theorem allBehind_written {p next : Place} {before : List Token} {t : Token} {items : List Item}
    (hr : p.Reads before t (.write items next)) (seen : Bool) : AllBehind seen items := by
  cases hr with
  | write hs hf =>
    refine allBehind_append.2 ⟨allBehind_append.2 ⟨?_, allBehind_echo _ _ _⟩, allBehind_breaks hf _⟩
    rcases hs with rfl | rfl | ⟨-, n, rfl⟩
    · trivial
    · exact ⟨trivial, trivial⟩
    · exact ⟨trivial, trivial⟩

/-- Where a run may meet the columns of an object, a keyword was seen before it or is written. -/
theorem allBehind_run (hn : NestedBehind nested) {p : Place} {before ts : List Token}
    {items : List Item} {seen : Bool} (hs : Starts p before ts)
    (hp : p = .createObject → seen = true) (h : run nested p before ts = .ok items) :
    AllBehind seen items := by
  fun_induction run nested p before ts generalizing items seen with
  | case1 p before =>
    unfold atEnd at h
    split at h
    · cases h
    · obtain rfl := Except.ok.inj h
      trivial
  | case2 p before t rest its next ha ih =>
    obtain ⟨more, hm, rfl⟩ := map_eq_ok h
    have hr := ha ▸ hs.reads
    refine allBehind_append.2 ⟨allBehind_written hr seen, ih (.next hr rfl) (fun hc => ?_) hm⟩
    -- the place of an object is entered with a keyword, which is then on the page
    cases ha ▸ Place.creates_action p before t rest with
    | write hw =>
      rcases hw hc with hp' | ⟨k, rfl⟩
      · simp [hp hp']
      · simp [isKeyword]
  | case3 => cases h
  | case4 p before t rest b next ha inner after hg _ ih =>
    obtain ⟨more, hm, rfl⟩ := map_eq_ok h
    have hr := ha ▸ hs.reads
    cases ha ▸ Place.creates_action p before t rest with
    | openBracket hnext hb =>
      refine allBehind_append.2 ⟨hn.bracket (fun hc => hp (hb hc)) _ _ _, ih (.next hr rfl)
        (fun hc => ?_) hm⟩
      simp [hp (hnext hc)]
  | case5 p before t rest next ha =>
    obtain ⟨more, hm, rfl⟩ := map_eq_ok h
    unfold atEnd at hm
    split at hm
    · cases hm
    · obtain rfl := Except.ok.inj hm
      exact ⟨trivial, by simpa using allBehind_echo _ _ _⟩
  | case6 p before t rest next ha inner after hc _ ih =>
    obtain ⟨more, hm, rfl⟩ := map_eq_ok h
    have hr := ha ▸ hs.reads
    obtain rfl := hr.eq_case
    cases ha ▸ Place.creates_action p before (.keyword .CASE) rest with
    | openCase hnext =>
      have hcase : AllBehind false
          (inset nested true .caseHead p.indent (.keyword .CASE :: inner)) :=
        hn.inset (fun _ => ⟨rfl, inner, rfl⟩) (by simp) true p.indent
      refine allBehind_append.2 ⟨hcase.mono (by simp), ih (.next hr rfl) (fun hc => ?_) hm⟩
      simp [hp (hnext hc)]
  | case7 p before t rest its ha =>
    obtain rfl := Except.ok.inj h
    have hr := ha ▸ hs.reads
    cases hr with
    | finish => exact ⟨trivial, trivial, trivial⟩

end Arrange

open Arrange in
theorem nestedBehind_arrange (limit room : Nat) : NestedBehind (arrange limit room) := by
  apply arrange_induction (motive := NestedBehind)
  case deep => exact fun _ _ h => by cases h
  case run => exact fun hn _ _ _ hs hp hb => allBehind_run hn hs (fun hc => absurd hc hp) hb

theorem Page.keeps_inked : Keeps (fun _ => True) fun p => 0 < p.ink :=
  ⟨fun _ h => Nat.lt_add_right _ h, fun h => h, fun n h => by rwa [ink_startLine]⟩

namespace Passage

def Behind (p : Passage) : Prop :=
  ∃ seen, AllBehind seen p.items ∧ (seen = true → 0 < p.draft.page.ink)

variable {o : Options} {flat : Bool} {i : Item} {rest : List Item} {d : Draft}

theorem Behind.next (h : Behind ⟨flat, i :: rest, d⟩) : Behind ⟨flat, rest, i.write o flat d⟩ := by
  obtain ⟨seen, ⟨-, hrest⟩, hink⟩ := h
  refine ⟨_, hrest, fun hs => ?_⟩
  rcases Bool.or_eq_true_iff.1 hs with hs | hi
  · exact keeps_write Text.lasting_true i flat Page.keeps_inked (fun _ _ _ => trivial) (hink hs)
  · obtain ⟨k, rfl⟩ : ∃ k, i = .word (.keyword k) := by
      unfold isKeyword at hi
      split at hi
      · exact ⟨_, rfl⟩
      · cases hi
    have hsolid := (Token.Tidy.solid (t := .keyword k) trivial rfl o flat d.last).firm.ends
    obtain ⟨a, c, hr, hc⟩ := hsolid
    have hone : Text.ink [c] = 1 := by simp [Text.ink, hc]
    rw [Item.write, Draft.ink_word, hr, Text.ink_append, hone]
    omega

theorem Behind.elements {part : List Item} {parts : List (List Item)} {wrap : Option Nat}
    (h : Behind ⟨flat, .elements (part :: parts) :: rest, d⟩) :
    Behind ⟨flat, part ++ behind wrap parts ++ rest, d⟩ := by
  obtain ⟨seen, ⟨hparts, hrest⟩, hink⟩ := h
  refine ⟨seen, allBehind_append.2 ⟨allBehind_append.2 ⟨hparts.1.mono (by simp), ?_⟩, ?_⟩, hink⟩
  · exact allBehind_behind hparts.2 wrap _
  · exact hrest.mono (by simp_all [isKeyword])

theorem Reaches.behind {p q : Passage} {n : Nat} (h : Reaches o p q n) (hp : p.Behind) :
    q.Behind := by
  induction h with
  | here => exact hp
  | next _ ih => exact ih hp.next
  | inset _ ih =>
    obtain ⟨_, ⟨hbody, -⟩, -⟩ := hp
    exact ih ⟨false, hbody, by simp⟩
  | query _ _ ih =>
    obtain ⟨_, ⟨hbody, -⟩, -⟩ := hp
    exact ih ⟨false, hbody, by simp⟩
  | elements _ ih => exact ih hp.elements

/-- Definitions do not begin on the first line of their page. -/
theorem Behind.inked {parts : List (List Item)} (h : Behind ⟨flat, .definitions parts :: rest, d⟩) :
    0 < d.page.ink := by
  obtain ⟨_, ⟨hseen, -⟩, hink⟩ := h
  exact hink hseen

theorem behind_arrange {limit room : Nat} {ts : List Token} {items : List Item}
    (h : arrange limit room .statement ts = .ok items) : (ofItems items).Behind :=
  ⟨false, nestedBehind_arrange limit room (by simp [Arrange.Starts]) (by simp) h, by simp⟩

end Passage

end SqlLayout

import SqlLayout.Layout.Arrange
import SqlLayout.Proofs.Line
import SqlLayout.Proofs.Nesting
import SqlLayout.Proofs.Reading

/-! How a run takes its tokens apart. Every property of arrangements is an induction on this.
Two come at once: outside a `CASE` a run fails only at a bracket that does not close, and what it
gives writes some of the tokens, in order.
-/

set_option autoImplicit false

namespace SqlLayout

namespace Item

mutual

def marked (flat : Bool) : Item → List (Bool × Token)
  | .word t => [(flat, t)]
  | .remark t _ => [(flat, .lineComment t)]
  | .newline | .startLine _ => []
  | .inset f body => allMarked (flat || f) body
  | .query body => allMarked flat body
  | .elements parts => partMarked flat parts
  | .definitions parts => (flat, .openParen) :: partMarked flat parts ++ [(flat, .closeParen)]

def allMarked (flat : Bool) : List Item → List (Bool × Token)
  | [] => []
  | i :: rest => i.marked flat ++ allMarked flat rest

def partMarked (flat : Bool) : List (List Item) → List (Bool × Token)
  | [] => []
  | [part] => allMarked flat part
  | part :: rest => allMarked flat part ++ (flat, .comma) :: partMarked flat rest

end

mutual

theorem map_marked (flat : Bool) : ∀ i : Item, (i.marked flat).map Prod.snd = i.tokens
  | .word _ | .remark _ _ | .newline | .startLine _ => rfl
  | .inset f body => by simpa [marked, tokens] using map_allMarked (flat || f) body
  | .query body => by simpa [marked, tokens] using map_allMarked flat body
  | .elements parts => by simpa [marked, tokens] using map_partMarked flat parts
  | .definitions parts => by simpa [marked, tokens] using map_partMarked flat parts

theorem map_allMarked (flat : Bool) : ∀ items : List Item,
    (allMarked flat items).map Prod.snd = allTokens items
  | [] => rfl
  | i :: rest => by
    simp [allMarked, allTokens, map_marked flat i, map_allMarked flat rest]

theorem map_partMarked (flat : Bool) : ∀ parts : List (List Item),
    (partMarked flat parts).map Prod.snd = partTokens parts
  | [] => rfl
  | [part] => by simp [partMarked, partTokens, map_allMarked flat part]
  | part :: next :: rest => by
    simp [partMarked, partTokens, map_allMarked flat part, map_partMarked flat (next :: rest)]

end

theorem allMarked_append (flat : Bool) (a b : List Item) :
    allMarked flat (a ++ b) = allMarked flat a ++ allMarked flat b := by
  induction a with
  | nil => rfl
  | cons i a ih => simp [allMarked, ih]

theorem allMarked_echo (flat : Bool) (indent : Nat) (ts : List Token) :
    allMarked flat (echo indent ts) = ts.map (flat, ·) := by
  induction ts with
  | nil => rfl
  | cons t ts ih => cases t <;> simp_all [echo, allMarked, marked]

theorem partMarked_eq (flat : Bool) (parts : List (List Item)) :
    partMarked flat parts = [(flat, .comma)].intercalate (parts.map (allMarked flat)) := by
  induction parts with
  | nil => rfl
  | cons part parts ih => cases parts <;> simp_all [partMarked]

theorem allMarked_subset (flat : Bool) {part : List Item} {parts : List (List Item)}
    (h : part ∈ parts) : allMarked flat part ⊆ partMarked flat parts := by
  rw [partMarked_eq]
  exact (infix_intercalate (List.mem_map_of_mem h)).subset

theorem allMarked_breaks (flat : Bool) {items : List Item} (h : ∀ i ∈ items, i.isBreak = true) :
    allMarked flat items = [] := by
  induction items with
  | nil => rfl
  | cons i items ih =>
    have hi := h i (by simp)
    rw [allMarked, ih (fun j hj => h j (by simp [hj]))]
    cases i <;> simp_all [isBreak, marked]

mutual

/-- A line comment is always a remark, and there is none among definitions. -/
def Proper : Item → Prop
  | .word t => t.isRemark = false
  | .remark _ _ | .newline | .startLine _ => True
  | .inset _ body | .query body => AllProper body
  | .elements parts => PartsProper parts
  | .definitions parts => PartsProper parts ∧ ∀ t ∈ partTokens parts, t.isRemark = false

def AllProper : List Item → Prop
  | [] => True
  | i :: rest => i.Proper ∧ AllProper rest

def PartsProper : List (List Item) → Prop
  | [] => True
  | part :: rest => AllProper part ∧ PartsProper rest

end

theorem allProper_append {a b : List Item} : AllProper (a ++ b) ↔ AllProper a ∧ AllProper b := by
  induction a with
  | nil => simp [AllProper]
  | cons i a ih => simp [AllProper, ih, and_assoc]

theorem allProper_echo (indent : Nat) (ts : List Token) : AllProper (echo indent ts) := by
  induction ts with
  | nil => trivial
  | cons t ts ih => cases t <;> exact ⟨by simp [Proper, Token.isRemark], ih⟩

theorem allProper_breaks {items : List Item} (h : ∀ i ∈ items, i.isBreak = true) :
    AllProper items := by
  induction items with
  | nil => trivial
  | cons i items ih =>
    have hi := h i (by simp)
    refine ⟨?_, ih (fun j hj => h j (by simp [hj]))⟩
    cases i <;> simp_all [isBreak, Proper]

theorem allTokens_breaks {items : List Item} (h : ∀ i ∈ items, i.isBreak = true) :
    allTokens items = [] := by
  rw [← map_allMarked false, allMarked_breaks false h]
  rfl

end Item

/-- Some of the tokens, in order and each at most once. Where any are missing an `END` is. -/
structure Kept (ts us : List Token) : Prop where
  sublist : us.Sublist ts
  whole : us = ts ∨ us.count (.keyword .END) < ts.count (.keyword .END)

namespace Kept

variable {ts ts' us us' : List Token}

theorem all (ts : List Token) : Kept ts ts := ⟨.refl ts, .inl rfl⟩

theorem append (h : Kept ts us) (h' : Kept ts' us') : Kept (ts ++ ts') (us ++ us') where
  sublist := h.sublist.append h'.sublist
  whole := by
    have hle := h.sublist.count_le (.keyword .END)
    have hle' := h'.sublist.count_le (.keyword .END)
    simp only [List.count_append]
    rcases h.whole with rfl | hlt
    · rcases h'.whole with rfl | hlt'
      · exact .inl rfl
      · right; omega
    · right; omega

end Kept

/-- The items write some of the tokens in the proper form. -/
structure Sane (ts : List Token) (items : List Item) : Prop where
  kept : Kept ts (Item.allTokens items)
  proper : Item.AllProper items

namespace Sane

variable {ts us : List Token} {items more : List Item}

theorem mem_of_marked (h : Sane ts items) (flat : Bool) {m : Bool × Token}
    (hm : m ∈ Item.allMarked flat items) : m.2 ∈ ts :=
  h.kept.sublist.mem (Item.map_allMarked flat items ▸ List.mem_map_of_mem hm)

theorem nil : Sane [] [] := ⟨.all [], trivial⟩

theorem append (h : Sane ts items) (h' : Sane us more) : Sane (ts ++ us) (items ++ more) :=
  ⟨by simpa using h.kept.append h'.kept, Item.allProper_append.2 ⟨h.proper, h'.proper⟩⟩

theorem echo (indent : Nat) (ts : List Token) : Sane ts (Item.echo indent ts) :=
  ⟨by simpa using Kept.all ts, Item.allProper_echo indent ts⟩

theorem breaks (h : ∀ i ∈ items, i.isBreak = true) : Sane [] items :=
  ⟨by simpa [Item.allTokens_breaks h] using Kept.all [], Item.allProper_breaks h⟩

theorem word {t : Token} (h : t.isRemark = false) : Sane [t] [.word t] :=
  ⟨.all [t], h, trivial⟩

theorem brackets (h : Sane ts items) :
    Sane (.openParen :: ts ++ [.closeParen]) (Arrange.opening :: items ++ [Arrange.closing]) :=
  ((word rfl).append h).append (word rfl)

theorem parts {f : List Token → List Item} {parts : List (List Token)}
    (h : ∀ part ∈ parts, Sane part (f part)) :
    Kept ([Token.comma].intercalate parts) (Item.partTokens (parts.map f)) ∧
      Item.PartsProper (parts.map f) := by
  induction parts with
  | nil => exact ⟨.all [], trivial⟩
  | cons part parts ih =>
    have hp := h part (by simp)
    obtain ⟨hkept, hprop⟩ := ih (fun q hq => h q (by simp [hq]))
    refine ⟨?_, hp.proper, hprop⟩
    cases parts with
    | nil => simpa [Item.partTokens] using hp.kept
    | cons next parts =>
      simpa [Item.partTokens] using hp.kept.append ((Kept.all [.comma]).append hkept)

end Sane

namespace Arrange

section Steps

variable {nested : Nested} {p next : Place} {before r inner after : List Token} {t : Token}

theorem run_write {items : List Item} (ha : p.action before t r = .write items next) :
    run nested p before (t :: r) = (run nested next (t :: before) r).map (items ++ ·) := by
  rw [run, ha]

theorem run_openBracket {b : Bracket} (ha : p.action before t r = .openBracket b next)
    (hg : group 0 r = .ok (inner, after)) :
    run nested p before (t :: r) =
      (run nested next (.closeParen :: (inner.reverse ++ t :: before)) after).map
        (bracket nested b p.indent before inner ++ ·) := by
  rw [run, ha]
  simp only
  split
  · simp_all
  · rename_i i a h
    obtain ⟨rfl, rfl⟩ : inner = i ∧ after = a := by simpa [hg] using h
    rfl

theorem run_openCase (ha : p.action before t r = .openCase next)
    (hc : caseEnd? 0 r = some (inner, after)) :
    run nested p before (t :: r) =
      (run nested next (inner.reverse ++ t :: before) after).map
        (inset nested true .caseHead p.indent (t :: inner) ++ ·) := by
  rw [run, ha]
  simp only
  split
  · simp_all
  · rename_i i a h
    obtain ⟨rfl, rfl⟩ : inner = i ∧ after = a := by simpa [hc] using h
    rfl

theorem run_finish {items : List Item} (ha : p.action before t r = .finish items) :
    run nested p before (t :: r) = .ok items := by
  rw [run, ha]

theorem run_unclosed {b : Bracket} (ha : p.action before t r = .openBracket b next)
    {e : FormatError} (hg : group 0 r = .error e) : run nested p before (t :: r) = .error e := by
  rw [run, ha]
  simp only
  split <;> simp_all

theorem run_looseCase (ha : p.action before t r = .openCase next) (hc : caseEnd? 0 r = none) :
    run nested p before (t :: r) =
      (atEnd next).map (.word t :: Item.echo p.indent r ++ ·) := by
  rw [run, ha]
  simp only
  split
  · rfl
  · simp_all

end Steps

/-- How a run that succeeds takes the tokens apart, one clause for each kind of step. -/
inductive Arranged (nested : Nested) : Place → List Token → List Token → List Item → Prop where
  | done {p : Place} {before : List Token} (hp : p.isOpen = false) : Arranged nested p before [] []
  | token {p next : Place} {before rest : List Token} {t : Token} {items more : List Item}
      (hr : p.Reads before t (.write items next)) (h : Arranged nested next (t :: before) rest more) :
      Arranged nested p before (t :: rest) (items ++ more)
  | bracket {p next : Place} {before rest inner after : List Token} {b : Bracket} {more : List Item}
      (hr : p.Reads before .openParen (.openBracket b next)) (hg : group 0 rest = .ok (inner, after))
      (h : Arranged nested next (.closeParen :: (inner.reverse ++ .openParen :: before)) after more) :
      Arranged nested p before (.openParen :: rest)
        (Arrange.bracket nested b p.indent before inner ++ more)
  | looseCase {p : Place} {before rest : List Token} (hp : p.isOpen = false)
      (hc : caseEnd? 0 rest = none) :
      Arranged nested p before (.keyword .CASE :: rest)
        (.word (.keyword .CASE) :: Item.echo p.indent rest)
  | caseEnd {p next : Place} {before rest inner after : List Token} {more : List Item}
      (hr : p.Reads before (.keyword .CASE) (.openCase next))
      (hc : caseEnd? 0 rest = some (inner, after))
      (h : Arranged nested next (inner.reverse ++ .keyword .CASE :: before) after more) :
      Arranged nested p before (.keyword .CASE :: rest)
        (inset nested true .caseHead p.indent (.keyword .CASE :: inner) ++ more)
  | finish {before rest : List Token} :
      Arranged nested .branches before (.keyword .END :: rest)
        [.startLine 0, .word (.keyword .END)]

def Starts (p : Place) (before ts : List Token) : Prop :=
  p = .caseHead → before = [] ∧ ∃ rest, ts = .keyword .CASE :: rest

theorem Starts.reads {p : Place} {before rest : List Token} {t : Token}
    (hs : Starts p before (t :: rest)) : p.Reads before t (p.action before t rest) :=
  Place.reads_action (fun hp => by
    obtain ⟨hb, _, he⟩ := hs hp
    exact ⟨hb, by simp_all⟩) rest

theorem Starts.next {p next : Place} {before before' ts : List Token} {t : Token} {a : Action}
    (hr : p.Reads before t a) (hn : Place.nextPlace a = some next) : Starts next before' ts :=
  fun h => absurd h (hr.next_ne hn)

theorem arranged_of_run {nested : Nested} {p : Place} {before ts : List Token} {items : List Item}
    (hs : Starts p before ts) (h : run nested p before ts = .ok items) :
    Arranged nested p before ts items := by
  fun_induction run nested p before ts generalizing items with
  | case1 p before =>
    unfold atEnd at h
    split at h
    · simp at h
    · rename_i hp
      injection h with h
      subst h
      exact .done (by simpa using hp)
  | case2 p before t rest its next ha ih =>
    obtain ⟨more, hm, rfl⟩ := map_eq_ok h
    have hr := ha ▸ hs.reads
    exact .token hr (ih (.next hr rfl) hm)
  | case3 => simp at h
  | case4 p before t rest b next ha inner after hg _ ih =>
    obtain ⟨more, hm, rfl⟩ := map_eq_ok h
    have hr := ha ▸ hs.reads
    obtain rfl := hr.eq_openParen
    exact .bracket hr hg (ih (.next hr rfl) hm)
  | case5 p before t rest next ha hc =>
    obtain ⟨more, hm, rfl⟩ := map_eq_ok h
    have hr := ha ▸ hs.reads
    obtain rfl := hr.eq_case
    have ho := hr.isOpen_next rfl
    unfold atEnd at hm
    split at hm
    · simp at hm
    · rename_i hp
      injection hm with hm
      subst hm
      simpa using Arranged.looseCase (by simpa [ho] using hp) hc
  | case6 p before t rest next ha inner after hc _ ih =>
    obtain ⟨more, hm, rfl⟩ := map_eq_ok h
    have hr := ha ▸ hs.reads
    obtain rfl := hr.eq_case
    exact .caseEnd hr hc (ih (.next hr rfl) hm)
  | case7 p before t rest its ha =>
    injection h with h
    subst h
    have hr := ha ▸ hs.reads
    cases hr with
    | finish hp ht =>
      subst hp ht
      exact .finish

theorem allMarked_written {p next : Place} {before : List Token} {t : Token} {items : List Item}
    (hr : p.Reads before t (.write items next)) (flat : Bool) :
    Item.allMarked flat items = [(flat, t)] := by
  cases hr with
  | @write start _ _ _ hs hf =>
    have hstart : Item.allMarked flat start = [] := by
      rcases hs with rfl | rfl | ⟨-, n, rfl⟩ <;> rfl
    simp [Item.allMarked_append, hstart, Item.allMarked_echo, Item.allMarked_breaks flat hf]

/-- Outside a `CASE`, tokens whose brackets close can be arranged, however their inside fares. -/
theorem run_of_closes {nested : Nested} {p : Place} {before ts : List Token}
    (hp : p.isOpen = false) (hc : Closes ts) : ∃ items, run nested p before ts = .ok items := by
  have hstart : Starts p before ts := by rintro rfl; simp [Place.isOpen] at hp
  fun_induction run nested p before ts with
  | case1 p before => exact ⟨[], by simp [atEnd, hp]⟩
  | case2 p before t rest its next ha ih =>
    have hr := ha ▸ hstart.reads
    obtain ⟨more, hm⟩ := ih ((hr.isOpen_next rfl).trans hp) (hc.suffix (List.suffix_cons _ _))
      (.next hr rfl)
    exact ⟨_, by rw [hm]; rfl⟩
  | case3 p before t rest b next ha e hg =>
    have hr := ha ▸ hstart.reads
    simpa [hg] using hc rest (by simp [hr.eq_openParen])
  | case4 p before t rest b next ha inner after hg _ ih =>
    have hr := ha ▸ hstart.reads
    obtain rfl := group_eq_append hg
    obtain ⟨more, hm⟩ := ih ((hr.isOpen_next rfl).trans hp)
      (hc.suffix ⟨t :: (inner ++ [.closeParen]), by simp⟩) (.next hr rfl)
    exact ⟨_, by rw [hm]; rfl⟩
  | case5 p before t rest next ha =>
    have hopen := (ha ▸ hstart.reads).isOpen_next rfl
    exact ⟨_, by rw [atEnd, if_neg (by simp [hopen, hp])]; rfl⟩
  | case6 p before t rest next ha inner after he _ ih =>
    have hr := ha ▸ hstart.reads
    obtain rfl := caseEnd?_eq_append he
    obtain ⟨more, hm⟩ := ih ((hr.isOpen_next rfl).trans hp) (hc.suffix ⟨t :: inner, by simp⟩)
      (.next hr rfl)
    exact ⟨_, by rw [hm]; rfl⟩
  | case7 => exact ⟨_, rfl⟩

inductive BracketForm (nested : Nested) (b : Bracket) (indent : Nat) (ts : List Token) :
    List Item → Prop where
  | query (hq : startsQuery ts = true) :
      BracketForm nested b indent ts (opening :: Arrange.query nested indent ts ++ [closing])
  /-- Elements that keep to their line or start one each. -/
  | elements : BracketForm nested b indent ts
      [opening, .elements ((splitCommas ts).map (inset nested false .inline indent)), closing]
  | inline : BracketForm nested b indent ts
      (opening :: inset nested false .inline indent ts ++ [closing])
  | pairs (hb : b = .pairs) : BracketForm nested b indent ts
      (opening :: inset nested true (.pairs 0) indent ts ++ [closing])
  | empty (he : ts = []) : BracketForm nested b indent ts [opening, closing]
  | lines {width : Nat} : BracketForm nested b indent ts
      ([.startLine 0, opening, .startLine width] ++ inset nested false .block indent ts ++
        [.startLine 0, closing])
  | definitions (hb : b = .columns) (hc : ∀ t ∈ ts, t.isComment = false) :
      BracketForm nested b indent ts [.definitions ((splitCommas ts).map (definition nested))]

theorem form_block (nested : Nested) (b : Bracket) (width indent : Nat) (ts : List Token) :
    BracketForm nested b indent ts (block nested width indent ts) := by
  unfold block
  split
  · rename_i he
    exact .empty (by simpa using he)
  · exact .lines

theorem form_bracket (nested : Nested) (b : Bracket) (indent : Nat) (before ts : List Token) :
    BracketForm nested b indent ts (bracket nested b indent before ts) := by
  unfold bracket
  split
  · split
    · rename_i hq
      exact .query hq
    · split
      · exact .elements
      · exact .inline
  · exact .pairs rfl
  · split
    · rename_i hq
      exact .query hq
    · exact form_block ..
  · split
    · exact form_block ..
    · rename_i hc
      exact .definitions rfl (by simp_all)
  · split
    · exact form_block ..
    · exact .inline

def Ending (p : Place) (ts : List Token) : Prop :=
  p.isOpen = true → ∀ t ∈ ts.getLast?, t = .keyword .END

theorem Ending.suffix {p next : Place} {ts us : List Token} (h : Ending p ts) (hs : us <:+ ts)
    (ho : next.isOpen = p.isOpen) : Ending next us := by
  intro hn t ht
  obtain ⟨a, rfl⟩ := hs
  refine h (ho ▸ hn) t ?_
  cases us with
  | nil => simp at ht
  | cons u us => rwa [List.getLast?_append_of_ne_nil _ (by simp)]

theorem caseEnd?_getLast {d : Nat} {ts inner after : List Token}
    (h : caseEnd? d ts = some (inner, after)) : inner.getLast? = some (.keyword .END) := by
  fun_induction caseEnd? d ts generalizing inner <;>
    simp_all [Option.map_eq_some_iff] <;> grind

def NestedSane (nested : Nested) : Prop :=
  ∀ {p : Place} {ts : List Token} {body : List Item}, Starts p [] ts → Ending p ts →
    nested p ts = .ok body → Sane ts body

variable {nested : Nested}

theorem NestedSane.inset (hn : NestedSane nested) {p : Place} {ts : List Token}
    (hs : Starts p [] ts) (he : Ending p ts) (flat : Bool) (indent : Nat) :
    Sane ts (inset nested flat p indent ts) := by
  unfold Arrange.inset
  split
  · rename_i body hb
    have h := hn hs he hb
    exact ⟨by simpa [Item.allTokens, Item.tokens] using h.kept, h.proper, trivial⟩
  · exact .echo indent ts

theorem NestedSane.query (hn : NestedSane nested) (indent : Nat) (ts : List Token) :
    Sane ts (query nested indent ts) := by
  unfold Arrange.query
  split
  · rename_i body hb
    have h := hn (by simp [Starts]) (by simp [Ending, Place.isOpen]) hb
    exact ⟨by simpa [Item.allTokens, Item.tokens] using h.kept, h.proper, trivial⟩
  · exact .echo indent ts

theorem NestedSane.definition (hn : NestedSane nested) {ts : List Token}
    (h : ∀ t ∈ ts, t.isRemark = false) : Sane ts (definition nested ts) := by
  cases ts with
  | nil => exact .nil
  | cons name rest =>
    refine (Sane.word (h name (by simp))).append ?_
    split
    · rename_i body hb
      exact hn (by simp [Starts]) (by simp [Ending, Place.isOpen]) hb
    · exact .echo 0 rest

theorem NestedSane.bracket (hn : NestedSane nested) (b : Bracket) (indent : Nat)
    (before ts : List Token) :
    Sane (.openParen :: ts ++ [.closeParen]) (bracket nested b indent before ts) := by
  have hinset : ∀ part, Sane part (Arrange.inset nested false .inline indent part) :=
    fun part => hn.inset (by simp [Starts]) (by simp [Ending, Place.isOpen]) false indent
  have hform := form_bracket nested b indent before ts
  generalize Arrange.bracket nested b indent before ts = items at hform ⊢
  cases hform with
  | query => exact (hn.query indent ts).brackets
  | elements =>
    obtain ⟨hkept, hprop⟩ : _ ∧ Item.PartsProper ((splitCommas ts).map
        (Arrange.inset nested false .inline indent)) := Sane.parts fun part _ => hinset part
    rw [intercalate_splitCommas] at hkept
    have he : Sane ts [.elements ((splitCommas ts).map (Arrange.inset nested false .inline indent))] :=
      ⟨by simpa [Item.allTokens, Item.tokens] using hkept, hprop, trivial⟩
    exact he.brackets
  | «inline» => exact (hinset ts).brackets
  | pairs =>
    exact (hn.inset (p := .pairs 0) (by simp [Starts]) (by simp [Ending, Place.isOpen]) true
      indent).brackets
  | empty he =>
    subst he
    exact Sane.nil.brackets
  | lines =>
    have hb : ∀ n : Nat, Sane [] [.startLine n] := fun n => .breaks (by simp [Item.isBreak])
    have hi : Sane ts (Arrange.inset nested false .block indent ts) :=
      hn.inset (by simp [Starts]) (by simp [Ending, Place.isOpen]) false indent
    simpa [opening, closing] using ((hb 0).append ((Sane.word rfl).append ((hb _).append
      (hi.append ((hb 0).append (Sane.word rfl))))))
  | definitions _ hc =>
    have hc : ∀ t ∈ ts, t.isRemark = false := by
      intro t ht
      have hcomment := hc t ht
      cases t <;> simp_all [Token.isComment, Token.isRemark]
    obtain ⟨hkept, hprop⟩ : _ ∧ Item.PartsProper ((splitCommas ts).map
        (Arrange.definition nested)) :=
      Sane.parts fun part hp => hn.definition fun t ht =>
        hc t ((infix_of_mem_splitCommas hp).mem ht)
    rw [intercalate_splitCommas] at hkept
    refine ⟨?_, ⟨hprop, fun t ht => hc t (hkept.sublist.mem ht)⟩, trivial⟩
    have hround := ((Kept.all [.openParen]).append hkept).append (.all [.closeParen])
    simpa [Item.allTokens, Item.tokens] using hround

theorem sane_written {p next : Place} {before : List Token} {t : Token} {items : List Item}
    (hr : p.Reads before t (.write items next)) : Sane [t] items := by
  cases hr with
  | @write start indent _ _ hs hf =>
    have hstart : Sane [] start := .breaks (by
      rcases hs with rfl | rfl | ⟨-, n, rfl⟩ <;> simp [Item.isBreak])
    simpa using (hstart.append (.echo indent [t])).append (.breaks hf)

theorem Arranged.sane (hn : NestedSane nested) {p : Place} {before ts : List Token}
    {items : List Item} (h : Arranged nested p before ts items) (he : Ending p ts) :
    Sane ts items := by
  induction h with
  | done => exact .nil
  | token hr _ ih =>
    have hopen := hr.isOpen_next rfl
    exact (sane_written hr).append (ih (he.suffix (List.suffix_cons _ _) hopen))
  | @bracket p next before rest inner after b more hr hg _ ih =>
    obtain rfl := group_eq_append hg
    have hrest := ih (he.suffix ⟨.openParen :: (inner ++ [.closeParen]), by simp⟩ (hr.isOpen_next rfl))
    simpa using (hn.bracket b p.indent before inner).append hrest
  | @looseCase p before rest => exact (Sane.word rfl).append (.echo p.indent rest)
  | @caseEnd p next before rest inner after more hr hc _ ih =>
    obtain rfl := caseEnd?_eq_append hc
    have hi : Sane (.keyword .CASE :: inner) _ :=
      hn.inset (p := .caseHead) (fun _ => ⟨rfl, inner, rfl⟩) (fun _ t ht => by
        have hlast := caseEnd?_getLast hc
        simp_all [List.getLast?_cons]) true p.indent
    have hrest := ih (he.suffix ⟨.keyword .CASE :: inner, by simp⟩ (hr.isOpen_next rfl))
    simpa using hi.append hrest
  | @finish before rest =>
    refine ⟨⟨by simp [Item.allTokens, Item.tokens], ?_⟩, trivial, rfl, trivial⟩
    -- what is left behind the `END` ends with another
    rcases List.eq_nil_or_concat rest with rfl | ⟨a, t, rfl⟩
    · exact .inl rfl
    · obtain rfl : t = .keyword .END := he rfl t (by simp [List.getLast?_cons])
      right
      simp [Item.allTokens, Item.tokens, List.count_append]

end Arrange

/-- What arranges insides with `room` levels of nesting left of the `limit`. -/
def Arrange.below (limit : Nat) : Nat → Nested
  | 0 => fun _ _ => .error (.tooDeeplyNested limit)
  | room + 1 => arrange limit room

theorem Arrange.arrange_eq (limit room : Nat) (p : Place) (ts : List Token) :
    arrange limit room p ts = run (below limit room) p [] ts := by
  cases room <;> rfl

theorem arrange_eq_run (limit room : Nat) :
    ∃ nested : Arrange.Nested, ∀ p ts, arrange limit room p ts = Arrange.run nested p [] ts :=
  ⟨_, Arrange.arrange_eq limit room⟩

/-- What holds where no nesting is allowed, and of a run wherever it holds of what is nested in it,
holds with any room left. -/
theorem Arrange.arrange_induction {motive : Nested → Prop} (limit : Nat)
    (deep : motive fun _ _ => .error (.tooDeeplyNested limit))
    (run : ∀ {nested : Nested}, motive nested → motive fun p ts => Arrange.run nested p [] ts)
    (room : Nat) : motive (arrange limit room) := by
  induction room with
  | zero => exact run deep
  | succ room ih => exact run ih

open Arrange in
theorem nestedSane_arrange (limit room : Nat) : NestedSane (arrange limit room) := by
  apply arrange_induction (motive := NestedSane)
  case deep => exact fun _ _ h => by cases h
  case run => exact fun hn _ _ _ hs he hb => (arranged_of_run hs hb).sane hn he

open Arrange in
theorem nestedSane_below (limit room : Nat) : NestedSane (below limit room) := by
  cases room with
  | zero => exact fun _ _ h => by cases h
  | succ room => exact nestedSane_arrange limit room

def Ended (ms : List (Bool × Token)) : Prop := ∀ x, ms.getLast? ≠ some (true, .string x)

namespace Ended

variable {ms ns : List (Bool × Token)}

theorem append (h : Ended ms) (h' : Ended ns) : Ended (ms ++ ns) := by
  intro x
  cases ns with
  | nil => simpa using h x
  | cons n ns =>
    rw [List.getLast?_append_of_ne_nil _ (by simp)]
    exact h' x

theorem unflat (ts : List Token) : Ended (ts.map (false, ·)) := by
  intro x hx
  have := List.mem_of_getLast? hx
  simp at this

theorem of_last {t : Token} (h : (ms.map Prod.snd).getLast? = some t) (ht : ∀ x, t ≠ .string x) :
    Ended ms := by
  intro x hx
  rw [List.getLast?_map, hx] at h
  exact ht x (by simpa using h.symm)

end Ended

namespace Arrange

variable {nested : Nested}

theorem bracket_last (b : Bracket) (indent : Nat) (before ts : List Token) :
    (Item.allTokens (bracket nested b indent before ts)).getLast? = some .closeParen := by
  have hround : ∀ items : List Item,
      (Item.allTokens (items ++ [closing])).getLast? = some .closeParen := fun items => by
    simp [closing, Item.allTokens, Item.tokens]
  have hform := form_bracket nested b indent before ts
  generalize Arrange.bracket nested b indent before ts = items at hform ⊢
  cases hform with
  | query | «inline» | pairs => exact hround _
  | elements => exact hround [_, _]
  | empty => exact hround [opening]
  | @lines width =>
    have hlast := hround ([.startLine 0, opening, .startLine width] ++
      inset nested false .block indent ts ++ [.startLine 0])
    rw [List.append_assoc] at hlast
    exact hlast
  | definitions =>
    simp only [Item.allTokens, Item.tokens, List.append_nil]
    exact List.getLast?_concat

theorem Arranged.last {p : Place} {before ts : List Token} {items : List Item}
    (h : Arranged nested p before ts items) (hp : p.isOpen = true) :
    (Item.allTokens items).getLast? = some (.keyword .END) := by
  induction h with
  | done hd => simp [hp] at hd
  | looseCase hd => simp [hp] at hd
  | finish => rfl
  | token hr _ ih =>
    rw [Item.allTokens_append, List.getLast?_append, ih ((hr.isOpen_next rfl).trans hp)]
    rfl
  | bracket hr _ _ ih =>
    rw [Item.allTokens_append, List.getLast?_append, ih ((hr.isOpen_next rfl).trans hp)]
    rfl
  | caseEnd hr _ _ ih =>
    rw [Item.allTokens_append, List.getLast?_append, ih ((hr.isOpen_next rfl).trans hp)]
    rfl

theorem Arranged.ended (hn : ∀ {ts : List Token} {body : List Item},
      nested .caseHead (.keyword .CASE :: ts) = .ok body →
        (Item.allTokens body).getLast? = some (.keyword .END))
    {p : Place} {before ts : List Token} {items : List Item}
    (h : Arranged nested p before ts items) : Ended (Item.allMarked false items) := by
  induction h with
  | done => exact .unflat []
  | token hr _ ih =>
    rw [Item.allMarked_append, allMarked_written hr false]
    exact (Ended.unflat [_]).append ih
  | bracket hr _ _ ih =>
    rw [Item.allMarked_append]
    refine Ended.append (Ended.of_last (t := .closeParen) ?_ (by simp)) ih
    rw [Item.map_allMarked]
    exact bracket_last _ _ _ _
  | @looseCase p before rest =>
    rw [Item.allMarked, Item.allMarked_echo]
    exact (Ended.unflat [.keyword .CASE]).append (.unflat rest)
  | @caseEnd p next before rest inner after more hr hc _ ih =>
    rw [Item.allMarked_append]
    refine Ended.append ?_ ih
    unfold inset
    split
    · rename_i body hb
      refine Ended.of_last (t := .keyword .END) ?_ (by simp)
      rw [Item.map_allMarked]
      simpa [Item.allTokens, Item.tokens] using hn hb
    · rw [Item.allMarked_echo]
      exact .unflat _
  | finish => exact .unflat [.keyword .END]

end Arrange

open Arrange in
theorem arrange_case_last {limit room : Nat} {ts : List Token} {body : List Item}
    (h : arrange limit room .caseHead (.keyword .CASE :: ts) = .ok body) :
    (Item.allTokens body).getLast? = some (.keyword .END) := by
  obtain ⟨nested, he⟩ := arrange_eq_run limit room
  rw [he] at h
  exact (arranged_of_run (fun _ => ⟨rfl, ts, rfl⟩) h).last rfl

open Arrange in
/-- A statement does not end with a string in a flat passage. -/
theorem ended_arrange {limit room : Nat} {ts : List Token} {items : List Item}
    (h : arrange limit room .statement ts = .ok items) : Ended (Item.allMarked false items) := by
  cases room with
  | zero => exact (arranged_of_run (by simp [Starts]) h).ended (by simp)
  | succ room => exact (arranged_of_run (by simp [Starts]) h).ended arrange_case_last

end SqlLayout

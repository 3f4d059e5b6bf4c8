import SqlLayout.Proofs.Sequence

/-! The conjunctions of a condition. Outside brackets each begins a line, but for the `AND` of a
`BETWEEN`. Whether a `BETWEEN` awaits its `AND` is forgotten when another one comes inside brackets.
-/

set_option autoImplicit false

namespace SqlLayout

/-- The bracket that opens here is passed on whole: the arguments of a `DECODE`, the list behind an
`IN`, or a subselect. -/
def passedOn (before rest : List Token) : Bool :=
  before.head?.any Token.isDecode || Place.afterIntroducer before || startsQuery rest

/-- What was read of a condition: the brackets that are open, the innermost first, each with whether
it is passed on; whether a `BETWEEN` outside brackets awaits its `AND`; and whether another inside
brackets came since. -/
structure Reading where
  brackets : List Bool
  awaits : Bool
  crossed : Bool
  deriving DecidableEq, Repr

namespace Reading

def start : Reading := ⟨[], false, false⟩

def next (s : Reading) (before rest : List Token) : Token → Reading
  | .openParen => { s with brackets := passedOn before rest :: s.brackets }
  | .closeParen => { s with brackets := s.brackets.tail }
  | .keyword .BETWEEN =>
    if s.brackets = [] then ⟨[], true, false⟩
    else if true ∈ s.brackets then s
    else { s with crossed := true }
  | .keyword .AND => if s.brackets = [] then ⟨[], false, false⟩ else s
  | _ => s

def after (s : Reading) (before : List Token) : List Token → List Token → Reading
  | [], _ => s
  | t :: ts, rest => (s.next before (ts ++ rest) t).after (t :: before) ts rest

def place (s : Reading) : Place := .condition s.brackets.length (s.awaits && !s.crossed)

def line (s : Reading) : Token → List Item
  | .keyword .AND =>
    if s.brackets = [] ∧ (s.awaits && !s.crossed) = false then [.startLine 0] else []
  | .keyword .OR => if s.brackets = [] then [.startLine 1] else []
  | _ => []

variable {s : Reading} {before rest : List Token} {t : Token}

theorem after_append (s : Reading) (before a b rest : List Token) :
    s.after before (a ++ b) rest =
      (s.after before a (b ++ rest)).after (a.reverse ++ before) b rest := by
  induction a generalizing s before with
  | nil => rfl
  | cons t a ih => simp [after, ih]

theorem after_behind (s : Reading) (before ts : List Token) (ht : t.isComment = false)
    (r rest : List Token) : s.after before ts (t :: (r ++ rest)) = s.after before ts (t :: r) := by
  induction ts generalizing s before with
  | nil => rfl
  | cons u ts ih =>
    have hnext : s.next before (ts ++ t :: (r ++ rest)) u = s.next before (ts ++ t :: r) u := by
      have hquery : startsQuery (ts ++ t :: r ++ rest) = startsQuery (ts ++ t :: r) :=
        startsQuery_append ⟨t, by simp, ht⟩ rest
      have hpassed : passedOn before (ts ++ t :: (r ++ rest)) = passedOn before (ts ++ t :: r) := by
        rw [passedOn, passedOn, ← hquery]
        simp
      cases u <;> simp [next, hpassed]
    rw [after, after, hnext, ih]

end Reading

/-- What may stand in a condition: no line comment, no `CASE`, no keyword behind a dot and nothing that
ends the condition. -/
structure Reading.Allows (s : Reading) (before : List Token) (t : Token) : Prop where
  remarkless : t.isRemark = false
  branchless : t ≠ .keyword .CASE
  dotless : ∀ k, t = .keyword k → Place.afterDot before = false
  goesOn : t.ends .condition = true → s.brackets = [] → Place.afterDot before = true

def Reading.Passes (s : Reading) (before ts rest : List Token) : Prop :=
  ∀ a t b, ts = a ++ t :: b → (s.after before a (t :: b ++ rest)).Allows (a.reverse ++ before) t

namespace Reading

variable {s : Reading} {before rest : List Token} {t : Token}

theorem Passes.behind {a b : List Token} (h : s.Passes before (a ++ b) rest) :
    (s.after before a (b ++ rest)).Passes (a.reverse ++ before) b rest := by
  intro x t y hb
  have := h (a ++ x) t y (by simp [hb])
  simpa [after_append, hb] using this

theorem Passes.front {a b : List Token} (h : s.Passes before (a ++ b) rest) :
    s.Passes before a (b ++ rest) := by
  intro x t y ha
  simpa [ha] using h x t (y ++ b) (by simp [ha])

theorem Passes.head {ts : List Token} (h : s.Passes before (t :: ts) rest) : s.Allows before t := by
  simpa [after] using h [] t ts rfl

theorem Passes.tail {ts : List Token} (h : s.Passes before (t :: ts) rest) :
    (s.next before (ts ++ rest) t).Passes (t :: before) ts rest := by
  simpa [after] using Passes.behind (a := [t]) h

theorem action_passed (hp : passedOn before rest = true) :
    s.place.action before .openParen rest = .openBracket
      (if before.head?.any Token.isDecode then .pairs else .expression) s.place := by
  unfold Place.action
  by_cases hd : before.head?.any Token.isDecode = true
  · simp [hd]
  · have hquery : (Place.afterIntroducer before || startsQuery rest) = true := by
      simpa [passedOn, hd] using hp
    simp [hd, place, Place.inCondition, Token.ends, hquery, Place.inExpression]

theorem action_written (hown : true ∉ s.brackets) (ha : s.Allows before t)
    (hp : t = .openParen → passedOn before rest = false) :
    s.place.action before t rest =
      .write (s.line t ++ [.word t]) (s.next before rest t).place := by
  have hgoes : (decide (s.brackets.length = 0) && !Place.afterDot before && t.ends .condition) =
      false := by
    by_contra hn
    obtain ⟨hnil, hdot, hends⟩ : s.brackets = [] ∧ Place.afterDot before = false ∧
        t.ends .condition = true := by simpa using hn
    simp [ha.goesOn hends hnil] at hdot
  cases t with
  | openParen =>
    obtain ⟨⟨hdecode, hlist⟩, hquery⟩ : (before.head?.any Token.isDecode = false ∧
        Place.afterIntroducer before = false) ∧ startsQuery rest = false := by
      simpa [passedOn] using hp rfl
    simp only [place, Place.action, Place.inCondition, hgoes, hdecode, hlist, hquery]
    simp [line, next, passedOn, hdecode, hlist, hquery]
  | closeParen =>
    simp only [place, Place.action, Place.inCondition, hgoes]
    simp [line, next]
  | keyword k =>
    have hdot := ha.dotless k rfl
    have hcase : k ≠ .CASE := fun hk => ha.branchless (by rw [hk])
    simp only [place, Place.action, Place.inCondition, hgoes]
    by_cases hbetween : k = .BETWEEN
    · subst hbetween
      by_cases hnil : s.brackets = [] <;> simp [line, next, hnil, hown]
    by_cases hand : k = .AND
    · subst hand
      by_cases hnil : s.brackets = []
      · cases hflag : s.awaits && !s.crossed <;> simp_all [line, next]
      · simp [line, next, hnil, Place.inExpression, Item.echo]
    by_cases hor : k = .OR
    · subst hor
      by_cases hnil : s.brackets = [] <;> simp [line, next, hnil, Place.inExpression, Item.echo]
    have hline : s.line (.keyword k) = [] := by
      unfold line
      split <;> simp_all
    have hnext : s.next before rest (.keyword k) = s := by
      unfold next
      split <;> simp_all
    rw [hline, hnext]
    simp [hbetween, hand, hor, hcase, Place.inExpression, Item.echo]
  | lineComment t => exact absurd ha.remarkless (by simp [Token.isRemark])
  | _ =>
    simp only [place, Place.action, Place.inCondition, hgoes]
    simp [line, next, Place.inExpression, Item.echo]

theorem brackets_next (hopen : t ≠ .openParen) (hclose : t ≠ .closeParen) :
    (s.next before rest t).brackets = s.brackets := by
  unfold next
  split
  · exact absurd rfl hopen
  · exact absurd rfl hclose
  · split
    · simp_all
    · split <;> rfl
  · split
    · simp_all
    · rfl
  · rfl

theorem own_next (hown : true ∉ s.brackets) (hp : t = .openParen → passedOn before rest = false) :
    true ∉ (s.next before rest t).brackets := by
  by_cases hopen : t = .openParen
  · subst hopen
    simp [next, hp rfl, hown]
  by_cases hclose : t = .closeParen
  · subst hclose
    exact fun h => hown (List.mem_of_mem_tail h)
  · rwa [brackets_next hopen hclose]

/-- Inside a bracket that is passed on nothing counts, and its end is found. -/
theorem exists_group {x b : List Bool} {awaits crossed : Bool} {before ts rest : List Token}
    (h : true ∉ (after ⟨x ++ true :: b, awaits, crossed⟩ before ts rest).brackets) :
    ∃ inner more, group x.length ts = .ok (inner, more) ∧
      after ⟨x ++ true :: b, awaits, crossed⟩ before (inner ++ [.closeParen]) (more ++ rest) =
        ⟨b, awaits, crossed⟩ := by
  induction ts generalizing x before with
  | nil => simp [after] at h
  | cons t ts ih =>
    rw [after] at h
    by_cases hopen : t = .openParen
    · subst hopen
      obtain ⟨inner, more, hg, ha⟩ := ih (x := passedOn before (ts ++ rest) :: x) h
      refine ⟨.openParen :: inner, more, by rw [group, ← List.length_cons, hg]; rfl, ?_⟩
      rw [group_eq_append hg] at ha
      simpa [after, next] using ha
    by_cases hclose : t = .closeParen
    · subst hclose
      cases x with
      | nil => exact ⟨[], ts, rfl, rfl⟩
      | cons p x =>
        obtain ⟨inner, more, hg, ha⟩ := ih (x := x) h
        exact ⟨.closeParen :: inner, more, by rw [List.length_cons, group, hg]; rfl,
          by simpa [after, next] using ha⟩
    · have hnext : ∀ us, next ⟨x ++ true :: b, awaits, crossed⟩ before us t =
          ⟨x ++ true :: b, awaits, crossed⟩ := by
        intro us
        unfold next
        split <;> simp_all
      rw [hnext] at h
      obtain ⟨inner, more, hg, ha⟩ := ih h
      refine ⟨t :: inner, more, ?_, by simpa [after, hnext] using ha⟩
      cases t <;> simp_all [group, Except.map]

end Reading

theorem Draft.inked_word {o : Options} {flat : Bool} {t : Token} {d : Draft}
    (h : d.page.atLineStart = false ∨ Text.isBlankText (t.render o flat d.last) = false) :
    (d.word o flat t).page.atLineStart = false := by
  simp only [Page.atLineStart, Draft.word, Page.push, Text.isBlankText, List.all_append,
    List.all_reverse, Bool.and_eq_false_iff] at h ⊢
  rcases h with h | h
  · right
    unfold Draft.spaceBefore
    split
    · simp [Page.push, h]
    · exact h
  · exact .inl h

theorem Draft.inked_keyword {o : Options} {flat : Bool} {k : Keyword} (d : Draft) :
    (d.word o flat (.keyword k)).page.atLineStart = false := by
  have hsolid := Token.Tidy.solid (t := .keyword k) trivial rfl o flat d.last
  exact inked_word (.inr (by simpa using hsolid.not_blank [] []))

theorem Reading.inked_written (s : Reading) (t : Token) {o : Options} {flat : Bool} {d : Draft}
    (h : d.page.atLineStart = false) :
    (writeAll o flat (s.line t ++ [.word t]) d).page.atLineStart = false := by
  have hword : (d.word o flat t).page.atLineStart = false := Draft.inked_word (.inl h)
  unfold line
  split
  · split
    · exact Draft.inked_keyword _
    · exact hword
  · split
    · exact Draft.inked_keyword _
    · exact hword
  · exact hword

namespace Arrange

theorem bracket_closes (nested : Nested) {b : Bracket} (hb : b = .pairs ∨ b = .expression)
    (indent : Nat) (before ts : List Token) :
    ∃ items, bracket nested b indent before ts = items ++ [closing] := by
  rcases hb with rfl | rfl
  · exact ⟨_, rfl⟩
  · simp only [bracket]
    split
    · exact ⟨_, rfl⟩
    · split
      · exact ⟨[_, _], rfl⟩
      · exact ⟨_, rfl⟩

def Goes (nested : Nested) (s : Reading) (before ts rest : List Token) : Prop :=
  ∃ items, run nested s.place before (ts ++ rest) =
      (run nested (s.after before ts rest).place (ts.reverse ++ before) rest).map (items ++ ·) ∧
    ∀ {o : Options} {flat : Bool} {d : Draft}, d.page.atLineStart = false →
      (writeAll o flat items d).page.atLineStart = false

variable {nested : Nested} {s : Reading} {before a b ts rest : List Token} {t : Token}

theorem Goes.nil : Goes nested s before [] rest := by
  refine ⟨[], ?_, fun h => h⟩
  cases h : run nested s.place before rest <;> simp [Reading.after, h, Except.map]

theorem Goes.append (h : Goes nested s before a (b ++ rest))
    (h' : Goes nested (s.after before a (b ++ rest)) (a.reverse ++ before) b rest) :
    Goes nested s before (a ++ b) rest := by
  obtain ⟨items, hrun, hink⟩ := h
  obtain ⟨more, hrun', hink'⟩ := h'
  refine ⟨items ++ more, ?_, fun hd => ?_⟩
  · rw [List.append_assoc, hrun, hrun', map_map, Reading.after_append]
    simp
  · rw [writeAll_append]
    exact hink' (hink hd)

theorem Goes.written (hown : true ∉ s.brackets) (ha : s.Allows before t)
    (hp : t = .openParen → passedOn before rest = false) : Goes nested s before [t] rest :=
  ⟨s.line t ++ [.word t],
    by simpa [Reading.after] using run_write (Reading.action_written hown ha hp), s.inked_written t⟩

theorem Goes.passed (nested : Nested) (hp : passedOn before (ts ++ rest) = true)
    (hend : true ∉ (s.after before (.openParen :: ts) rest).brackets) :
    ∃ inner more, ts = inner ++ .closeParen :: more ∧
      s.after before (.openParen :: inner ++ [.closeParen]) (more ++ rest) = s ∧
      Goes nested s before (.openParen :: inner ++ [.closeParen]) (more ++ rest) := by
  have hnext : s.next before (ts ++ rest) .openParen =
      ⟨[] ++ true :: s.brackets, s.awaits, s.crossed⟩ := by
    simp [Reading.next, hp]
  rw [Reading.after, hnext] at hend
  obtain ⟨inner, more, hg, hinside⟩ := Reading.exists_group hend
  obtain rfl := group_eq_append hg
  have hassoc : inner ++ [.closeParen] ++ (more ++ rest) =
      inner ++ .closeParen :: more ++ rest := by simp
  have hwhole : s.after before (.openParen :: inner ++ [.closeParen]) (more ++ rest) = s := by
    rw [List.cons_append, Reading.after, hassoc, hnext]
    exact hinside
  have hgroup : group 0 (inner ++ [.closeParen] ++ (more ++ rest)) =
      .ok (inner, more ++ rest) := by
    simpa using group_append hg (more ++ rest)
  obtain ⟨items, hitems⟩ := bracket_closes nested
    (b := if before.head?.any Token.isDecode then .pairs else .expression) (by split <;> simp)
    s.place.indent before inner
  refine ⟨inner, more, rfl, hwhole, items ++ [closing], ?_, fun _ => ?_⟩
  · rw [hwhole, List.cons_append, List.cons_append,
      run_openBracket (Reading.action_passed (by rwa [hassoc])) hgroup, hitems]
    simp
  · rw [writeAll_append]
    exact Draft.inked_word (.inr rfl)

/-- The tokens of a condition are arranged one after the other. -/
theorem goes_reading (nested : Nested) (hown : true ∉ s.brackets) (hp : s.Passes before ts rest)
    (hend : true ∉ (s.after before ts rest).brackets) : Goes nested s before ts rest := by
  induction hn : ts.length using Nat.strong_induction_on generalizing ts s before with
  | _ n ih =>
    subst hn
    cases ts with
    | nil => exact .nil
    | cons u ts =>
      by_cases hpassed : u = .openParen ∧ passedOn before (ts ++ rest) = true
      · obtain ⟨rfl, hpassed⟩ := hpassed
        obtain ⟨inner, more, rfl, hwhole, hgoes⟩ := Goes.passed nested hpassed hend
        have hsplit : .openParen :: (inner ++ .closeParen :: more) =
            .openParen :: inner ++ [.closeParen] ++ more := by simp
        rw [hsplit] at hp hend ⊢
        have hrest := hp.behind
        rw [Reading.after_append] at hend
        refine hgoes.append (ih more.length (by simp; omega) ?_ hrest hend rfl)
        rwa [hwhole]
      · have hfree : u = .openParen → passedOn before (ts ++ rest) = false :=
          fun h => by simpa [h] using hpassed
        exact Goes.append (a := [u]) (.written hown hp.head hfree)
          (ih ts.length (by simp) (Reading.own_next hown hfree) hp.tail hend rfl)

end Arrange

/-- The tokens of a condition: their brackets are balanced, no line comment, no `CASE` and no
keyword behind a dot is among them, and none of them ends the condition. -/
structure IsCondition (ts : List Token) : Prop where
  balanced : checkBalance 0 ts = .ok ()
  remarkless : ∀ t ∈ ts, t.isRemark = false
  branchless : .keyword .CASE ∉ ts
  dotless : ts.IsChain fun a b => a = .dot → ∀ k, b ≠ .keyword k
  goesOn : ∀ a t b, ts = a ++ t :: b → netDepth a = 0 → t.ends .condition = true →
    a.getLast? = some .dot

namespace Reading

variable {s : Reading} {before a b rest : List Token} {t : Token}

theorem length_after (s : Reading) (before rest : List Token)
    (h : checkBalance s.brackets.length (a ++ b) = .ok ()) :
    ((s.after before a rest).brackets.length : Int) = s.brackets.length + netDepth a ∧
      checkBalance (s.after before a rest).brackets.length b = .ok () := by
  induction a generalizing s before with
  | nil => simpa [after, netDepth] using h
  | cons t a ih =>
    rw [after]
    by_cases hopen : t = .openParen
    · subst hopen
      obtain ⟨hlen, hb⟩ := ih (s.next before (a ++ rest) .openParen) (.openParen :: before) h
      refine ⟨?_, hb⟩
      rw [hlen]
      simp only [next, List.length_cons, netDepth]
      omega
    by_cases hclose : t = .closeParen
    · subst hclose
      rcases hs : s.brackets with _ | ⟨p, x⟩
      · simp [hs, checkBalance] at h
      · have hnext : (s.next before (a ++ rest) .closeParen).brackets = x := by simp [next, hs]
        obtain ⟨hlen, hb⟩ := ih (s.next before (a ++ rest) .closeParen) (.closeParen :: before)
          (by rw [hnext]; simpa [hs, checkBalance] using h)
        refine ⟨?_, hb⟩
        rw [hlen, hnext]
        simp only [List.length_cons, netDepth]
        omega
    · have hnext : (s.next before (a ++ rest) t).brackets = s.brackets :=
        brackets_next hopen hclose
      have hbalance : checkBalance s.brackets.length (a ++ b) = .ok () := by
        cases t <;> simp_all [checkBalance]
      obtain ⟨hlen, hb⟩ := ih (s.next before (a ++ rest) t) (t :: before) (by rwa [hnext])
      refine ⟨?_, hb⟩
      rw [hlen, hnext]
      cases t <;> simp_all [netDepth]

/-- The line that starts before a conjunction, on a page where something stands on the line. -/
theorem line_conjunction (s : Reading) (ht : t = .keyword .AND ∨ t = .keyword .OR) {o : Options}
    {flat : Bool} {d : Draft} (hd : d.page.atLineStart = false) :
    ((writeAll o flat (s.line t) d).page.atLineStart = true ↔
        s.brackets = [] ∧ ¬(t = .keyword .AND ∧ s.awaits = true ∧ s.crossed = false)) ∧
      ((writeAll o flat (s.line t) d).page.atLineStart = true →
        (writeAll o flat (s.line t) d).page.current =
          Text.spaces (if t = .keyword .OR then 1 else 0)) := by
  have hline : ∀ n, (writeAll o flat [.startLine n] d).page.atLineStart = true ∧
      (writeAll o flat [.startLine n] d).page.current = Text.spaces n := fun n =>
    ⟨Page.atLineStart_startLine _ n, by
      simp [writeAll, Item.write, Draft.startLine, Page.startLine, hd, Page.newline, Page.indent]⟩
  have hnone : (writeAll o flat [] d).page.atLineStart = false := hd
  rcases ht with rfl | rfl
  · by_cases h : s.brackets = [] ∧ (s.awaits && !s.crossed) = false
    · simp only [line, if_pos h, hline]
      simp_all
    · simp only [line, if_neg h, hnone]
      simp_all
  · by_cases h : s.brackets = []
    · simp only [line, if_pos h, hline]
      simp [h]
    · simp only [line, if_neg h, hnone]
      simp [h]

end Reading

theorem Text.Firm.behind {t : Text} (h : Firm t) (s : Text) : Firm (s ++ t) := by
  obtain ⟨a, c, rfl, hc⟩ := h.ends
  simp [Firm, ← List.append_assoc, hc]

theorem Page.Below.lines {base : List Text} {p q : Page} (h : p.Below base q) :
    p.lines = base.reverse ++ q.lines := by
  simp [Page.lines, h.above, h.current]

theorem IsCondition.passes {ts : List Token} (h : IsCondition ts) (k : Keyword)
    (before rest : List Token) : Reading.start.Passes (.keyword k :: before) ts rest := by
  intro a t b hts
  have hlen := Reading.length_after Reading.start (.keyword k :: before) (t :: b ++ rest) (a := a)
    (b := t :: b) (hts ▸ h.balanced)
  have hdot : Place.afterDot (a.reverse ++ .keyword k :: before) = true ↔
      a.getLast? = some .dot := by
    rcases List.eq_nil_or_concat a with rfl | ⟨a, u, rfl⟩ <;> simp [Place.afterDot]
  refine ⟨h.remarkless t (by simp [hts]), ?_, ?_, ?_⟩
  · rintro rfl
    exact h.branchless (by simp [hts])
  · rintro k' rfl
    rw [← Bool.not_eq_true, hdot]
    intro hlast
    obtain ⟨a, rfl⟩ := List.getLast?_eq_some_iff.1 hlast
    have hchain := h.dotless.infix ⟨a, b, (by simp [hts] : a ++ [.dot, .keyword k'] ++ b = ts)⟩
    simp at hchain
  · intro hends hnil
    refine hdot.2 (h.goesOn a t b hts ?_ hends)
    rw [hnil] at hlen
    simpa [Reading.start] using hlen.1.symm

/-- The token goes behind what stands on the line, and whatever is written later, the line goes on
from there. -/
def Draft.Stays (o : Options) (flat : Bool) (e : Draft) (t : Token) : Prop :=
  ∀ more : List Item, ∃ g v : Text, ∃ below : List Text, (∀ c ∈ g, c = ' ') ∧
    (writeAll o flat (.word t :: more) e).page.lines = e.page.above.reverse ++
      (e.page.current.reverse ++ g ++ t.render o flat e.last ++ v) :: below

theorem Draft.stays {o : Options} {flat : Bool} {t : Token} (e : Draft)
    (ht : Text.Firm (t.render o flat e.last)) : e.Stays o flat t := by
  intro more
  obtain ⟨g, hg, hspace⟩ : ∃ g : Text, (∀ c ∈ g, c = ' ') ∧
      (e.spaceBefore t).current = g.reverse ++ e.page.current := by
    unfold Draft.spaceBefore
    split
    · exact ⟨[' '], by simp, rfl⟩
    · exact ⟨[], by simp, rfl⟩
  have habove : (e.spaceBefore t).above = e.page.above := by
    unfold Draft.spaceBefore
    split <;> rfl
  -- without the lines above, the line is the first one
  let alone : Draft := { e.word o flat t with page := { (e.word o flat t).page with above := [] } }
  have hbelow : Draft.Below e.page.above (e.word o flat t) alone :=
    ⟨⟨by simpa [alone, Draft.word, Page.push] using habove, rfl⟩, rfl⟩
  have hopens : alone.page.Opens (e.page.current.reverse ++ g ++ t.render o flat e.last) := by
    simp [alone, Page.Opens, Draft.word, Page.push, hspace]
  obtain ⟨line, below, hlines, v, hv⟩ := (opens_writeAll (ht.behind _) more flat hopens).lines
  refine ⟨g, v, below, hg, ?_⟩
  rw [hv, ← hlines]
  exact (below_writeAll more flat hbelow).page.lines

/-- A conjunction of a `WHERE` or a `HAVING` that is not inside a bracket passed on begins a line
exactly if it stands outside brackets and is not the `AND` that a `BETWEEN` outside brackets awaits,
unless another `BETWEEN` came inside brackets since: then that `AND` begins a line, too. -/
theorem conjunction_leads_iff {nested : Arrange.Nested} {p : Place} {k : Keyword} {t : Token}
    {before l r rest : List Token} (hk : k = .WHERE ∨ k = .HAVING)
    (hp : p.action before (.keyword k) (l ++ t :: r ++ rest) =
      .write (Place.clauseKeyword k) (.condition 0 false))
    (hc : IsCondition (l ++ t :: r)) (ht : t = .keyword .AND ∨ t = .keyword .OR)
    (hown : true ∉ (Reading.start.after (.keyword k :: before) l (t :: r)).brackets) :
    ∃ items next,
      Arrange.run nested p before (.keyword k :: (l ++ t :: r ++ rest)) =
        (Arrange.run nested next (t :: (l.reverse ++ .keyword k :: before)) (r ++ rest)).map
          (items ++ .word t :: ·) ∧
      ∀ (o : Options) (flat : Bool) (d : Draft),
        let s := Reading.start.after (.keyword k :: before) l (t :: r)
        let e := writeAll o flat items d
        ((e.page.atLineStart = true ↔ s.brackets = [] ∧ ¬(t = .keyword .AND ∧ s.awaits = true)) ↔
          ¬(t = .keyword .AND ∧ s.brackets = [] ∧ s.awaits = true ∧ s.crossed = true)) ∧
        (e.page.atLineStart = true →
          e.page.current = Text.spaces (if t = .keyword .OR then 1 else 0)) ∧
        e.Stays o flat t := by
  have hcomment : t.isComment = false := by rcases ht with rfl | rfl <;> rfl
  rw [← Reading.after_behind _ _ _ hcomment r rest] at hown ⊢
  generalize hs : Reading.start.after (.keyword k :: before) l (t :: (r ++ rest)) = s at hown ⊢
  have hpasses := hc.passes k before rest
  have hallows : s.Allows (l.reverse ++ .keyword k :: before) t := hs ▸ hpasses.behind.head
  obtain ⟨items, hrun, hink⟩ := Arrange.goes_reading nested (by simp [Reading.start])
    hpasses.front (by rwa [← hs] at hown)
  have haction : s.place.action (l.reverse ++ .keyword k :: before) t (r ++ rest) =
      .write (s.line t ++ [.word t])
        (s.next (l.reverse ++ .keyword k :: before) (r ++ rest) t).place :=
    Reading.action_written hown hallows (by rcases ht with rfl | rfl <;> simp)
  rw [List.cons_append, hs, show Reading.start.place = .condition 0 false from rfl] at hrun
  refine ⟨Place.clauseKeyword k ++ items ++ s.line t,
    (s.next (l.reverse ++ .keyword k :: before) (r ++ rest) t).place, ?_, fun o flat d => ?_⟩
  · rw [Arrange.run_write hp, List.append_assoc l, List.cons_append, hrun,
      Arrange.run_write haction]
    simp [map_map]
  · have hclause : (writeAll o flat (Place.clauseKeyword k) d).page.atLineStart = false := by
      rcases hk with rfl | rfl <;> exact Draft.inked_keyword _
    rw [writeAll_append, writeAll_append]
    obtain ⟨hlead, hcolumn⟩ := s.line_conjunction ht (hink hclause)
    refine ⟨?_, hcolumn, Draft.stays _ ?_⟩
    · simp only [hlead]
      by_cases hand : t = .keyword .AND <;> by_cases hnil : s.brackets = [] <;>
        cases s.awaits <;> cases s.crossed <;> simp [hand, hnil]
    · have hsolid : ∀ k prev, Text.Solid ((Token.keyword k).render o flat prev) := fun k =>
        Token.Tidy.solid (t := .keyword k) trivial rfl o flat
      rcases ht with rfl | rfl <;> exact (hsolid _ _).firm

def nestedBetween : List Token :=
  [.identifier ['x'], .keyword .BETWEEN, .openParen, .identifier ['y'], .keyword .BETWEEN,
    .number ['1'], .keyword .AND, .number ['2'], .closeParen]

/-- Of two `BETWEEN`s, one inside the other, the outer one loses its `AND` to a new line. -/
theorem conjunction_leads_nested :
    Reading.start.after [.keyword .WHERE] nestedBetween [.keyword .AND, .identifier ['z']] =
      ⟨[], true, true⟩ ∧
    ∃ items next,
      Arrange.run (arrange 64 63) .statement []
          (.keyword .WHERE :: (nestedBetween ++ [.keyword .AND, .identifier ['z']])) =
        (Arrange.run (arrange 64 63) next
          (.keyword .AND :: (nestedBetween.reverse ++ [.keyword .WHERE])) [.identifier ['z']]).map
            (items ++ .word (.keyword .AND) :: ·) ∧
      ∀ (o : Options) (flat : Bool) (d : Draft),
        (writeAll o flat items d).page.atLineStart = true := by
  have hreading : Reading.start.after [.keyword .WHERE] nestedBetween
      [.keyword .AND, .identifier ['z']] = ⟨[], true, true⟩ := by decide +kernel
  have hc : IsCondition (nestedBetween ++ .keyword .AND :: [.identifier ['z']]) := by
    have hnone : ∀ t ∈ nestedBetween ++ .keyword .AND :: [.identifier ['z']],
        t.ends .condition = false := by decide +kernel
    refine ⟨rfl, by decide +kernel, by decide +kernel, by simp [nestedBetween],
      fun a t b hts _ hends => ?_⟩
    simp [hnone t (by simp [hts])] at hends
  have hp : Place.statement.action [] (.keyword .WHERE)
      (nestedBetween ++ .keyword .AND :: [.identifier ['z']] ++ []) =
        .write (Place.clauseKeyword .WHERE) (.condition 0 false) := rfl
  obtain ⟨items, next, hrun, hlines⟩ := conjunction_leads_iff (.inl rfl) hp hc (.inl rfl)
    (by rw [hreading]; simp)
  refine ⟨hreading, items, next, hrun, fun o flat d => ?_⟩
  have := (hlines o flat d).1
  simp only [hreading] at this
  simpa using this

end SqlLayout

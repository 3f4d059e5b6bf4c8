import SqlLayout.Proofs.Collapse
import SqlLayout.Proofs.Commands
import SqlLayout.Proofs.Repeating

/-! Statements one after the other. A semicolon ends whatever clause stands before it, and the
statement behind it is arranged and written as if it stood alone, but for one thing: whether an
`AS` belongs to a `WITH` is looked up across the semicolon.
-/

set_option autoImplicit false

namespace SqlLayout

def Item.ending : List Item := [.word .semicolon, .newline, .newline]

theorem group_of_fences {d : Nat} {s : List Fence} {ts : List Token}
    (h : fences s ts = some []) (hd : d < s.count .bracket) : ∃ g, group d ts = .ok g := by
  fun_induction group d ts generalizing s with
  | case1 d =>
    obtain rfl : s = [] := by simpa [fences] using h
    simp at hd
  | case2 rest => exact ⟨_, rfl⟩
  | case3 rest d ih =>
    refine exists_map_ok ?_ _
    rcases s with _ | ⟨_ | _, s⟩
    · simp at hd
    · exact ih h (by simpa using hd)
    · simp [fences] at h
  | case4 rest d ih => exact exists_map_ok (ih h (by simpa using hd)) _
  | case5 t rest d h1 h2 h3 ih =>
    refine exists_map_ok ?_ _
    rcases fences_cons h with ⟨-, hr⟩ | ⟨rfl, -⟩ | ⟨-, hr⟩ | ⟨rfl, -⟩ | ⟨-, s₀, rfl, hr⟩
    · exact ih hr hd
    · exact absurd rfl h3
    · exact ih hr (by simpa using hd)
    · cases d with
      | zero => exact absurd rfl (h1 rfl)
      | succ d => exact absurd rfl (h2 d rfl)
    · exact ih hr (by simpa using hd)

theorem caseEnd?_isSome_of_fences {d : Nat} {s : List Fence} {ts : List Token}
    (h : fences s ts = some []) (hd : d < s.count .case) : (caseEnd? d ts).isSome := by
  fun_induction caseEnd? d ts generalizing s with
  | case1 d =>
    obtain rfl : s = [] := by simpa [fences] using h
    simp at hd
  | case2 rest => rfl
  | case3 rest d ih =>
    rw [Option.isSome_map]
    rcases s with _ | ⟨_ | _, s⟩
    · simp at hd
    · simp [fences] at h
    · exact ih h (by simpa using hd)
  | case4 rest d ih =>
    rw [Option.isSome_map]
    exact ih h (by simpa using hd)
  | case5 t rest d h1 h2 h3 ih =>
    rw [Option.isSome_map]
    rcases fences_cons h with ⟨-, hr⟩ | ⟨-, hr⟩ | ⟨rfl, -⟩ | ⟨-, s₀, rfl, hr⟩ | ⟨rfl, -⟩
    · exact ih hr hd
    · exact ih hr (by simpa using hd)
    · exact absurd rfl h3
    · exact ih hr (by simpa using hd)
    · cases d with
      | zero => exact absurd rfl (h1 rfl)
      | succ d => exact absurd rfl (h2 d rfl)

/-- Only what stands before the first token that is no comment can open a query. -/
theorem startsQuery_append {ts : List Token} (h : ∃ t ∈ ts, t.isComment = false)
    (us : List Token) : startsQuery (ts ++ us) = startsQuery ts := by
  obtain ⟨t, ht, hc⟩ := h
  have hfind : (ts.find? fun t => !t.isComment).isSome := List.find?_isSome.2 ⟨t, ht, by simp [hc]⟩
  unfold startsQuery
  rw [List.find?_append, Option.or_of_isSome hfind]

namespace Place

/-- What may be done with a token between clauses, and the brackets that are open after it. -/
inductive Turns (p : Place) (before : List Token) (t : Token) : Action → Prop where
  | write {items : List Item} {next : Place} (hn : next.isClause = true)
      (hplain : t.isPlain = true → next.brackets = p.brackets)
      (hopen : t = .openParen → next.brackets = p.brackets + 1)
      (hclose : t = .closeParen → next.brackets = p.brackets - 1)
      (hcase : t = .keyword .CASE → afterDot before = true) : Turns p before t (.write items next)
  | openBracket {b : Bracket} {next : Place} (ht : t = .openParen) (hn : next.isClause = true)
      (hb : next.brackets = p.brackets) : Turns p before t (.openBracket b next)
  | openCase {next : Place} (ht : t = .keyword .CASE) (hn : next.isClause = true)
      (hb : next.brackets = p.brackets) : Turns p before t (.openCase next)

variable {p : Place} {before : List Token} {t : Token}

theorem turns_keyword {k : Keyword} {items : List Item} {next : Place} (hk : k ≠ .CASE)
    (hn : next.isClause = true) (hb : next.brackets = p.brackets) :
    Turns p before (.keyword k) (.write items next) :=
  .write hn (fun _ => hb) (by simp) (by simp) (by simpa using fun h => absurd h hk)

theorem behindKeyword_brackets (k : Keyword) : (behindKeyword k).brackets = 0 := by
  cases k <;> rfl

theorem Turns.handed {a : Action} (h : Turns .statement before t a) (hb : p.brackets = 0) :
    Turns p before t a := by
  have hs : Place.statement.brackets = p.brackets := hb.symm
  cases h with
  | write hn hplain hopen hclose hcase =>
    rw [hs] at hplain hopen hclose
    exact .write hn hplain hopen hclose hcase
  | openBracket ht hn hbrackets => exact .openBracket ht hn (hbrackets.trans hs)
  | openCase ht hn hbrackets => exact .openCase ht hn (hbrackets.trans hs)

theorem Step.turns {a : Action} (h : Step before p t a) (hp : p.isClause = true) :
    Turns p before t a := by
  induction h with
  | decode | expression => exact .openBracket rfl hp rfl
  | word _ hopen hclose hcase =>
    exact .write hp (fun _ => rfl) (fun h => absurd h hopen) (fun h => by simp [hclose h]) hcase
  | case => exact .openCase rfl hp rfl
  | handed _ hb _ ih => exact (ih rfl).handed hb
  | clause hk => exact turns_keyword hk (behindKeyword_isClause _) (behindKeyword_brackets _)
  | connective hk | object hk => exact turns_keyword hk rfl rfl
  | name | index | on => exact turns_keyword (by simp) rfl rfl
  | semicolon => exact .write rfl (fun _ => rfl) (by simp) (by simp) (by simp)
  | element ht =>
    rcases ht with rfl | ⟨k, hk, rfl⟩
    · exact .write rfl (fun _ => rfl) (by simp) (by simp) (by simp)
    · exact turns_keyword hk rfl rfl
  | openGroup => exact .write rfl (by simp [Token.isPlain]) (fun _ => rfl) (by simp) (by simp)
  | closeGroup => exact .write rfl (by simp [Token.isPlain]) (by simp) (fun _ => rfl) (by simp)
  | targets | row | columns | indexColumns => exact .openBracket rfl rfl rfl
  | @between t ht =>
    have hne : t ≠ .openParen ∧ t ≠ .closeParen ∧ t ≠ .keyword .CASE := by
      rcases ht with rfl | ht
      · simp
      · refine ⟨?_, ?_, ?_⟩ <;> rintro rfl <;> cases ht
    exact .write rfl (fun _ => rfl) (fun h => absurd h hne.1) (fun h => absurd h hne.2.1)
      fun h => absurd h hne.2.2
  | line | pair | head | branch | finish => cases hp

theorem turns_action (hp : p.isClause = true) (rest : List Token) :
    Turns p before t (p.action before t rest) :=
  (step_action p before t rest).turns hp

/-- A semicolon that is no name ends the statement, wherever it stands between clauses. -/
theorem action_semicolon (hp : p.isClause = true) (hb : p.brackets = 0)
    (hdot : afterDot before = false) (rest : List Token) :
    p.action before .semicolon rest = .write Item.ending .statement := by
  have hs : inStatement before .semicolon = .write Item.ending .statement := by
    simp [inStatement, hdot, Item.ending]
  cases p <;>
    simp_all [action, isClause, brackets, inList, inCondition, inInto, inValues, inCreate,
      inCreateObject, inCreateIndex, Token.ends]

end Place

theorem Undotted.afterDot {before ts : List Token} {t : Token} (h : Undotted (before.reverse ++ t :: ts))
    (hdot : Place.afterDot before = true) : t ≠ .keyword .CASE := by
  cases before with
  | nil => simp [Place.afterDot] at hdot
  | cons d before =>
    obtain rfl : d = .dot := by simpa [Place.afterDot] using hdot
    have hpair : Undotted [.dot, t] := h.within ⟨before.reverse, ts, by simp⟩
    have hchain : t ≠ .keyword .CASE ∧ t ≠ .keyword .END := by simpa [Undotted] using hpair
    exact hchain.1

theorem Place.Turns.write_fences {p next : Place} {before ts : List Token} {t : Token} {items : List Item}
    (h : p.Turns before t (.write items next)) (hu : Undotted (before.reverse ++ t :: ts))
    (hf : fences (List.replicate p.brackets .bracket) (t :: ts) = some []) :
    fences (List.replicate next.brackets .bracket) ts = some [] := by
  cases h with
  | write hn hplain hopen hclose hcase =>
    rcases fences_cons hf with ⟨ht, hr⟩ | ⟨rfl, hr⟩ | ⟨rfl, hr⟩ | ⟨rfl, s, hs, hr⟩ | ⟨rfl, s, hs, hr⟩
    · rwa [hplain ht]
    · rwa [hopen rfl, List.replicate_succ]
    · exact absurd rfl (hu.afterDot (hcase rfl))
    · rw [hclose rfl]
      cases hb : p.brackets with
      | zero => simp [hb] at hs
      | succ n =>
        rw [hb, List.replicate_succ] at hs
        rwa [Nat.add_sub_cancel, List.tail_eq_of_cons_eq hs]
    · have hmem : Fence.case ∈ List.replicate p.brackets Fence.bracket := by simp [hs]
      simp at hmem

theorem Place.Turns.group {p next : Place} {before ts : List Token} {t : Token} {b : Bracket}
    (h : p.Turns before t (.openBracket b next))
    (hf : fences (List.replicate p.brackets .bracket) (t :: ts) = some []) :
    t = .openParen ∧ next.isClause = true ∧ ∃ inner after, group 0 ts = .ok (inner, after) ∧
      fences (List.replicate next.brackets .bracket) after = some [] := by
  cases h with
  | openBracket ht hn hb =>
    subst ht
    obtain ⟨⟨inner, after⟩, hg⟩ := group_of_fences (d := 0)
      (s := .bracket :: List.replicate p.brackets .bracket) hf (by simp)
    exact ⟨rfl, hn, inner, after, hg, hb ▸ (group_fences hg (u := []) rfl hf).2⟩

theorem Place.Turns.caseEnd {p next : Place} {before ts : List Token} {t : Token}
    (h : p.Turns before t (.openCase next))
    (hf : fences (List.replicate p.brackets .bracket) (t :: ts) = some []) :
    t = .keyword .CASE ∧ next.isClause = true ∧ ∃ inner after, caseEnd? 0 ts = some (inner, after) ∧
      fences (List.replicate next.brackets .bracket) after = some [] := by
  cases h with
  | openCase ht hn hb =>
    subst ht
    obtain ⟨⟨inner, after⟩, hc⟩ := Option.isSome_iff_exists.1 (caseEnd?_isSome_of_fences (d := 0)
      (s := .case :: List.replicate p.brackets .bracket) hf (by simp))
    obtain ⟨_, -, -, hafter⟩ := caseEnd?_fences hc (u := []) rfl hf
    exact ⟨rfl, hn, inner, after, hc, hb ▸ hafter⟩

theorem Place.afterDot_eq_false {before : List Token} {t : Token}
    (hd : ¬[.dot, t] <:+ before.reverse ++ [t]) : Place.afterDot before = false := by
  rw [Bool.eq_false_iff]
  intro hdot
  cases before with
  | nil => simp [Place.afterDot] at hdot
  | cons d before =>
    obtain rfl : d = .dot := by simpa [Place.afterDot] using hdot
    exact hd ⟨before.reverse, by simp⟩

namespace Arrange

theorem getLast?_behind {ts us : List Token} {t : Token} (h : (ts ++ us).getLast? = some .semicolon)
    (hts : ts.getLast? = some t) (ht : t ≠ .semicolon) : us.getLast? = some .semicolon := by
  rcases us.eq_nil_or_concat with rfl | ⟨us, u, rfl⟩
  · simp_all
  · simpa using h

theorem getLast?_tail {t : Token} {ts : List Token} (h : (t :: ts).getLast? = some .semicolon)
    (ht : t ≠ .semicolon) : ts.getLast? = some .semicolon := by
  have happend : ([t] ++ ts).getLast? = some .semicolon := h
  exact getLast?_behind happend rfl ht

/-- The tokens end a statement, and what follows them is arranged from a statement's beginning. -/
def Severed (nested : Nested) (p : Place) (before ts : List Token) : Prop :=
  ∃ start, ∀ us, run nested p before (ts ++ us) =
    (run nested .statement (ts.reverse ++ before) us).map (start ++ Item.ending ++ ·)

theorem Severed.behind {nested : Nested} {p next : Place} {before x ts : List Token}
    {items : List Item} (h : Severed nested next (x.reverse ++ before) ts)
    (hstep : ∀ us, run nested p before (x ++ (ts ++ us)) =
      (run nested next (x.reverse ++ before) (ts ++ us)).map (items ++ ·)) :
    Severed nested p before (x ++ ts) := by
  obtain ⟨start, hall⟩ := h
  refine ⟨items ++ start, fun us => ?_⟩
  rw [List.append_assoc, hstep, hall, map_map]
  simp

/-- A statement that ends with a semicolon is arranged in the same way whatever follows it, and what
follows is arranged from a statement's beginning. -/
theorem run_append (nested : Nested) {p : Place} {before ts : List Token} (hp : p.isClause = true)
    (hf : fences (List.replicate p.brackets .bracket) ts = some [])
    (hu : Undotted (before.reverse ++ ts)) (hend : ts.getLast? = some .semicolon)
    (hd : ¬[.dot, .semicolon] <:+ before.reverse ++ ts) : Severed nested p before ts := by
  -- with the semicolon to come, more behind it does not change what is done with a token
  have hsame : ∀ {p : Place} {before rest : List Token} {t : Token}, rest.getLast? = some .semicolon →
      ∀ us, p.action before t (rest ++ us) = p.action before t rest := fun hlast us =>
    Place.action_congr rfl (fun _ => rfl) (fun _ => rfl) (fun _ => rfl) fun _ =>
      startsQuery_append ⟨.semicolon, List.mem_of_getLast? hlast, rfl⟩ us
  fun_induction run nested p before ts with
  | case1 => simp at hend
  | case2 p before t rest items next ha ih =>
    have hturn : p.Turns before t (.write items next) := ha ▸ Place.turns_action hp rest
    have hclause : next.isClause = true := by cases hturn with | write hn => exact hn
    cases rest with
    | nil =>
      obtain rfl : t = .semicolon := by simpa using hend
      have hb : p.brackets = 0 := by simpa [fences] using hf
      refine ⟨[], fun us => ?_⟩
      rw [List.singleton_append, run_write
        (Place.action_semicolon hp hb (Place.afterDot_eq_false hd) us)]
      rfl
    | cons u rest =>
      have hlast : (u :: rest).getLast? = some .semicolon := by simpa using hend
      have hrest := ih hclause (hturn.write_fences hu hf) (by simpa using hu) hlast (by simpa using hd)
      exact hrest.behind (x := [t]) fun us => run_write ((hsame hlast us).trans ha)
  | case3 p before t rest b next ha e hg =>
    have hturn : p.Turns before t (.openBracket b next) := ha ▸ Place.turns_action hp rest
    obtain ⟨-, -, _, _, hclosed, -⟩ := hturn.group hf
    simp [hg] at hclosed
  | case4 p before t rest b next ha inner after hg _ ih =>
    have hturn : p.Turns before t (.openBracket b next) := ha ▸ Place.turns_action hp rest
    obtain ⟨rfl, hn, i, a, hclosed, hafter⟩ := hturn.group hf
    obtain ⟨rfl, rfl⟩ : inner = i ∧ after = a := by simpa [hg] using hclosed
    have hlast := getLast?_tail hend (by simp)
    obtain rfl := group_eq_append hg
    have hsplit : (inner ++ [Token.closeParen] ++ after).getLast? = some .semicolon := by
      simpa using hlast
    have hrest := ih hn hafter (by simpa using hu) (getLast?_behind hsplit List.getLast?_concat
      (by simp)) (by simpa using hd)
    have hstep : ∀ us, run nested p before (.openParen :: (inner ++ .closeParen :: (after ++ us))) =
        (run nested next (.closeParen :: (inner.reverse ++ .openParen :: before)) (after ++ us)).map
          (bracket nested b p.indent before inner ++ ·) := fun us =>
      run_openBracket (by simpa using (hsame hlast us).trans ha) (group_append hg (after ++ us))
    have hsevered : Severed nested p before (.openParen :: (inner ++ [.closeParen]) ++ after) :=
      Severed.behind (by simpa using hrest) fun us => by simpa using hstep us
    simpa using hsevered
  | case5 p before t rest next ha hc =>
    have hturn : p.Turns before t (.openCase next) := ha ▸ Place.turns_action hp rest
    obtain ⟨-, -, _, _, hclosed, -⟩ := hturn.caseEnd hf
    simp [hc] at hclosed
  | case6 p before t rest next ha inner after hc _ ih =>
    have hturn : p.Turns before t (.openCase next) := ha ▸ Place.turns_action hp rest
    obtain ⟨rfl, hn, i, a, hclosed, hafter⟩ := hturn.caseEnd hf
    obtain ⟨rfl, rfl⟩ : inner = i ∧ after = a := by simpa [hc] using hclosed
    have hlast := getLast?_tail hend (by simp)
    have hinner := caseEnd?_getLast hc
    obtain rfl := caseEnd?_eq_append hc
    have hrest := ih hn hafter (by simpa using hu) (getLast?_behind hlast hinner (by simp))
      (by simpa using hd)
    have hstep : ∀ us, run nested p before (.keyword .CASE :: (inner ++ (after ++ us))) =
        (run nested next (inner.reverse ++ .keyword .CASE :: before) (after ++ us)).map
          (inset nested true .caseHead p.indent (.keyword .CASE :: inner) ++ ·) := fun us =>
      run_openCase (by simpa using (hsame hlast us).trans ha) (caseEnd?_append hc (after ++ us))
    have hsevered : Severed nested p before (.keyword .CASE :: inner ++ after) :=
      Severed.behind (by simpa using hrest) fun us => by simpa using hstep us
    simpa using hsevered
  | case7 p before t rest items ha =>
    have hturn : p.Turns before t (.finish items) := ha ▸ Place.turns_action hp rest
    cases hturn

end Arrange

namespace Arrange

/-- A statement behind another is arranged as if it stood alone, if no `AS` of it finds a `WITH`
in the other. -/
theorem run_behind {nested : Nested} {p : Place} {before ts x : List Token}
    (hx : x.head? = some .semicolon)
    (has : ∀ y z, before.reverse ++ ts = y ++ .keyword .AS :: z →
      Place.inWith 0 (y.reverse ++ x) = Place.inWith 0 y.reverse) :
    run nested p (before ++ x) ts = run nested p before ts := by
  have hhead : ∀ (before : List Token) {f : Token → Bool}, f .semicolon = false →
      (before ++ x).head?.any f = before.head?.any f := by
    intro before f hf
    cases before with
    | nil => simp [hx, hf]
    | cons b before => rfl
  have hintroducer : ∀ before, Place.afterIntroducer (before ++ x) = Place.afterIntroducer before :=
    fun before => hhead before rfl
  have hsame : ∀ {p : Place} {before rest : List Token} {t : Token},
      (∀ y z, before.reverse ++ t :: rest = y ++ .keyword .AS :: z →
        Place.inWith 0 (y.reverse ++ x) = Place.inWith 0 y.reverse) →
      p.action (before ++ x) t rest = p.action before t rest := by
    intro p before rest t has
    have hdot : Place.afterDot (before ++ x) = Place.afterDot before := by
      cases before with
      | nil => simp [Place.afterDot, hx]
      | cons b before => rfl
    refine Place.action_congr hdot (fun ht => ?_) (fun _ => hhead before rfl)
      (fun _ => hintroducer before) fun _ => rfl
    subst ht
    simpa using has before.reverse rest rfl
  fun_induction run nested p before ts with
  | case1 p before => rw [run]
  | case2 p before t rest items next ha ih =>
    rw [run_write ((hsame has).trans ha), ← ih (by simpa using has), List.cons_append]
  | case3 p before t rest b next ha e hg => rw [run_unclosed ((hsame has).trans ha) hg]
  | case4 p before t rest b next ha inner after hg _ ih =>
    obtain rfl := group_eq_append hg
    rw [run_openBracket ((hsame has).trans ha) hg, ← ih (by simpa using has)]
    simp [bracket, hintroducer]
  | case5 p before t rest next ha hc => rw [run_looseCase ((hsame has).trans ha) hc]
  | case6 p before t rest next ha inner after hc _ ih =>
    obtain rfl := caseEnd?_eq_append hc
    rw [run_openCase ((hsame has).trans ha) hc, ← ih (by simpa using has)]
    simp
  | case7 p before t rest items ha => rw [run_finish ((hsame has).trans ha)]

end Arrange

theorem follows_last (o : Options) : Follows o o fun ts d e => d = e ∧ d.last = ts.getLast? where
  blank := ⟨rfl, rfl⟩
  word flat t _ h := ⟨by rw [h.1], by simp [Draft.word]⟩
  remark flat t n h := ⟨by rw [h.1], by simp [Draft.remark]⟩
  newline h := ⟨by rw [h.1], h.2⟩
  startLine n h := ⟨by rw [h.1], h.2⟩
  wrap flat hab h := ⟨by rw [hab.1, h.1], by simp [Draft.word, Draft.startLine]⟩
  setIn h hi := ⟨by rw [h.1, hi.1], by simp [Draft.setIn, h.2, hi.2, List.getLast?_append]⟩
  query flat body _ h hi := by
    refine ⟨by rw [h.1], ?_⟩
    rw [write_query]
    split <;> simp [Draft.setIn, Draft.setOnLine, h.2, hi.2, List.getLast?_append]
  define flat h hdefs := by
    refine ⟨by rw [h.1, hdefs.eq_of_collapse fun hr => by rw [hr.1]], ?_⟩
    rw [← List.append_assoc, List.getLast?_concat]
    rfl

theorem last_writeAll (o : Options) (flat : Bool) {items : List Item} (hp : Item.AllProper items)
    (hl : Item.AllLed items) :
    (writeAll o flat items .blank).last = (Item.allTokens items).getLast? := by
  simpa using ((follows_last o).writeAll items flat hp hl (follows_last o).blank).2

theorem Leads.tokens {items : List Item} (h : Leads items) : Item.allTokens items ≠ [] := by
  induction h with
  | word => simp [Item.allTokens, Item.tokens]
  | remark => simp [Item.allTokens, Item.tokens]
  | startLine _ ih => simpa [Item.allTokens, Item.tokens] using ih
  | inset _ ih => simp [Item.allTokens, Item.tokens, ih]
  | definitions => simp [Item.allTokens, Item.tokens]

structure Page.Below (base : List Text) (p q : Page) : Prop where
  above : p.above = q.above ++ base
  current : p.current = q.current

namespace Page.Below

variable {base : List Text} {p q : Page}

theorem push (h : p.Below base q) (t : Text) : (p.push t).Below base (q.push t) :=
  ⟨h.above, by simp [Page.push, h.current]⟩

theorem indent (h : p.Below base q) (n : Nat) : (p.indent n).Below base (q.indent n) :=
  ⟨h.above, by simp [Page.indent, h.current]⟩

theorem newline (h : p.Below base q) : p.newline.Below base q.newline :=
  ⟨by simp [Page.newline, h.above, h.current], rfl⟩

theorem atLineStart (h : p.Below base q) : p.atLineStart = q.atLineStart := by
  rw [Page.atLineStart, h.current, Page.atLineStart]

theorem startLine (h : p.Below base q) (n : Nat) : (p.startLine n).Below base (q.startLine n) := by
  have hclear : Page.Below base { p with current := [] } { q with current := [] } := ⟨h.above, rfl⟩
  unfold Page.startLine clearLine
  rw [h.atLineStart]
  cases q.atLineStart with
  | true => exact hclear.indent n
  | false => exact h.newline.indent n

theorem pushBelow (h : p.Below base q) (n : Nat) (lines : List Text) :
    (p.pushBelow n lines).Below base (q.pushBelow n lines) := by
  unfold Page.pushBelow
  induction lines generalizing p q with
  | nil => exact h
  | cons t lines ih => exact ih ((h.newline.indent n).push t)

theorem pushLines (h : p.Below base q) (lines : List Text) :
    (p.pushLines p.column lines).Below base (q.pushLines q.column lines) := by
  have hcolumn : p.column = q.column := by rw [Page.column, h.current, Page.column]
  rw [hcolumn]
  cases lines with
  | nil => exact h
  | cons t lines => exact (h.push t).pushBelow _ lines

end Page.Below

structure Draft.Below (base : List Text) (d e : Draft) : Prop where
  page : d.page.Below base e.page
  last : d.last = e.last

namespace Draft.Below

variable {o : Options} {flat : Bool} {base : List Text} {d e : Draft}

theorem spaceBefore (h : d.Below base e) (t : Token) :
    (d.spaceBefore t).Below base (e.spaceBefore t) := by
  unfold Draft.spaceBefore
  rw [h.last, h.page.atLineStart]
  split
  · exact h.page.push _
  · exact h.page

theorem word (h : d.Below base e) (t : Token) : (d.word o flat t).Below base (e.word o flat t) :=
  ⟨by simpa [Draft.word, h.last] using (h.spaceBefore t).push _, rfl⟩

theorem remark (h : d.Below base e) (t : Text) (n : Nat) :
    (d.remark o flat t n).Below base (e.remark o flat t n) := by
  refine ⟨(Page.Below.newline (Page.Below.push ?_ _)).indent n, rfl⟩
  rw [h.page.atLineStart]
  split
  · exact h.page
  · exact h.page.newline.indent n

theorem startLine (h : d.Below base e) (n : Nat) : (d.startLine n).Below base (e.startLine n) :=
  ⟨h.page.startLine n, h.last⟩

theorem start (h : d.Below base e) (inner : Draft) :
    (inner.first.elim d.page fun t => d.spaceBefore t).Below base
      (inner.first.elim e.page fun t => e.spaceBefore t) := by
  cases inner.first with
  | none => exact h.page
  | some t => exact h.spaceBefore t

theorem setIn (h : d.Below base e) (inner : Draft) : (d.setIn inner).Below base (e.setIn inner) :=
  ⟨(h.start inner).pushLines _, by simp [Draft.setIn, h.last]⟩

theorem setOnLine (h : d.Below base e) (inner : Draft) :
    (d.setOnLine inner).Below base (e.setOnLine inner) :=
  ⟨(h.start inner).push _, by simp [Draft.setOnLine, h.last]⟩

theorem define (h : ((d.startLine 0).word o flat .openParen).Below base
    ((e.startLine 0).word o flat .openParen)) (defs : List Definition) :
    (d.define o flat defs).Below base (e.define o flat defs) := by
  have hfilled : Draft.Below base
      { (d.startLine 0).word o flat .openParen with
        page := ((d.startLine 0).word o flat .openParen).page.pushBelow 0 (Definition.align defs 2) }
      { (e.startLine 0).word o flat .openParen with
        page := ((e.startLine 0).word o flat .openParen).page.pushBelow 0 (Definition.align defs 2) } :=
    ⟨h.page.pushBelow 0 _, h.last⟩
  exact (hfilled.startLine 0).word .closeParen

end Draft.Below

section

variable {o : Options} {base : List Text}

mutual

theorem below_write : ∀ (i : Item) (flat : Bool) {d e : Draft}, d.Below base e →
    (i.write o flat d).Below base (i.write o flat e)
  | .word t, _, _, _, h => h.word t
  | .remark t n, _, _, _, h => h.remark t n
  | .newline, _, _, _, h => ⟨h.page.newline, h.last⟩
  | .startLine n, _, _, _, h => h.startLine n
  | .inset _ _, _, _, _, h => h.setIn _
  | .query body, flat, _, _, h => by
    rw [write_query, write_query]
    split
    · exact h.setOnLine _
    · exact h.setIn _
  | .elements [], _, _, _, h => h
  | .elements (part :: rest), flat, d, e, h => by
    have hcolumn : d.page.column = e.page.column := by
      rw [Page.column, h.page.current, Page.column]
    simp only [Item.write, hcolumn]
    exact below_writeElements rest flat _ (below_writeAll part flat h)
  | .definitions parts, flat, d, e, h => by
    rw [write_definitions, write_definitions]
    exact .define ((h.startLine 0).word .openParen) _

theorem below_writeAll : ∀ (items : List Item) (flat : Bool) {d e : Draft}, d.Below base e →
    (writeAll o flat items d).Below base (writeAll o flat items e)
  | [], _, _, _, h => h
  | i :: rest, flat, _, _, h => below_writeAll rest flat (below_write i flat h)

theorem below_writeElements : ∀ (parts : List (List Item)) (flat : Bool) (wrap : Option Nat)
    {d e : Draft}, d.Below base e →
    (writeElements o flat wrap parts d).Below base (writeElements o flat wrap parts e)
  | [], _, _, _, _, h => h
  | part :: rest, flat, wrap, d, e, h => by
    have hcomma : (d.word o flat .comma).Below base (e.word o flat .comma) := h.word .comma
    refine below_writeElements rest flat wrap (below_writeAll part flat ?_)
    cases wrap with
    | none => exact hcomma
    | some n => exact hcomma.startLine n

end

end

/-- The two drafts before the first token is written: the one stands behind a semicolon, on a line
that is still blank, and on the other there is nothing. -/
structure Draft.Fresh (base : List Text) (d e : Draft) : Prop where
  page : d.page.Below base e.page
  lineStart : e.page.atLineStart = true
  last : d.last = some .semicolon
  blank : e.last = none

namespace Draft.Fresh

variable {o : Options} {flat : Bool} {base : List Text} {d e : Draft}

theorem startLine (h : d.Fresh base e) (n : Nat) : (d.startLine n).Fresh base (e.startLine n) :=
  ⟨h.page.startLine n, Page.atLineStart_startLine _ n, h.last, h.blank⟩

theorem spaceBefore (h : d.Fresh base e) (t : Token) :
    d.spaceBefore t = d.page ∧ e.spaceBefore t = e.page := by
  simp [Draft.spaceBefore, needsSpace, h.last, h.blank, h.page.atLineStart, h.lineStart]

theorem word (h : d.Fresh base e) (t : Token) : (d.word o flat t).Below base (e.word o flat t) := by
  have hrender : t.render o flat d.last = t.render o flat e.last := by
    rw [h.last, h.blank]
    cases t <;> rfl
  refine ⟨?_, rfl⟩
  simpa [Draft.word, h.spaceBefore t, hrender] using h.page.push _

theorem remark (h : d.Fresh base e) (t : Text) (n : Nat) :
    (d.remark o flat t n).Below base (e.remark o flat t n) := by
  have hpage : (d.page.push ((Token.lineComment t).render o flat d.last)).Below base
      (e.page.push ((Token.lineComment t).render o flat e.last)) := h.page.push _
  refine ⟨?_, rfl⟩
  simpa [Draft.remark, h.page.atLineStart, h.lineStart] using hpage.newline.indent n

theorem setIn (h : d.Fresh base e) {inner : Draft} (hi : inner.last ≠ none) :
    (d.setIn inner).Below base (e.setIn inner) := by
  obtain ⟨t, ht⟩ := Option.ne_none_iff_exists'.1 hi
  refine ⟨?_, by simp [Draft.setIn, ht]⟩
  have hpage := h.page.pushLines inner.lines
  cases hf : inner.first with
  | none => simpa [Draft.setIn, hf] using hpage
  | some t => simpa [Draft.setIn, hf, h.spaceBefore t] using hpage

end Draft.Fresh

/-- The first token behind a semicolon is written as the first on a page of its own, and so are all
that follow it. -/
theorem Leads.writeBelow {o : Options} {base : List Text} {items : List Item} (hi : Leads items)
    {flat : Bool} (hp : Item.AllProper items) (hl : Item.AllLed items) {d e : Draft}
    (h : d.Fresh base e) : (writeAll o flat items d).Below base (writeAll o flat items e) := by
  induction hi generalizing d e with
  | @word t rest => exact below_writeAll rest flat (h.word t)
  | @remark t n rest => exact below_writeAll rest flat (h.remark t n)
  | startLine _ ih => exact ih hp.2 hl.2 (h.startLine 0)
  | @inset f body rest hi =>
    have hlast : (writeAll o (flat || f) body .blank).last ≠ none := by
      rw [last_writeAll o (flat || f) hp.1 hl.1]
      simpa using hi.tokens
    exact below_writeAll rest flat (h.setIn hlast)
  | @definitions parts rest =>
    refine below_writeAll rest flat ?_
    rw [write_definitions, write_definitions]
    exact .define ((h.startLine 0).word .openParen) _

theorem Text.trimEnd_append (s : Text) {t : Text} (ht : trimEnd t ≠ []) :
    trimEnd (s ++ t) = s ++ trimEnd t := by
  rw [trimEnd, dropEndWhile_append, if_neg (by simpa [trimEnd] using ht), ← trimEnd]

theorem Draft.Below.text {o : Options} {flat : Bool} {c d e : Draft}
    (h : d.Below (c.word o flat .semicolon).newline.newline.page.above e) (he : e.page.text ≠ []) :
    d.text = (c.word o flat .semicolon).newline.newline.text ++ e.text := by
  obtain ⟨w, ls, habove⟩ : ∃ w ls, (c.word o flat .semicolon).newline.newline.page.above =
      [] :: (w ++ [';']) :: ls :=
    ⟨(c.spaceBefore .semicolon).current.reverse, (c.spaceBefore .semicolon).above, by
      simp [Draft.newline, Draft.word, Page.newline, Page.push, Token.render]⟩
  obtain ⟨v, hjoin⟩ := Text.join_concat ['\n'] ls.reverse (w ++ [';'])
  -- the first statement ends where its semicolon is
  have hfirst : (c.word o flat .semicolon).newline.newline.page.text = v ++ (w ++ [';']) := by
    have hlines : (c.word o flat .semicolon).newline.newline.page.lines =
        (ls.reverse ++ [w ++ [';']]) ++ [[], []] := by
      rw [Page.lines, List.reverse_cons, habove]
      simp [Draft.newline, Page.newline]
    have hsolid : Text.Solid [';'] := by decide
    have htrim := hsolid.dropEndWhile (p := Text.isBlank) (fun _ => id) (v ++ w) ['\n', '\n']
    rw [Page.text, hlines, Text.join_append _ (by simp) (by simp), hjoin, Text.trimEnd]
    simpa [Text.join, Text.dropEndWhile, show Text.isBlank '\n' = true from rfl] using htrim
  have hlines : d.page.lines = (ls.reverse ++ [w ++ [';']]) ++ ([] :: e.page.lines) := by
    rw [Page.lines, h.page.above, h.page.current, habove, Page.lines]
    simp
  have hsecond : d.page.text = v ++ (w ++ [';']) ++ ['\n', '\n'] ++ e.page.text := by
    obtain ⟨m, ms, hm⟩ : ∃ m ms, e.page.lines = m :: ms :=
      List.exists_cons_of_ne_nil (by simp [Page.lines])
    have hbelow : Text.join ['\n'] ([] :: e.page.lines) = '\n' :: Text.join ['\n'] e.page.lines := by
      rw [hm]
      simp [Text.join]
    rw [Page.text, hlines, Text.join_append _ (by simp) (by simp), hjoin, hbelow, Page.text,
      ← Text.trimEnd_append _ he]
    simp
  simp only [Draft.text, hfirst, hsecond, h.last]
  simp [Draft.newline, Draft.word]

theorem checkQuotes_append {ts : List Token} (h : checkQuotes ts = .ok ()) (us : List Token) :
    checkQuotes (ts ++ us) = checkQuotes us := by
  fun_induction checkQuotes ts <;> simp_all [checkQuotes]

theorem checkBalance_append {d : Nat} {ts : List Token} (h : checkBalance d ts = .ok ())
    (us : List Token) : checkBalance d (ts ++ us) = checkBalance 0 us := by
  fun_induction checkBalance d ts <;> simp_all [checkBalance]

theorem Page.Opens.text_ne_nil {d : Draft} {r : Text} (hr : Text.Solid r) (h : d.page.Opens r) :
    d.page.text ≠ [] := by
  intro hnil
  obtain ⟨c, a, rfl, hc⟩ := hr.starts
  obtain ⟨b, hb⟩ := Draft.opens_text hr h
  rw [Draft.text, hnil, List.nil_append] at hb
  split at hb
  · obtain rfl : c = '\n' := by simpa using congrArg List.head? hb
    simp [Text.isBlank] at hc
  · simp at hb

theorem text_apart {o : Options} {start later : List Item} (hi : Leads later)
    (hp : Item.AllProper later) (hl : Item.AllLed later)
    (hs : ∀ m ∈ Item.allMarked false later, ∀ prev, Text.Solid (m.2.render o m.1 prev)) :
    (writeAll o false (start ++ Item.ending ++ later) .blank).text =
      (writeAll o false (start ++ Item.ending) .blank).text ++ (writeAll o false later .blank).text := by
  have hfirst : writeAll o false (start ++ Item.ending) .blank =
      ((writeAll o false start .blank).word o false .semicolon).newline.newline := by
    rw [writeAll_append]
    rfl
  have hfresh : (writeAll o false (start ++ Item.ending) .blank).Fresh
      (writeAll o false (start ++ Item.ending) .blank).page.above .blank := by
    rw [hfirst]
    exact ⟨⟨rfl, rfl⟩, rfl, rfl, rfl⟩
  obtain ⟨r, hr, hopens⟩ : ∃ r, Text.Solid r ∧ (writeAll o false later .blank).page.Opens r :=
    hi.opens ⟨rfl, rfl⟩ hs
  rw [hfirst] at hfresh
  rw [writeAll_append o false _ later, hfirst]
  exact (hi.writeBelow hp hl hfresh).text (hopens.text_ne_nil hr)

open Arrange in
theorem arrange_apart (limit : Nat) {ts us : List Token} (hfenced : Fenced ts)
    (hundotted : Undotted ts) (hend : ts.getLast? = some .semicolon)
    (hdot : ¬[.dot, .semicolon] <:+ ts) (hcloses : Closes us) (hne : us ≠ []) :
    ∃ start later, arrange limit limit .statement ts = .ok (start ++ Item.ending) ∧
      arrange limit limit .statement (ts ++ us) = .ok (start ++ Item.ending ++ later) ∧ Leads later ∧
      ((∀ y z, us = y ++ .keyword .AS :: z →
          Place.inWith 0 (y.reverse ++ ts.reverse) = Place.inWith 0 y.reverse) →
        arrange limit limit .statement us = .ok later) := by
  let nested := below limit limit
  have hrun : ∀ p ts, arrange limit limit p ts = run nested p [] ts := arrange_eq limit limit
  obtain ⟨start, hstart⟩ : ∃ start, ∀ us, run nested .statement [] (ts ++ us) =
      (run nested .statement (ts.reverse ++ []) us).map (start ++ Item.ending ++ ·) :=
    run_append nested rfl hfenced hundotted hend hdot
  obtain ⟨later, hlater⟩ : ∃ later, run nested .statement (ts.reverse ++ []) us = .ok later :=
    run_of_closes rfl hcloses
  refine ⟨start, later, ?_, ?_, leads_run hlater hne, fun has => ?_⟩
  · have hfirst := hstart []
    rw [List.append_nil, run] at hfirst
    rw [hrun, hfirst]
    simp [atEnd, Place.isOpen, Except.map]
  · rw [hrun, hstart us, hlater]
    rfl
  · have hhead : ts.reverse.head? = some .semicolon := by rw [List.head?_reverse, hend]
    have hbehind : run nested .statement ([] ++ ts.reverse) us = run nested .statement [] us :=
      run_behind hhead has
    rw [hrun, ← hbehind, List.nil_append, ← hlater, List.append_nil]

/-- Two statements, the first of which ends with a semicolon, are laid out one after the other. The
first is laid out as it is alone, and so is the second, unless an `AS` of it that stands in no clause of
its own is taken for that of a `WITH` in the first. -/
theorem statements_apart (o : Options) (xs ys : List Token) (source : Text)
    (hxs : isCommand (solid xs) = false) (hys : isCommand (solid ys) = false)
    (hquotes : checkQuotes (solid xs) = .ok ()) (hquotes' : checkQuotes (solid ys) = .ok ())
    (hbalance : checkBalance 0 (solid xs) = .ok ()) (hbalance' : checkBalance 0 (solid ys) = .ok ())
    (htidy : ∀ t ∈ xs ++ ys, t.Tidy) (hne : solid ys ≠ [])
    (hend : (solid xs).getLast? = some .semicolon) (hdot : ¬[.dot, .semicolon] <:+ solid xs)
    (hfenced : Fenced (solid xs)) (hundotted : Undotted (solid xs)) :
    ∃ out out' tail, formatTokens o xs source = .ok out ∧ formatTokens o ys source = .ok out' ∧
      formatTokens o (xs ++ ys) source = .ok (out ++ tail) ∧
      ((∀ y z, solid ys = y ++ .keyword .AS :: z →
        Place.inWith 0 (y.reverse ++ (solid xs).reverse) = Place.inWith 0 y.reverse) → tail = out') := by
  have hsolid : solid (xs ++ ys) = solid xs ++ solid ys := List.filter_append xs ys
  have hxne : solid xs ≠ [] := by
    intro hnil
    simp [hnil] at hend
  have hcommand : isCommand (solid (xs ++ ys)) = false := by
    obtain ⟨t, ts, hts⟩ := List.exists_cons_of_ne_nil hxne
    rw [hsolid, hts, List.cons_append]
    rw [hts] at hxs
    cases t <;> exact hxs
  have hquotesAll : checkQuotes (solid (xs ++ ys)) = .ok () := by
    rw [hsolid, checkQuotes_append hquotes, hquotes']
  have hbalanceAll : checkBalance 0 (solid (xs ++ ys)) = .ok () := by
    rw [hsolid, checkBalance_append hbalance, hbalance']
  obtain ⟨start, later, hfirst, hall, hleads, hsecond⟩ :=
    arrange_apart o.nestingLimit hfenced hundotted hend hdot (closes_of_checkBalance hbalance') hne
  have hsane := sane_arrange hall
  have hled := (nestedLed_arrange _ _ (by simp [Arrange.Starts]) hall).1
  have hinked : ∀ m ∈ Item.allMarked false later, ∀ prev, Text.Solid (m.2.render o m.1 prev) := by
    intro m hm prev
    have htoken : m.2 ∈ solid (xs ++ ys) := by
      rw [hsolid]
      refine hsane.mem_of_marked false ?_
      rw [Item.allMarked_append]
      exact List.mem_append_right _ hm
    obtain ⟨hmem, hgap⟩ := List.mem_filter.1 htoken
    exact (htidy m.2 hmem).solid (by simpa using hgap) o m.1 prev
  obtain ⟨items, hitems⟩ : ∃ items, arrange o.nestingLimit o.nestingLimit .statement (solid ys) =
      .ok items := by
    obtain ⟨nested, hrun⟩ := arrange_eq_run o.nestingLimit o.nestingLimit
    rw [hrun]
    exact Arrange.run_of_closes rfl (closes_of_checkBalance hbalance')
  refine ⟨(writeAll o false (start ++ Item.ending) .blank).text, (writeAll o false items .blank).text,
    (writeAll o false later .blank).text, ?_, ?_, ?_, fun has => ?_⟩
  · rw [formatTokens_layout hxne hxs hquotes hbalance, layout_ok hfirst]
  · rw [formatTokens_layout hne hys hquotes' hbalance', layout_ok hitems]
  · rw [← hsolid] at hall
    rw [formatTokens_layout (by simp [hsolid, hne]) hcommand hquotesAll hbalanceAll, layout_ok hall,
      text_apart hleads (Item.allProper_append.1 hsane.proper).2 (Item.allLed_append.1 hled).2 hinked]
  · obtain rfl : items = later := by simpa [hitems] using hsecond has
    rfl

/-- The `AS` of `rename t as u` starts a line, but not behind a statement that opens with a `WITH`. -/
theorem statements_apart_with :
    ∃ out out' tail, formatTokens {} (tokenize "with q as (select 1) delete t;".toList) [] = .ok out ∧
      formatTokens {} (tokenize " rename t as u".toList) [] = .ok out' ∧
      formatTokens {} (tokenize "with q as (select 1) delete t;".toList ++
        tokenize " rename t as u".toList) [] = .ok (out ++ tail) ∧
      out' = "rename t\nAS\nu".toList ∧ tail = "rename t AS u".toList := by
  have hx : tokenize "with q as (select 1) delete t;".toList =
      [.keyword .WITH, .gap [' '], .identifier ['q'], .gap [' '], .keyword .AS, .gap [' '], .openParen,
        .keyword .SELECT, .gap [' '], .number ['1'], .closeParen, .gap [' '], .keyword .DELETE,
        .gap [' '], .identifier ['t'], .semicolon] := by decide +kernel
  have hy : tokenize " rename t as u".toList =
      [.gap [' '], .identifier "rename".toList, .gap [' '], .identifier ['t'], .gap [' '],
        .keyword .AS, .gap [' '], .identifier ['u']] := by decide +kernel
  have hapart := statements_apart {} (tokenize "with q as (select 1) delete t;".toList)
    (tokenize " rename t as u".toList) []
  rw [hx, hy] at hapart ⊢
  obtain ⟨out, out', tail, hfirst, hsecond, hall, -⟩ :=
    hapart (by decide) (by decide) (by decide) (by decide) (by decide) (by decide)
      (by decide) (by decide) (by decide) (by decide) (by decide) (by decide)
  refine ⟨out, out', tail, hfirst, hsecond, hall, ?_, ?_⟩
  · exact Except.ok.inj (hsecond.symm.trans (by decide +kernel))
  · obtain rfl : out = "WITH q AS (SELECT 1) DELETE t;\n\n".toList :=
      Except.ok.inj (hfirst.symm.trans (by decide +kernel))
    exact List.append_cancel_left (Except.ok.inj (hall.symm.trans (by decide +kernel)))

end SqlLayout

import SqlLayout.Layout.Place

/-! What is done with one token, said once for all places. -/

set_option autoImplicit false

namespace SqlLayout

def Item.isBreak : Item → Bool
  | .newline | .startLine _ => true
  | _ => false

namespace Place

def isClause : Place → Bool
  | .inline | .block | .pairs _ | .caseHead | .branches => false
  | _ => true

def brackets : Place → Nat
  | .condition depth _ => depth
  | _ => 0

def behindKeyword : Keyword → Place
  | .SELECT => .list .select
  | .SET => .list .set
  | .GROUP_BY => .list .groupBy
  | .FROM => .list .source
  | .WHERE | .HAVING => .condition 0 false
  | .CREATE => .create
  | .VALUES => .values
  | .INTO => .into
  | _ => .statement

/-- The steps from a place: what is done there with a token, by what the token is to the place. -/
inductive Step (before : List Token) : Place → Token → Action → Prop where
  /-- The brackets of a `DECODE`. -/
  | decode {p : Place} (hd : before.head?.any Token.isDecode = true) :
      Step before p .openParen (.openBracket .pairs p)
  /-- A word of an expression. -/
  | word {p : Place} {t : Token} (hp : p ≠ .caseHead) (hopen : t ≠ .openParen)
      (hclose : t = .closeParen → p.brackets = 0)
      (hcase : t = .keyword .CASE → afterDot before = true)
      (hend : p = .branches → t = .keyword .END → afterDot before = true)
      (hhead : p = .create ∨ p = .createIndex → t.breaksBefore = false ∧ t ≠ .semicolon)
      (hcondition : ∀ between, p = .condition 0 between →
        afterDot before = true ∨ t.ends .condition = false) :
      Step before p t (.write (Item.echo p.indent [t]) p)
  /-- The brackets of an expression. -/
  | expression {p : Place} (hp : p ≠ .caseHead) (hhead : p ≠ .create ∧ p ≠ .createIndex) :
      Step before p .openParen (.openBracket .expression p)
  | case {p : Place} (hp : p ≠ .caseHead) : Step before p (.keyword .CASE) (.openCase p)
  /-- A token that no clause keeps for itself. -/
  | handed {p : Place} {t : Token} {a : Action} (hp : p.isClause = true) (hb : p.brackets = 0)
      (h : Step before .statement t a) : Step before p t a
  | clause {k : Keyword} (hk : k ≠ .CASE) :
      Step before .statement (.keyword k) (.write (clauseKeyword k) (behindKeyword k))
  /-- The `AS` of a `WITH`. -/
  | name : Step before .statement (.keyword .AS) (.write [.word (.keyword .AS)] .statement)
  | semicolon :
      Step before .statement .semicolon (.write [.word .semicolon, .newline, .newline] .statement)
  /-- A comma or a join between the elements of a clause. -/
  | element {c : Clause} {t : Token} (ht : t = .comma ∨ ∃ k, k ≠ .CASE ∧ t = .keyword k) :
      Step before (.list c) t (.write [.word t, .startLine c.indent] (.list c))
  /-- A keyword that joins conditions, or the `AND` of a `BETWEEN`. -/
  | connective {depth : Nat} {between awaits : Bool} {k : Keyword} {s : List Item}
      (hk : k ≠ .CASE) (hs : s = [] ∨ ∃ n, s = [.startLine n])
      (hend : Clause.condition.ends k = false) :
      Step before (.condition depth between) (.keyword k)
        (.write (s ++ [.word (.keyword k)]) (.condition depth awaits))
  | openGroup {depth : Nat} {between : Bool} :
      Step before (.condition depth between) .openParen
        (.write [.word .openParen] (.condition (depth + 1) between))
  | closeGroup {depth : Nat} {between : Bool} :
      Step before (.condition depth between) .closeParen
        (.write [.word .closeParen] (.condition (depth - 1) between))
  | targets : Step before .into .openParen (.openBracket .row .statement)
  | row : Step before .values .openParen (.openBracket .row .values)
  /-- What may stand between rows. -/
  | between {t : Token} (ht : t = .comma ∨ t.isComment = true) :
      Step before .values t (.write (Item.echo 0 [t]) .values)
  /-- The kind of object created. -/
  | object {k : Keyword} (hk : k ≠ .CASE) :
      Step before .create (.keyword k) (.write [.word (.keyword k)] .createObject)
  | index : Step before .create (.keyword .INDEX) (.write [.word (.keyword .INDEX)] .createIndex)
  | columns : Step before .createObject .openParen (.openBracket .columns .statement)
  | on : Step before .createIndex (.keyword .ON)
      (.write [.startLine 0, .word (.keyword .ON)] .createIndex)
  | indexColumns : Step before .createIndex .openParen (.openBracket .indexColumns .statement)
  | line : Step before .block .comma (.write [.word .comma, .newline] .block)
  | pair {commas : Nat} :
      Step before (.pairs commas) .comma
        (.write (.word .comma :: if commas % 2 = 0 then [.newline] else []) (.pairs (commas + 1)))
  | head {t : Token} : Step before .caseHead t (.write [.word t] .branches)
  | branch {k : Keyword} (hk : k ≠ .CASE ∧ k ≠ .END) :
      Step before .branches (.keyword k) (.write [.startLine 2, .word (.keyword k)] .branches)
  | finish : Step before .branches (.keyword .END) (.finish [.startLine 0, .word (.keyword .END)])

variable {p : Place} {before : List Token} {t : Token}

/-- A token that `p` does not hear is treated as one of an expression. -/
theorem step_inExpression (hp : p ≠ .caseHead)
    (hclose : t = .closeParen → p.brackets = 0)
    (hend : p = .branches → t = .keyword .END → afterDot before = true)
    (hhead : p = .create ∨ p = .createIndex →
      t ≠ .openParen ∧ t.breaksBefore = false ∧ t ≠ .semicolon)
    (hcondition : ∀ between, p = .condition 0 between →
      afterDot before = true ∨ t.ends .condition = false) :
    Step before p t (inExpression p before t) := by
  unfold inExpression
  split
  · exact .expression hp ⟨fun h => (hhead (.inl h)).1 rfl, fun h => (hhead (.inr h)).1 rfl⟩
  · split
    · rename_i hdot
      exact .word hp (by simp) hclose (fun _ => hdot) hend (fun h => (hhead h).2) hcondition
    · exact .case hp
  · rename_i hopen hcase
    exact .word hp hopen hclose (fun h => absurd h hcase) hend (fun h => (hhead h).2) hcondition

theorem step_inStatement : Step before .statement t (inStatement before t) := by
  have hx : Step before .statement t (inExpression .statement before t) :=
    step_inExpression (by simp) (fun _ => rfl) (by simp) (by simp) (by simp)
  unfold inStatement
  split
  · exact hx
  · split
    · rename_i k
      split
      any_goals exact .clause (by simp)
      · split
        · exact .name
        · exact .clause (k := .AS) (by simp)
      · split
        · rename_i h
          have hk : k ≠ .CASE := by
            rintro rfl
            simp [Keyword.breaksBefore, Keyword.breaksAfter] at h
          have hnext : behindKeyword k = .statement := by unfold behindKeyword; split <;> simp_all
          have hclause : Step before .statement (.keyword k) _ := .clause hk
          rwa [hnext] at hclause
        · exact hx
    · exact .semicolon
    · exact hx

theorem step_handed (hp : p.isClause = true) (hb : p.brackets = 0) :
    Step before p t (inStatement before t) :=
  .handed hp hb step_inStatement

theorem step_inList {c : Clause} : Step before (.list c) t (inList c before t) := by
  have hx : Step before (.list c) t (inExpression (.list c) before t) :=
    step_inExpression (by simp) (fun _ => rfl) (by simp) (by simp) (by simp)
  unfold inList
  split
  · exact step_handed rfl rfl
  · split
    · exact .element (.inl rfl)
    · split
      · rename_i k _ h
        refine .element (.inr ⟨k, ?_, rfl⟩)
        rintro rfl
        simp [Keyword.isJoin] at h
      · exact hx
    · exact hx

theorem step_inCondition {depth : Nat} {between : Bool} {rest : List Token} :
    Step before (.condition depth between) t (inCondition depth between before t rest) := by
  unfold inCondition
  simp only
  split
  · rename_i h
    exact step_handed rfl (by simp_all [brackets])
  · rename_i hstays
    have hx : t ≠ .closeParen → Step before (.condition depth between) t
        (inExpression (.condition depth between) before t) := fun h =>
      step_inExpression (by simp) (fun ht => absurd ht h) (by simp) (by simp) fun _ hp => by
        obtain ⟨rfl, -⟩ : depth = 0 ∧ _ := by simpa using hp
        cases hdot : afterDot before <;> simp_all
    split
    · exact .connective (s := []) (by simp) (.inl rfl) rfl
    · split
      · split
        · exact .connective (s := []) (by simp) (.inl rfl) rfl
        · exact .connective (s := [.startLine 0]) (by simp) (.inr ⟨_, rfl⟩) rfl
      · exact hx (by simp)
    · split
      · exact .connective (s := [.startLine 1]) (by simp) (.inr ⟨_, rfl⟩) rfl
      · exact hx (by simp)
    · split
      · exact hx (by simp)
      · exact .openGroup
    · exact .closeGroup
    · rename_i hclose
      exact hx hclose

theorem step_inInto : Step before .into t (inInto before t) := by
  unfold inInto
  split
  · exact .targets
  · exact step_handed rfl rfl
  · exact step_handed rfl rfl
  · split
    · exact step_handed rfl rfl
    · exact step_inExpression (by simp) (fun _ => rfl) (by simp) (by simp) (by simp)

theorem step_inValues : Step before .values t (inValues before t) := by
  unfold inValues
  split
  · exact .row
  · exact .between (.inl rfl)
  · exact .between (.inr rfl)
  · exact .between (.inr rfl)
  · exact step_handed rfl rfl

theorem step_inCreate : Step before .create t (inCreate before t) := by
  unfold inCreate
  split
  · exact .object (by simp)
  · exact .object (by simp)
  · exact .index
  · exact step_handed rfl rfl
  · exact step_handed rfl rfl
  · split
    · exact step_handed rfl rfl
    · rename_i hsemicolon hopen hbreak
      exact step_inExpression (by simp) (fun _ => rfl) (by simp)
        (fun _ => ⟨hopen, by simpa using hbreak, hsemicolon⟩) (by simp)

theorem step_inCreateObject : Step before .createObject t (inCreateObject before t) := by
  unfold inCreateObject
  split
  · exact .columns
  · exact step_handed rfl rfl
  · split
    · exact step_handed rfl rfl
    · exact step_inExpression (by simp) (fun _ => rfl) (by simp) (by simp) (by simp)

theorem step_inCreateIndex : Step before .createIndex t (inCreateIndex before t) := by
  unfold inCreateIndex
  split
  · exact .on
  · exact .indexColumns
  · exact step_handed rfl rfl
  · split
    · exact step_handed rfl rfl
    · rename_i hopen hsemicolon hbreak
      exact step_inExpression (by simp) (fun _ => rfl) (by simp)
        (fun _ => ⟨hopen, by simpa using hbreak, hsemicolon⟩) (by simp)

theorem step_inBranches : Step before .branches t (inBranches before t) := by
  unfold inBranches
  split
  · rename_i hdot
    exact step_inExpression (by simp) (fun _ => rfl) (fun _ _ => hdot) (by simp) (by simp)
  · split
    · exact .branch (by simp)
    · exact .branch (by simp)
    · exact .finish
    · rename_i hend
      exact step_inExpression (by simp) (fun _ => rfl) (fun _ h => absurd h hend) (by simp) (by simp)

theorem step_action (p : Place) (before : List Token) (t : Token) (rest : List Token) :
    Step before p t (p.action before t rest) := by
  unfold action
  split
  · rename_i h
    simp only [Bool.and_eq_true, decide_eq_true_eq] at h
    exact h.1 ▸ .decode h.2
  · split
    · exact step_inStatement
    · exact step_inList
    · exact step_inCondition
    · exact step_inInto
    · exact step_inValues
    · exact step_inCreate
    · exact step_inCreateObject
    · exact step_inCreateIndex
    · exact step_inExpression (by simp) (fun _ => rfl) (by simp) (by simp) (by simp)
    · split
      · rename_i h
        exact h ▸ .line
      · exact step_inExpression (by simp) (fun _ => rfl) (by simp) (by simp) (by simp)
    · split
      · rename_i h
        exact h ▸ .pair
      · exact step_inExpression (by simp) (fun _ => rfl) (by simp) (by simp) (by simp)
    · exact .head
    · exact step_inBranches

/-- What may be done at `p` with the token `t`: it is written once, with line ends around it, or
it opens a bracket or a `CASE`, or it is the `END` of the `CASE` that is being laid out. -/
inductive Reads (p : Place) (before : List Token) (t : Token) : Action → Prop where
  | write {s : List Item} {n : Nat} {f : List Item} {next : Place}
      (hs : s = [] ∨ s = [.startLine 0] ∨ p ≠ .statement ∧ ∃ n, s = [.startLine n])
      (hf : ∀ i ∈ f, i.isBreak = true) (ho : next.isOpen = p.isOpen) (hn : next ≠ .caseHead)
      (hb : p = .branches → t ≠ .openParen ∧
        (t = .keyword .CASE ∨ t = .keyword .END → afterDot before = true)) :
      Reads p before t (.write (s ++ Item.echo n [t] ++ f) next)
  | openBracket {b : Bracket} {next : Place} (ht : t = .openParen)
      (hp : p ≠ .caseHead) (ho : next.isOpen = p.isOpen) (hn : next ≠ .caseHead)
      (hd : b = .pairs → before.head?.any Token.isDecode = true) :
      Reads p before t (.openBracket b next)
  | openCase {next : Place} (ht : t = .keyword .CASE) (hp : p ≠ .caseHead)
      (ho : next.isOpen = p.isOpen) (hn : next ≠ .caseHead) : Reads p before t (.openCase next)
  | finish (hp : p = .branches) (ht : t = .keyword .END) :
      Reads p before t (.finish [.startLine 0, .word t])

def nextPlace : Action → Option Place
  | .write _ next | .openBracket _ next | .openCase next => some next
  | .finish _ => none

theorem Reads.isOpen_next {a : Action} {next : Place} (h : Reads p before t a)
    (hn : nextPlace a = some next) : next.isOpen = p.isOpen := by
  cases h <;> simp_all [nextPlace]

theorem Reads.next_ne {a : Action} {next : Place} (h : Reads p before t a)
    (hn : nextPlace a = some next) : next ≠ .caseHead := by
  cases h <;> simp_all [nextPlace]

theorem Reads.eq_openParen {b : Bracket} {next : Place}
    (h : Reads p before t (.openBracket b next)) : t = .openParen := by
  cases h with | openBracket ht => exact ht

theorem Reads.eq_case {next : Place} (h : Reads p before t (.openCase next)) :
    t = .keyword .CASE := by
  cases h with | openCase ht => exact ht

theorem eq_branches (hp : p.isOpen = true) (hc : p ≠ .caseHead) : p = .branches := by
  cases p <;> simp_all [isOpen]

theorem Reads.next_eq_branches {a : Action} {next : Place} (h : Reads .branches before t a)
    (hn : nextPlace a = some next) : next = .branches :=
  eq_branches (h.isOpen_next hn) (h.next_ne hn)

theorem Reads.word {s f : List Item} {next : Place} (ht : ∀ x, t ≠ .lineComment x)
    (hs : s = [] ∨ s = [.startLine 0] ∨ p ≠ .statement ∧ ∃ n, s = [.startLine n])
    (hf : ∀ i ∈ f, i.isBreak = true) (ho : next.isOpen = p.isOpen) (hn : next ≠ .caseHead)
    (hb : p = .branches → t ≠ .openParen ∧
      (t = .keyword .CASE ∨ t = .keyword .END → afterDot before = true)) :
    Reads p before t (.write (s ++ .word t :: f) next) := by
  have he : Item.echo 0 [t] = [.word t] := by cases t <;> first | rfl | exact absurd rfl (ht _)
  have hw : Reads p before t (.write (s ++ Item.echo 0 [t] ++ f) next) := .write hs hf ho hn hb
  rwa [he, List.append_assoc, List.singleton_append] at hw

theorem behindKeyword_isClause (k : Keyword) : (behindKeyword k).isClause = true := by
  cases k <;> rfl

theorem isOpen_of_isClause (hp : p.isClause = true) : p.isOpen = false := by
  cases p <;> first | rfl | cases hp

theorem ne_caseHead_of_isClause (hp : p.isClause = true) : p ≠ .caseHead := by
  rintro rfl
  cases hp

theorem Reads.clause {k : Keyword} :
    Reads .statement before (.keyword k) (.write (clauseKeyword k) (behindKeyword k)) := by
  have hnext := behindKeyword_isClause k
  have hw : Reads .statement before (.keyword k) (.write
      ((if k.breaksBefore then [.startLine 0] else []) ++ .word (.keyword k) ::
        if k.breaksAfter then [.newline] else []) (behindKeyword k)) :=
    .word (by simp) (by split <;> simp) (by split <;> simp [Item.isBreak])
      (isOpen_of_isClause hnext) (ne_caseHead_of_isClause hnext) (by simp)
  simpa [clauseKeyword] using hw

theorem Reads.handed {a : Action} (h : Reads .statement before t a) (hp : p.isClause = true) :
    Reads p before t a := by
  have ho : p.isOpen = false := isOpen_of_isClause hp
  have hb : p ≠ .branches := by
    rintro rfl
    cases hp
  cases h with
  | write hs hf hnext hn =>
    exact .write (hs.imp_right (.imp_right fun h => absurd rfl h.1)) hf (hnext.trans ho.symm) hn
      fun h => absurd h hb
  | openBracket ht _ hnext hn hd =>
    exact .openBracket ht (ne_caseHead_of_isClause hp) (hnext.trans ho.symm) hn hd
  | openCase ht _ hnext hn =>
    exact .openCase ht (ne_caseHead_of_isClause hp) (hnext.trans ho.symm) hn
  | finish h => cases h

theorem Step.reads {a : Action} (h : Step before p t a)
    (hc : p = .caseHead → before = [] ∧ ∀ x, t ≠ .lineComment x) : Reads p before t a := by
  induction h with
  | @decode p hd =>
    have hp : p ≠ .caseHead := by
      rintro rfl
      simp [(hc rfl).1] at hd
    exact .openBracket rfl hp rfl hp fun _ => hd
  | @word p t hp hopen hclose hcase hend =>
    have hw : Reads p before t (.write ([] ++ Item.echo p.indent [t] ++ []) p) :=
      .write (.inl rfl) (by simp) rfl hp fun hb => ⟨hopen, fun h => h.elim hcase (hend hb)⟩
    simpa using hw
  | expression hp => exact .openBracket rfl hp rfl hp (by simp)
  | case hp => exact .openCase rfl hp rfl hp
  | handed hp _ _ ih => exact (ih (by simp)).handed hp
  | clause => exact .clause
  | name => exact .word (s := []) (f := []) (by simp) (.inl rfl) (by simp) rfl (by simp) (by simp)
  | semicolon =>
    exact .word (s := []) (f := [.newline, .newline]) (by simp) (.inl rfl) (by simp [Item.isBreak])
      rfl (by simp) (by simp)
  | @element c t ht =>
    have hw : ∀ x, t ≠ .lineComment x := by
      rintro x rfl
      simp at ht
    exact .word (s := []) (f := [.startLine c.indent]) hw (.inl rfl) (by simp [Item.isBreak]) rfl
      (by simp) (by simp)
  | connective _ hs =>
    exact .word (f := []) (by simp) (by simpa using hs.imp_right .inr) (by simp) rfl (by simp)
      (by simp)
  | openGroup | closeGroup | object | index =>
    exact .word (s := []) (f := []) (by simp) (.inl rfl) (by simp) rfl (by simp) (by simp)
  | targets | row | columns | indexColumns => exact .openBracket rfl (by simp) rfl (by simp) (by simp)
  | @between t =>
    have hw : Reads .values before t (.write ([] ++ Item.echo 0 [t] ++ []) .values) :=
      .write (.inl rfl) (by simp) rfl (by simp) (by simp)
    simpa using hw
  | on =>
    exact .word (s := [.startLine 0]) (f := []) (by simp) (by simp) (by simp) rfl (by simp) (by simp)
  | line =>
    exact .word (s := []) (f := [.newline]) (by simp) (.inl rfl) (by simp [Item.isBreak]) rfl
      (by simp) (by simp)
  | @pair commas =>
    exact .word (s := []) (f := if commas % 2 = 0 then [.newline] else []) (by simp) (.inl rfl)
      (by split <;> simp [Item.isBreak]) rfl (by simp) (by simp)
  | head => exact .word (s := []) (f := []) (hc rfl).2 (.inl rfl) (by simp) rfl (by simp) (by simp)
  | branch hk =>
    exact .word (s := [.startLine 2]) (f := []) (by simp) (.inr (.inr ⟨by simp, 2, rfl⟩)) (by simp)
      rfl (by simp) fun _ => ⟨by simp, by simp [hk.1, hk.2]⟩
  | finish => exact .finish rfl rfl

theorem reads_action (hc : p = .caseHead → before = [] ∧ ∀ x, t ≠ .lineComment x)
    (rest : List Token) : Reads p before t (p.action before t rest) :=
  (step_action p before t rest).reads hc

/-- Of what stands around a token only this matters: whether there is a dot before it, the clause that
an `AS` is in, and for a bracket the word before it and whether a query follows. -/
theorem action_congr {before' rest rest' : List Token} (hdot : afterDot before' = afterDot before)
    (has : t = .keyword .AS → inWith 0 before' = inWith 0 before)
    (hdecode : t = .openParen → before'.head?.any Token.isDecode = before.head?.any Token.isDecode)
    (hintroducer : t = .openParen → afterIntroducer before' = afterIntroducer before)
    (hquery : t = .openParen → startsQuery rest' = startsQuery rest) :
    p.action before' t rest' = p.action before t rest := by
  have hexpression : ∀ q, inExpression q before' t = inExpression q before t := fun q => by
    simp only [inExpression, hdot]
  have hstatement : inStatement before' t = inStatement before t := by
    unfold inStatement
    simp only [hdot, hexpression]
    split
    · rfl
    · split
      · split <;> first | rfl | rw [has rfl]
      · rfl
      · rfl
  have hcondition : ∀ depth between,
      inCondition depth between before' t rest' = inCondition depth between before t rest := by
    intro depth between
    unfold inCondition
    simp only [hdot, hexpression, hstatement]
    split
    · rfl
    · split <;> first | rfl | rw [hintroducer rfl, hquery rfl]
  have hbracket : (t = .openParen && before'.head?.any Token.isDecode) =
      (t = .openParen && before.head?.any Token.isDecode) := by
    by_cases ht : t = .openParen
    · rw [hdecode ht]
    · simp [ht]
  unfold action
  simp only [hbracket, inList, inInto, inValues, inCreate, inCreateObject, inCreateIndex, inBranches,
    hdot, hexpression, hstatement, hcondition]

end Place

end SqlLayout

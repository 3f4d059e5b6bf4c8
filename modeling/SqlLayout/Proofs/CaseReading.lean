import SqlLayout.Proofs.Faithful

/-! How far the layout of a `CASE` reads. Two scans look for its `END`: one counts the words over
the flat text, the other stops at the first `END` that is no name, passing over brackets and inner
`CASE`s. Where they disagree, the text between is not written.
-/

set_option autoImplicit false

namespace SqlLayout

namespace Arrange

variable {nested : Nested} {p next : Place} {before r inner after : List Token} {t : Token}

/-- The tokens are read up to an `END`, and what stands behind it is not looked at. -/
def StopsAtEnd (nested : Nested) (before ts : List Token) (items : List Item) : Prop :=
  ∃ read left, ts = read ++ .keyword .END :: left ∧
    (∀ tail, run nested .branches before (read ++ .keyword .END :: tail) = .ok items) ∧
    ∀ items, run nested .branches before read ≠ .ok items

theorem StopsAtEnd.behind {before' x ts : List Token} {items more : List Item}
    (h : StopsAtEnd nested before' ts more)
    (hstep : ∀ tail, run nested .branches before (x ++ tail) =
      (run nested .branches before' tail).map (items ++ ·)) :
    StopsAtEnd nested before (x ++ ts) (items ++ more) := by
  obtain ⟨read, left, rfl, htail, hshort⟩ := h
  refine ⟨x ++ read, left, by simp, fun tail => ?_, fun its h => ?_⟩
  · rw [List.append_assoc, hstep, htail]
    rfl
  · rw [hstep] at h
    exact hshort _ (map_eq_ok h).choose_spec.1

/-- The layout of a `CASE` reads up to an `END` and does not look behind it. -/
theorem run_branches_reads {ts : List Token} {items : List Item}
    (h : run nested .branches before ts = .ok items) : StopsAtEnd nested before ts items := by
  generalize hp : Place.branches = p at h
  have hstart : Starts p before ts := by rintro rfl; simp at hp
  fun_induction run nested p before ts generalizing items with
  | case1 p before => subst hp; simp [atEnd, Place.isOpen] at h
  | case2 p before t rest its next ha ih =>
    subst hp
    obtain ⟨more, hm, rfl⟩ := map_eq_ok h
    have hr := ha ▸ hstart.reads
    obtain rfl := hr.next_eq_branches rfl
    exact (ih rfl hm (by simp [Starts])).behind (x := [t]) fun tail => run_write (r := tail) ha
  | case3 => simp at h
  | case4 p before t rest b next ha inner after hg _ ih =>
    subst hp
    obtain ⟨more, hm, rfl⟩ := map_eq_ok h
    have hr := ha ▸ hstart.reads
    obtain rfl := hr.next_eq_branches rfl
    obtain rfl := group_eq_append hg
    rw [← List.cons_append, List.append_cons]
    refine (ih rfl hm (by simp [Starts])).behind fun tail => ?_
    simpa using run_openBracket (r := inner ++ .closeParen :: tail) ha (group_append hg tail)
  | case5 p before t rest next ha =>
    subst hp
    obtain ⟨more, hm, rfl⟩ := map_eq_ok h
    obtain rfl := (ha ▸ hstart.reads).next_eq_branches rfl
    simp [atEnd, Place.isOpen] at hm
  | case6 p before t rest next ha inner after hc _ ih =>
    subst hp
    obtain ⟨more, hm, rfl⟩ := map_eq_ok h
    have hr := ha ▸ hstart.reads
    obtain rfl := hr.next_eq_branches rfl
    obtain rfl := caseEnd?_eq_append hc
    rw [← List.cons_append]
    exact (ih rfl hm (by simp [Starts])).behind fun tail =>
      run_openCase (r := inner ++ tail) ha (caseEnd?_append hc tail)
  | case7 p before t rest its ha =>
    subst hp
    injection h with h
    subst h
    have hr := ha ▸ hstart.reads
    cases hr with
    | finish _ ht =>
      subst ht
      refine ⟨[], rest, rfl, fun tail => run_finish (r := tail) ha, fun its h => ?_⟩
      simp [run, atEnd, Place.isOpen] at h

end Arrange

/-- Where the scan for `END` stands behind `read`, which it passed: at the `END` it looks for just
when `read` has as many ends as beginnings. -/
theorem caseEnd?_passed {d : Nat} {read left after : List Token} {ts : List Token}
    (h : caseEnd? d (read ++ .keyword .END :: ts) = some (read ++ .keyword .END :: left, after)) :
    left = [] ↔ d + read.count (.keyword .CASE) = read.count (.keyword .END) := by
  induction read generalizing d with
  | nil =>
    cases d with
    | zero => simp_all [caseEnd?]
    | succ d =>
      simp only [List.nil_append, caseEnd?, Option.map_eq_some_iff, Prod.mk.injEq, Prod.exists] at h
      obtain ⟨i, a, hi, hl, -⟩ := h
      obtain rfl : i = left := by simpa using hl
      have hne : i ≠ [] := by
        rintro rfl
        cases ts <;> simp [caseEnd?] at hi
        split at hi <;> simp at hi
      simp [hne]
  | cons t read ih =>
    simp only [List.cons_append] at h
    unfold caseEnd? at h
    split at h
    · simp at h
    · obtain ⟨⟨i, a⟩, hi, he⟩ := Option.map_eq_some_iff.1 h
      obtain ⟨rfl, rfl⟩ : i = read ++ .keyword .END :: left ∧ a = after := by simpa using he
      have := ih hi
      rw [this]
      simp
      omega
    · obtain ⟨⟨i, a⟩, hi, he⟩ := Option.map_eq_some_iff.1 h
      obtain ⟨rfl, rfl⟩ : i = read ++ .keyword .END :: left ∧ a = after := by simpa using he
      have := ih hi
      rw [this]
      simp
      omega
    · rename_i h3 h1 h2
      obtain ⟨⟨i, a⟩, hi, he⟩ := Option.map_eq_some_iff.1 h
      obtain ⟨rfl, rfl⟩ : i = read ++ .keyword .END :: left ∧ a = after := by simpa using he
      have hne : t ≠ .keyword .END := by
        rintro rfl
        cases d with
        | zero => exact h1 rfl rfl
        | succ d => exact h2 d rfl rfl
      rw [ih hi, List.count_cons_of_ne h3, List.count_cons_of_ne hne]

theorem arrange_case_reads {limit room : Nat} {inner : List Token} {body : List Item}
    (hb : arrange limit room .caseHead (.keyword .CASE :: inner) = .ok body) :
    ∃ read left, inner = read ++ .keyword .END :: left ∧
      (∀ tail, arrange limit room .caseHead
        (.keyword .CASE :: (read ++ .keyword .END :: tail)) = .ok body) ∧
      ∀ items, arrange limit room .caseHead (.keyword .CASE :: read) ≠ .ok items := by
  obtain ⟨nested, he⟩ := arrange_eq_run limit room
  have ha : ∀ rest, Place.caseHead.action [] (.keyword .CASE) rest =
    .write [.word (.keyword .CASE)] .branches := fun _ => rfl
  rw [he, Arrange.run_write (ha inner)] at hb
  obtain ⟨more, hm, rfl⟩ := map_eq_ok hb
  obtain ⟨read, left, hi, htail, hshort⟩ := Arrange.run_branches_reads hm
  refine ⟨read, left, hi, fun tail => ?_, fun items h => ?_⟩
  · rw [he, Arrange.run_write (ha _), htail tail]
    rfl
  · rw [he, Arrange.run_write (ha _)] at h
    exact hshort _ (map_eq_ok h).choose_spec.1

/-- The layout of a `CASE` reads its slice up to an `END`, stops there and does not look behind it.
That `END` is the last token just when as many `CASE`s as `END`s were passed on the way, and it is
where the fences nest. Then nothing is lost. -/
theorem case_read_whole_iff {limit room : Nat} {rest inner after : List Token} {body : List Item}
    (hc : caseEnd? 0 rest = some (inner, after))
    (hb : arrange limit room .caseHead (.keyword .CASE :: inner) = .ok body) :
    ∃ read left, inner = read ++ .keyword .END :: left ∧
      (∀ tail, arrange limit room .caseHead
        (.keyword .CASE :: (read ++ .keyword .END :: tail)) = .ok body) ∧
      (∀ items, arrange limit room .caseHead (.keyword .CASE :: read) ≠ .ok items) ∧
      (Item.allTokens body).Sublist (.keyword .CASE :: (read ++ [.keyword .END])) ∧
      (left = [] ↔ read.count (.keyword .CASE) = read.count (.keyword .END)) ∧
      (Fenced (.keyword .CASE :: inner) → Undotted (.keyword .CASE :: inner) →
        left = [] ∧ Item.allTokens body = .keyword .CASE :: inner) := by
  obtain ⟨read, left, hi, htail, hshort⟩ := arrange_case_reads hb
  have hself := caseEnd?_append hc []
  have hsub := (nestedSane_arrange limit room (fun _ => ⟨rfl, _, rfl⟩)
    (fun _ t ht => by simpa [List.getLast?_cons, eq_comm] using ht) (htail [])).kept.sublist
  refine ⟨read, left, hi, htail, hshort, hsub, ?_, fun hf hu => ?_⟩
  · rw [hi] at hself
    simpa using caseEnd?_passed (d := 0) (by simpa using hself)
  · have hfences : fences [.case] (inner ++ []) = some [] := by
      rw [List.append_nil]
      exact hf
    obtain ⟨slice, hslice, hfs, -⟩ := caseEnd?_fences hself (u := []) rfl hfences
    have hready : Arrange.Ready .caseHead (.keyword .CASE :: inner) := ⟨slice, by simp [hslice], hfs⟩
    have htokens : Item.allTokens body = .keyword .CASE :: inner := by
      rw [← Item.map_allMarked false]
      exact (nestedFaithful_arrange limit room hready hu hb).tokens
    have hlen := hsub.length_le
    rw [htokens, hi] at hlen
    refine ⟨List.eq_nil_of_length_eq_zero ?_, htokens⟩
    simp only [List.length_cons, List.length_append, List.length_nil] at hlen
    omega

/-- A `CASE` behind a dot is a name to the layout and an opening word to the scan, so that the last
`END` is not read. -/
theorem case_read_short :
    ∃ body, arrange 64 64 .caseHead [.keyword .CASE, .identifier ['x'], .dot, .keyword .CASE,
        .keyword .END, .keyword .END] = .ok body ∧
      Item.allTokens body = [.keyword .CASE, .identifier ['x'], .dot, .keyword .CASE,
        .keyword .END] ∧
      ∃ read left : List Token, [.identifier ['x'], .dot, .keyword .CASE, .keyword .END, .keyword .END] =
          read ++ .keyword .END :: left ∧
        (left = [] ↔ read.count (.keyword .CASE) = read.count (.keyword .END)) := by
  have hb : arrange 64 64 .caseHead [.keyword .CASE, .identifier ['x'], .dot, .keyword .CASE,
      .keyword .END, .keyword .END] = .ok [.word (.keyword .CASE), .word (.identifier ['x']),
        .word .dot, .word (.keyword .CASE), .startLine 0, .word (.keyword .END)] := by
    simp [arrange, Arrange.run, Place.action, Place.inBranches, Place.inExpression, Place.afterDot,
      Item.echo, Except.map]
  have hc : caseEnd? 0 [.identifier ['x'], .dot, .keyword .CASE, .keyword .END, .keyword .END] =
    some ([.identifier ['x'], .dot, .keyword .CASE, .keyword .END, .keyword .END], []) := rfl
  obtain ⟨read, left, hi, -, -, -, hiff, -⟩ := case_read_whole_iff hc hb
  exact ⟨_, hb, rfl, read, left, hi, hiff⟩

end SqlLayout

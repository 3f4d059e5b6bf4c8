import SqlLayout.Proofs.LayoutComparison

/-! How deep an arrangement goes. Each level of nesting has a bracket or a `CASE` of its own, so that
a limit that allows for all of these is never met.
-/

set_option autoImplicit false

namespace SqlLayout

def Token.opens : Token → Bool
  | .openParen | .keyword .CASE => true
  | _ => false

def openers (ts : List Token) : Nat := ts.countP Token.opens

theorem openers_append (ts us : List Token) : openers (ts ++ us) = openers ts + openers us :=
  List.countP_append

theorem openers_cons {t : Token} (h : t.opens = true) (ts : List Token) :
    openers (t :: ts) = openers ts + 1 :=
  List.countP_cons_of_pos h

theorem openers_skip {t : Token} (h : t.opens = false) (ts : List Token) :
    openers (t :: ts) = openers ts :=
  List.countP_cons_of_neg (by simp [h])

theorem openers_solid (ts : List Token) : openers (solid ts) = openers ts := by
  unfold openers solid
  rw [List.countP_filter]
  refine List.countP_congr fun t _ => ?_
  cases t <;> simp [Token.opens, Token.isGap]

theorem openers_le {ts us : List Token} (h : us.Sublist ts) : openers us ≤ openers ts :=
  h.countP_le

namespace Arrange

/-- The levels of nesting that may be asked for. The first word of a `CASE` has its level already. -/
def levels (p : Place) (ts : List Token) : Nat :=
  if p = .caseHead then openers ts.tail else openers ts

theorem levels_le (p : Place) (ts : List Token) : levels p ts ≤ openers ts := by
  unfold levels
  split
  · exact openers_le (List.tail_sublist ts)
  · exact le_rfl

theorem levels_tail {p next : Place} (hn : next ≠ .caseHead) (t : Token) (ts : List Token) :
    levels next ts ≤ levels p (t :: ts) := by
  have hsub : openers ts ≤ openers (t :: ts) := openers_le (List.sublist_cons_self t ts)
  unfold levels
  rw [if_neg hn]
  split
  · exact le_rfl
  · exact hsub

def Agree (n : Nat) (f g : Nested) : Prop :=
  ∀ {p : Place} {ts : List Token}, Starts p [] ts → levels p ts < n → f p ts = g p ts

namespace Agree

variable {n : Nat} {f g : Nested}

theorem mono {m : Nat} (h : Agree n f g) (hm : m ≤ n) : Agree m f g :=
  fun hs hl => h hs (lt_of_lt_of_le hl hm)

theorem place (h : Agree n f g) {p : Place} (hp : p ≠ .caseHead) {ts : List Token}
    (hl : openers ts < n) : f p ts = g p ts :=
  h (fun hc => absurd hc hp) (lt_of_le_of_lt (levels_le p ts) hl)

theorem inset (h : Agree n f g) {p : Place} {ts : List Token} (hs : Starts p [] ts)
    (hl : levels p ts < n) (flat : Bool) (indent : Nat) :
    Arrange.inset f flat p indent ts = Arrange.inset g flat p indent ts := by
  unfold Arrange.inset
  rw [h hs hl]

theorem query (h : Agree n f g) {ts : List Token} (hl : openers ts < n) (indent : Nat) :
    Arrange.query f indent ts = Arrange.query g indent ts := by
  unfold Arrange.query
  rw [h.place (by simp) hl]

theorem definition (h : Agree n f g) {ts : List Token} (hl : openers ts < n) :
    Arrange.definition f ts = Arrange.definition g ts := by
  cases ts with
  | nil => rfl
  | cons name rest =>
    have hrest : openers rest < n :=
      lt_of_le_of_lt (openers_le (List.sublist_cons_self name rest)) hl
    simp only [Arrange.definition, h.place (p := .inline) (by simp) hrest]

theorem parts {F G : List Token → List Item} {ts : List Token} (hl : openers ts < n)
    (h : ∀ part, openers part < n → F part = G part) :
    (splitCommas ts).map F = (splitCommas ts).map G :=
  List.map_congr_left fun part hp =>
    h part (lt_of_le_of_lt (openers_le (infix_of_mem_splitCommas hp).sublist) hl)

theorem bracket (h : Agree n f g) {ts : List Token} (hl : openers ts < n) (b : Bracket)
    (indent : Nat) (before : List Token) :
    Arrange.bracket f b indent before ts = Arrange.bracket g b indent before ts := by
  have hinset : ∀ {p : Place} (part : List Token) (flat : Bool), p ≠ .caseHead →
      openers part < n → Arrange.inset f flat p indent part = Arrange.inset g flat p indent part := by
    intro p part flat hp hpart
    exact h.inset (fun hc => absurd hc hp) (lt_of_le_of_lt (levels_le p part) hpart) flat indent
  have hblock : ∀ width, block f width indent ts = block g width indent ts := by
    intro width
    unfold block
    rw [hinset ts false (by simp) hl]
  unfold Arrange.bracket
  rw [h.query hl, hinset (p := .inline) ts false (by simp) hl,
    hinset (p := .pairs 0) ts true (by simp) hl, hblock 2, hblock 7,
    parts hl fun part hp => hinset part false (by simp) hp, parts hl fun part hp => h.definition hp]

end Agree

/-- A run asks only for what lies at least one level deeper. -/
theorem run_agree {f g : Nested} {p : Place} {before ts : List Token} (hs : Starts p before ts)
    (h : Agree (levels p ts) f g) : run f p before ts = run g p before ts := by
  fun_induction run f p before ts with
  | case1 p before => rw [run]
  | case2 p before t rest items next ha ih =>
    have hr := ha ▸ hs.reads
    rw [run_write ha, ih (.next hr rfl) (h.mono (levels_tail (hr.next_ne rfl) t rest))]
  | case3 p before t rest b next ha e hg => rw [run_unclosed ha hg]
  | case4 p before t rest b next ha inner after hg _ ih =>
    have hr := ha ▸ hs.reads
    have hstart : ∀ {before ts}, Starts next before ts := .next hr rfl
    cases hr with
    | openBracket ht hp =>
      subst ht
      obtain rfl := group_eq_append hg
      -- the bracket itself is one of the openers
      have hcount : levels p (.openParen :: (inner ++ .closeParen :: after)) =
          openers inner + openers after + 1 := by
        rw [levels, if_neg hp, openers_cons rfl, openers_append, openers_skip rfl]
      have hafter : levels next after ≤ openers after := levels_le next after
      rw [run_openBracket ha hg, ih hstart (h.mono (by omega)), h.bracket (by omega)]
  | case5 p before t rest next ha hc => rw [run_looseCase ha hc]
  | case6 p before t rest next ha inner after hc _ ih =>
    have hr := ha ▸ hs.reads
    have hstart : ∀ {before ts}, Starts next before ts := .next hr rfl
    cases hr with
    | openCase ht hp =>
      subst ht
      obtain rfl := caseEnd?_eq_append hc
      -- so is the `CASE`, although its layout starts from it again
      have hcount : levels p (.keyword .CASE :: (inner ++ after)) =
          openers inner + openers after + 1 := by
        rw [levels, if_neg hp, openers_cons rfl, openers_append]
      have hinner : levels .caseHead (.keyword .CASE :: inner) = openers inner := rfl
      have hafter : levels next after ≤ openers after := levels_le next after
      rw [run_openCase ha hc, ih hstart (h.mono (by omega)),
        h.inset (fun _ => ⟨rfl, inner, rfl⟩) (by omega)]
  | case7 p before t rest items ha => rw [run_finish ha]

end Arrange

/-- Arranges tokens on `room` levels of nesting, and leaves to `deep` what lies deeper. -/
def arrangeOver (deep : Arrange.Nested) : Nat → Arrange.Nested
  | 0 => fun p ts => Arrange.run deep p [] ts
  | room + 1 => fun p ts => Arrange.run (arrangeOver deep room) p [] ts

theorem arrange_eq_over (limit room : Nat) :
    arrange limit room = arrangeOver (fun _ _ => .error (.tooDeeplyNested limit)) room := by
  induction room with
  | zero => rfl
  | succ room ih =>
    funext p ts
    rw [arrange, ih, arrangeOver]

open Arrange in
/-- With a level for every opener, nothing is left that lies deeper. -/
theorem arrangeOver_agree (f g : Nested) {m n : Nat} {p : Place} {ts : List Token}
    (hs : Starts p [] ts) (hm : levels p ts ≤ m) (hn : levels p ts ≤ n) :
    arrangeOver f m p ts = arrangeOver g n p ts := by
  induction m generalizing n p ts with
  | zero =>
    cases n with
    | zero => exact run_agree hs fun _ hl => by omega
    | succ n => exact run_agree hs fun _ hl => by omega
  | succ m ih =>
    cases n with
    | zero => exact run_agree hs fun _ hl => by omega
    | succ n => exact run_agree hs fun hs' hl => ih hs' (by omega) (by omega)

theorem follows_limit (o : Options) (m n : Nat) :
    Follows { o with nestingLimit := m } { o with nestingLimit := n } fun _ d e => d = e where
  blank := rfl
  word flat t _ hd := by
    subst hd
    cases t <;> rfl
  remark _ _ _ hd := by
    subst hd
    rfl
  newline hd := by rw [hd]
  startLine _ hd := by rw [hd]
  wrap _ hab hd := by
    subst hab hd
    rfl
  setIn hd hi := by rw [hd, hi]
  query flat body _ hd hi := by
    subst hd
    simp only [Item.write, hi]
  define flat hd hdefs := by
    subst hd
    rw [hdefs.eq_of_collapse fun h => by rw [h]]
    rfl

/-- A limit that allows for every bracket and every `CASE` has no effect: two such limits give the
same result, and on that many levels or more it does not matter what is done with anything that
lies deeper, for nothing does. -/
theorem nestingLimit_inert (o : Options) (m n : Nat) (tokens : List Token) (source : Text)
    (hm : openers tokens ≤ m) (hn : openers tokens ≤ n) :
    formatTokens { o with nestingLimit := m } tokens source =
      formatTokens { o with nestingLimit := n } tokens source ∧
    ∀ (deep : Arrange.Nested) (room : Nat), openers tokens ≤ room →
      arrangeOver deep room .statement (solid tokens) = arrange m m .statement (solid tokens) := by
  rw [← openers_solid] at hm hn ⊢
  have hstart : Arrange.Starts .statement [] (solid tokens) := by simp [Arrange.Starts]
  refine ⟨?_, fun deep room hroom => ?_⟩
  · have harrange : arrange m m .statement (solid tokens) =
        arrange n n .statement (solid tokens) := by
      rw [arrange_eq_over, arrange_eq_over]
      exact arrangeOver_agree _ _ hstart hm hn
    rcases formatTokens_follow (follows_limit o m n) harrange source with
      ⟨e, h, h'⟩ | ⟨t, h, h'⟩ | ⟨items, -, h, h', hpage⟩
    · rw [h, h']
    · rw [h, h']
    · rw [h, h', hpage]
  · rw [arrange_eq_over]
    exact arrangeOver_agree deep _ hstart hroom hm

/-- A bracket in a `CASE` in a bracket: three levels, and with fewer the layout is another one. -/
theorem nestingLimit_inert_case :
    openers (tokenize "f(case when(a)then b end)".toList) = 3 ∧
    formatTokens { nestingLimit := 3 } (tokenize "f(case when(a)then b end)".toList) [] =
      formatTokens { nestingLimit := 64 } (tokenize "f(case when(a)then b end)".toList) [] ∧
    formatTokens { nestingLimit := 1 } (tokenize "f(case when(a)then b end)".toList) [] ≠
      formatTokens { nestingLimit := 64 } (tokenize "f(case when(a)then b end)".toList) [] := by
  have hcount : openers (tokenize "f(case when(a)then b end)".toList) = 3 := by decide +kernel
  refine ⟨hcount, (nestingLimit_inert {} 3 64 _ [] hcount.le ?_).1, by decide +kernel⟩
  rw [hcount]
  decide

end SqlLayout

import Mathlib.Data.List.Chain
import SqlLayout.Token.Bracket

/-! Brackets and `CASE … END` read as the fences of two kinds. In a text whose fences nest, the
scans for a closing bracket and for an `END` find the partner, and what they enclose nests again.
-/

set_option autoImplicit false

namespace SqlLayout

inductive Fence where
  | bracket
  | case
  deriving DecidableEq, Repr

/-- The fences left open behind the tokens, the innermost first, where those of `s` are
open before them. Nothing when a fence is closed by the end of another. -/
def fences : List Fence → List Token → Option (List Fence)
  | s, [] => some s
  | s, .openParen :: ts => fences (.bracket :: s) ts
  | s, .keyword .CASE :: ts => fences (.case :: s) ts
  | .bracket :: s, .closeParen :: ts => fences s ts
  | _, .closeParen :: _ => none
  | .case :: s, .keyword .END :: ts => fences s ts
  | _, .keyword .END :: _ => none
  | s, _ :: ts => fences s ts

def Fenced (ts : List Token) : Prop := fences [] ts = some []

instance (ts : List Token) : Decidable (Fenced ts) :=
  inferInstanceAs (Decidable (fences [] ts = some []))

/-- A stretch of some text whose fences nest. -/
def Stretch (ts : List Token) : Prop := ∃ s s', fences s ts = some s'

def Token.isPlain : Token → Bool
  | .openParen | .closeParen | .keyword .CASE | .keyword .END => false
  | _ => true

theorem fences_plain {t : Token} (h : t.isPlain = true) (s : List Fence) (ts : List Token) :
    fences s (t :: ts) = fences s ts := by
  cases t with
  | keyword k => cases k <;> first | rfl | simp [Token.isPlain] at h
  | openParen => simp [Token.isPlain] at h
  | closeParen => simp [Token.isPlain] at h
  | _ => rfl

theorem fences_append (s : List Fence) (a b : List Token) :
    fences s (a ++ b) = (fences s a).bind (fences · b) := by
  fun_induction fences s a <;> simp_all [fences]

/-- Fences open further out do not matter to text that closes only its own. -/
theorem fences_frame {s v : List Fence} {ts : List Token} (h : fences s ts = some v)
    (u : List Fence) : fences (s ++ u) ts = some (v ++ u) := by
  fun_induction fences s ts <;> simp_all [fences]

theorem fences_cons {s v : List Fence} {t : Token} {ts : List Token}
    (h : fences s (t :: ts) = some v) :
    (t.isPlain = true ∧ fences s ts = some v) ∨
    (t = .openParen ∧ fences (.bracket :: s) ts = some v) ∨
    (t = .keyword .CASE ∧ fences (.case :: s) ts = some v) ∨
    (t = .closeParen ∧ ∃ s₀, s = .bracket :: s₀ ∧ fences s₀ ts = some v) ∨
    (t = .keyword .END ∧ ∃ s₀, s = .case :: s₀ ∧ fences s₀ ts = some v) := by
  by_cases hp : t.isPlain = true
  · exact .inl ⟨hp, by rwa [fences_plain hp] at h⟩
  · cases t with
    | openParen => exact .inr (.inl ⟨rfl, h⟩)
    | closeParen =>
      rcases s with _ | ⟨_ | _, s⟩
      · simp [fences] at h
      · exact .inr (.inr (.inr (.inl ⟨rfl, s, rfl, h⟩)))
      · simp [fences] at h
    | keyword k =>
      cases k with
      | CASE => exact .inr (.inr (.inl ⟨rfl, h⟩))
      | END =>
        rcases s with _ | ⟨_ | _, s⟩
        · simp [fences] at h
        · simp [fences] at h
        · exact .inr (.inr (.inr (.inr ⟨rfl, s, rfl, h⟩)))
      | _ => simp [Token.isPlain] at hp
    | _ => simp [Token.isPlain] at hp

theorem group_fences {d : Nat} {ts inner after : List Token} (h : group d ts = .ok (inner, after))
    {u s s' : List Fence} (hd : u.count .bracket = d)
    (hf : fences (u ++ .bracket :: s) ts = some s') :
    fences u inner = some [] ∧ fences s after = some s' := by
  fun_induction group d ts generalizing u inner with
  | case1 => simp at h
  | case2 rest =>
    cases h
    rcases u with _ | ⟨_ | _, u⟩
    · exact ⟨rfl, hf⟩
    · simp at hd
    · simp [fences] at hf
  | case3 rest d ih =>
    obtain ⟨⟨i, a⟩, hg, he⟩ := map_eq_ok h
    cases he
    rcases u with _ | ⟨_ | _, u⟩
    · simp at hd
    · exact ih hg (by simpa using hd) hf
    · simp [fences] at hf
  | case4 rest d ih =>
    obtain ⟨⟨i, a⟩, hg, he⟩ := map_eq_ok h
    cases he
    exact ih hg (by simp [hd]) hf
  | case5 t rest d h1 h2 h3 ih =>
    obtain ⟨⟨i, a⟩, hg, he⟩ := map_eq_ok h
    cases he
    rcases fences_cons hf with ⟨hp, hr⟩ | ⟨rfl, -⟩ | ⟨rfl, hr⟩ | ⟨rfl, -⟩ | ⟨rfl, s₀, hs, hr⟩
    · rw [fences_plain hp]
      exact ih hg hd hr
    · exact absurd rfl h3
    · exact ih (u := .case :: u) hg (by simpa using hd) hr
    · cases d with
      | zero => exact absurd rfl (h1 rfl)
      | succ d => exact absurd rfl (h2 d rfl)
    · rcases u with _ | ⟨_ | _, u⟩
      · simp at hs
      · simp at hs
      · obtain rfl : u ++ .bracket :: s = s₀ := by simpa using hs
        exact ih hg (by simpa using hd) hr

theorem caseEnd?_fences {d : Nat} {ts inner after : List Token}
    (h : caseEnd? d ts = some (inner, after)) {u s s' : List Fence} (hd : u.count .case = d)
    (hf : fences (u ++ .case :: s) ts = some s') :
    ∃ body, inner = body ++ [.keyword .END] ∧ fences u body = some [] ∧ fences s after = some s' := by
  fun_induction caseEnd? d ts generalizing u inner with
  | case1 => simp at h
  | case2 rest =>
    cases h
    rcases u with _ | ⟨_ | _, u⟩
    · exact ⟨[], rfl, rfl, hf⟩
    · simp [fences] at hf
    · simp at hd
  | case3 rest d ih =>
    obtain ⟨⟨i, a⟩, hg, he⟩ := Option.map_eq_some_iff.1 h
    cases he
    rcases u with _ | ⟨_ | _, u⟩
    · simp at hd
    · simp [fences] at hf
    · obtain ⟨body, rfl, hb⟩ := ih hg (by simpa using hd) hf
      exact ⟨.keyword .END :: body, rfl, hb⟩
  | case4 rest d ih =>
    obtain ⟨⟨i, a⟩, hg, he⟩ := Option.map_eq_some_iff.1 h
    cases he
    obtain ⟨body, rfl, hb⟩ := ih hg (u := .case :: u) (by simp [hd]) hf
    exact ⟨.keyword .CASE :: body, rfl, hb⟩
  | case5 t rest d h1 h2 h3 ih =>
    obtain ⟨⟨i, a⟩, hg, he⟩ := Option.map_eq_some_iff.1 h
    cases he
    rcases fences_cons hf with ⟨hp, hr⟩ | ⟨rfl, hr⟩ | ⟨rfl, -⟩ | ⟨rfl, s₀, hs, hr⟩ | ⟨rfl, -⟩
    · obtain ⟨body, rfl, hb⟩ := ih hg hd hr
      exact ⟨t :: body, rfl, by rwa [fences_plain hp]⟩
    · obtain ⟨body, rfl, hb⟩ := ih (u := .bracket :: u) hg (by simpa using hd) hr
      exact ⟨.openParen :: body, rfl, hb⟩
    · exact absurd rfl h3
    · rcases u with _ | ⟨_ | _, u⟩
      · simp at hs
      · obtain rfl : u ++ .case :: s = s₀ := by simpa using hs
        obtain ⟨body, rfl, hb⟩ := ih hg (by simpa using hd) hr
        exact ⟨.closeParen :: body, rfl, hb⟩
      · simp at hs
    · cases d with
      | zero => exact absurd rfl (h1 rfl)
      | succ d => exact absurd rfl (h2 d rfl)

theorem Stretch.within {a ts : List Token} (h : Stretch ts) (ha : a <:+: ts) : Stretch a := by
  obtain ⟨x, y, rfl⟩ := ha
  obtain ⟨s, s', hs⟩ := h
  rw [List.append_assoc, fences_append, Option.bind_eq_some_iff] at hs
  obtain ⟨u, -, hu⟩ := hs
  rw [fences_append, Option.bind_eq_some_iff] at hu
  obtain ⟨v, hv, -⟩ := hu
  exact ⟨u, v, hv⟩

theorem Fenced.stretch {ts : List Token} (h : Fenced ts) : Stretch ts := ⟨[], [], h⟩

/-- A bracket found in a stretch holds fenced text, and the text behind it is a stretch. -/
theorem Stretch.group {rest inner after : List Token} (h : Stretch (.openParen :: rest))
    (hg : group 0 rest = .ok (inner, after)) : Fenced inner ∧ Stretch after := by
  obtain ⟨s, s', hs⟩ := h
  obtain ⟨hi, ha⟩ := group_fences hg (u := []) rfl hs
  exact ⟨hi, s, s', ha⟩

theorem Stretch.caseEnd {rest inner after : List Token} (h : Stretch (.keyword .CASE :: rest))
    (hc : caseEnd? 0 rest = some (inner, after)) :
    (∃ body, inner = body ++ [.keyword .END] ∧ Fenced body) ∧ Stretch after := by
  obtain ⟨s, s', hs⟩ := h
  obtain ⟨body, hi, hb, ha⟩ := caseEnd?_fences hc (u := []) rfl hs
  exact ⟨⟨body, hi, hb⟩, s, s', ha⟩

theorem Fenced.tail_plain {t : Token} {ts : List Token} (h : Fenced (t :: ts))
    (hp : t.isPlain = true) : Fenced ts := by
  unfold Fenced at h ⊢
  rwa [fences_plain hp] at h

theorem Fenced.after_group {rest inner after : List Token} (h : Fenced (.openParen :: rest))
    (hg : group 0 rest = .ok (inner, after)) : Fenced inner ∧ Fenced after :=
  group_fences hg (u := []) rfl h

theorem Fenced.after_case {rest inner after : List Token} (h : Fenced (.keyword .CASE :: rest))
    (hc : caseEnd? 0 rest = some (inner, after)) : Fenced after :=
  (caseEnd?_fences hc (u := []) rfl h).choose_spec.2.2

def Undotted (ts : List Token) : Prop :=
  ts.IsChain fun a b => a = .dot → b ≠ .keyword .CASE ∧ b ≠ .keyword .END

instance (ts : List Token) : Decidable (Undotted ts) :=
  inferInstanceAs (Decidable (List.IsChain _ ts))

theorem Undotted.within {a ts : List Token} (h : Undotted ts) (ha : a <:+: ts) : Undotted a :=
  List.IsChain.infix h ha

theorem group_append {d : Nat} {ts inner after : List Token}
    (h : group d ts = .ok (inner, after)) (rest : List Token) :
    group d (inner ++ .closeParen :: rest) = .ok (inner, rest) := by
  fun_induction group d ts generalizing inner with
  | case1 => simp at h
  | case2 => cases h; rfl
  | case3 _ d ih | case4 _ d ih | case5 _ _ d _ _ _ ih =>
    obtain ⟨⟨i, a⟩, hg, he⟩ := map_eq_ok h
    cases he
    simp_all [group, Except.map]

theorem caseEnd?_append {d : Nat} {ts inner after : List Token}
    (h : caseEnd? d ts = some (inner, after)) (rest : List Token) :
    caseEnd? d (inner ++ rest) = some (inner, rest) := by
  fun_induction caseEnd? d ts generalizing inner with
  | case1 => simp at h
  | case2 => cases h; rfl
  | case3 _ d ih | case4 _ d ih | case5 _ _ d _ _ _ ih =>
    obtain ⟨⟨i, a⟩, hg, he⟩ := Option.map_eq_some_iff.1 h
    cases he
    simp_all [caseEnd?]

theorem intercalate_splitFrom (d : Nat) (ts : List Token) :
    [Token.comma].intercalate ((splitFrom d ts).1 :: (splitFrom d ts).2) = ts := by
  fun_induction splitFrom d ts <;> simp_all

/-- The parts with commas between them are the text that was divided. -/
theorem intercalate_splitCommas (ts : List Token) :
    [Token.comma].intercalate (splitCommas ts) = ts := by
  unfold splitCommas
  split
  · simp_all
  · exact intercalate_splitFrom 0 ts

theorem infix_intercalate {α : Type} {s part : List α} {parts : List (List α)}
    (h : part ∈ parts) : part <:+: s.intercalate parts := by
  induction parts with
  | nil => simp at h
  | cons a parts ih =>
    cases parts with
    | nil => simp_all
    | cons b parts =>
      rw [List.intercalate_cons_cons]
      rcases List.mem_cons.1 h with rfl | h
      · exact ⟨[], s ++ s.intercalate (b :: parts), by simp⟩
      · exact (ih h).trans (List.suffix_append _ _).isInfix

theorem infix_of_mem_splitCommas {part ts : List Token} (h : part ∈ splitCommas ts) :
    part <:+: ts := by
  have := infix_intercalate (s := [Token.comma]) h
  rwa [intercalate_splitCommas] at this

def Closes (ts : List Token) : Prop :=
  ∀ rest, .openParen :: rest <:+ ts → ∃ g, group 0 rest = .ok g

theorem Closes.suffix {a ts : List Token} (h : Closes ts) (ha : a <:+ ts) : Closes a :=
  fun rest hr => h rest (hr.trans ha)

theorem exists_map_ok {ε α β : Type} {x : Except ε α} (h : ∃ a, x = .ok a) (f : α → β) :
    ∃ b, x.map f = .ok b := by
  obtain ⟨a, rfl⟩ := h
  exact ⟨f a, rfl⟩

theorem group_of_checkBalance {d e : Nat} {ts : List Token}
    (h : checkBalance d ts = .ok ()) (he : e < d) : ∃ g, group e ts = .ok g := by
  fun_induction checkBalance d ts generalizing e with
  | case1 => omega
  | case2 => simp at h
  | case3 rest d ih => exact exists_map_ok (ih h (by omega : e + 1 < d + 1)) _
  | case4 => simp at h
  | case5 rest d ih =>
    cases e with
    | zero => exact ⟨_, rfl⟩
    | succ e => exact exists_map_ok (ih h (by omega)) _
  | case6 t rest d h1 h2 h3 ih =>
    have hr := exists_map_ok (ih h he) fun g => (t :: g.1, g.2)
    have hclose : t ≠ .closeParen := by
      rintro rfl
      cases d <;> simp_all
    cases t <;> simp_all [group]

theorem closes_of_checkBalance {d : Nat} {ts : List Token} (h : checkBalance d ts = .ok ()) :
    Closes ts := by
  fun_induction checkBalance d ts with
  | case1 => intro rest hr; simp at hr
  | case2 => simp at h
  | case3 ts d ih =>
    intro rest hr
    rcases List.suffix_cons_iff.1 hr with heq | hr
    · cases heq
      exact group_of_checkBalance h (by omega)
    · exact ih h rest hr
  | case4 => simp at h
  | case5 ts d ih =>
    intro rest hr
    rcases List.suffix_cons_iff.1 hr with heq | hr
    · simp at heq
    · exact ih h rest hr
  | case6 t ts d h1 h2 h3 ih =>
    intro rest hr
    rcases List.suffix_cons_iff.1 hr with heq | hr
    · simp at heq; exact absurd heq.1.symm h1
    · exact ih h rest hr

end SqlLayout

import SqlLayout.Layout.Write
import SqlLayout.Proofs.Quotations

/-! Strings that lose their line ends, as they do inside of a `CASE` or of a `DECODE`. A string is
read again as one string unless the line end stood behind a backslash that escaped it, or kept the
parts of a delimiter apart.
-/

set_option autoImplicit false

namespace SqlLayout

open Scan Quoted

def Text.flat (t : Text) : Text := t.filter fun c => c != '\n' && c != '\r'

namespace Text

@[simp] theorem flat_append (s t : Text) : flat (s ++ t) = flat s ++ flat t := List.filter_append s t

theorem flat_cons {c : Char} (hc : c ≠ '\n' ∧ c ≠ '\r') (t : Text) : flat (c :: t) = c :: flat t := by
  simp [flat, hc]

@[simp] theorem flat_quote : flat ['\''] = ['\''] := rfl

theorem flat_eq {t : Text} (h : ∀ c ∈ t, c ≠ '\n' ∧ c ≠ '\r') : flat t = t :=
  List.filter_eq_self.2 fun c hc => by simpa using h c hc

end Text

namespace Quoted

open Text

def EscapedEnd (t : Text) : Prop := ['\\', '\n'] <:+: t ∨ ['\\', '\r'] <:+: t

theorem EscapedEnd.cons {t : Text} (h : EscapedEnd t) (c : Char) : EscapedEnd (c :: t) :=
  h.imp List.infix_cons List.infix_cons

/-- Without line ends the inside of a string is still one, where none of them is escaped. -/
theorem Inside.flat {escapes : Bool} {t : Text} (h : Inside '\'' escapes t)
    (hn : escapes = true → ¬EscapedEnd t) : Inside '\'' escapes (flat t) := by
  induction h with
  | nil => exact .nil
  | @plain c t hc he _ ih =>
    have hrest := ih fun he' h => hn he' (h.cons c)
    by_cases hend : c ≠ '\n' ∧ c ≠ '\r'
    · rw [flat_cons hend]
      exact .plain hc he hrest
    · rwa [Text.flat, List.filter_cons_of_neg (by simpa using hend)]
  | doubled _ ih =>
    rw [flat_cons (by decide), flat_cons (by decide)]
    exact .doubled (ih fun he' h => hn he' ((h.cons _).cons _))
  | @escaped c t he _ ih =>
    have hpre : ['\\', c] <:+: '\\' :: c :: t := (List.prefix_append ['\\', c] t).isInfix
    have hend : c ≠ '\n' ∧ c ≠ '\r' :=
      ⟨by rintro rfl; exact hn he (.inl hpre), by rintro rfl; exact hn he (.inr hpre)⟩
    rw [flat_cons (by decide), flat_cons hend]
    exact .escaped he (ih fun he' h => hn he' ((h.cons _).cons _))

theorem flat_dollars {tag : Text} (ht : ∀ c ∈ tag, isTagChar c = true) :
    flat (dollars tag) = dollars tag := by
  refine flat_eq fun c hc => ?_
  have hc : c = '$' ∨ c ∈ tag := by simpa [dollars, or_comm, or_assoc] using hc
  rcases hc with rfl | hc
  · decide
  · constructor
    · rintro rfl
      simpa [isTagChar] using ht _ hc
    · rintro rfl
      simpa [isTagChar] using ht _ hc

theorem flat_of_isMark {c : Char} (hc : isMark c = true) : c ≠ '\n' ∧ c ≠ '\r' := by
  constructor <;> (rintro rfl; simp [isMark] at hc)

theorem isMark_of_marksEscapes {c : Char} (hc : marksEscapes c = true) : isMark c = true := by
  rcases (by simpa [marksEscapes] using hc : c = 'E' ∨ c = 'e') with rfl | rfl <;> rfl

/-- A string that still ends where it ended when its line ends are gone: in a string with escapes the
rest is still fit to stand between quotes, and behind dollars the delimiter does not come earlier. -/
structure Lasting (x : Text) : Prop where
  escaped : ∀ c body, marksEscapes c = true → x = c :: '\'' :: body ++ ['\''] →
    Inside '\'' true (flat body)
  dollar : ∀ tag body, (∀ c ∈ tag, isTagChar c = true) → x = dollars tag ++ body ++ dollars tag →
    EndsFirst (dollars tag) (flat body ++ dollars tag)

end Quoted

namespace Token

variable {t : Token} {x rest : Text}

theorem Complete.tokenize (h : (string x).Complete rest) {more : Text}
    (hm : more.head? ≠ some '\'') :
    SqlLayout.tokenize (x ++ more) = .string x :: SqlLayout.tokenize more := by
  have hshape : Shape (.string x) := by
    cases h with
    | plain hb => exact .quoted (hb.close? (by decide) (by simp))
    | marked hc hb => exact .marked hc (hb.close? (by decide) (by simp))
    | dollar ht hb =>
      have hfirst := hb.around? (by simp [dollars]) []
      rw [List.append_nil] at hfirst
      exact .dollar ht hfirst
  exact (hshape.reads hm rfl (by simp)).tokenize

theorem Complete.flat (h : (string x).Complete rest) (hl : Lasting x) :
    (string (Text.flat x)).Complete [] := by
  cases h with
  | @plain body hb =>
    rw [List.cons_append, Text.flat_cons (by decide), Text.flat_append, Text.flat_quote]
    exact .plain (hb.flat (by simp)) (by simp)
  | @marked c body hc hb =>
    rw [List.cons_append, List.cons_append, Text.flat_cons (flat_of_isMark hc),
      Text.flat_cons (by decide), Text.flat_append,
      Text.flat_quote]
    refine .marked hc ?_ (by simp)
    cases he : marksEscapes c with
    | true => exact hl.escaped c body he rfl
    | false => exact (he ▸ hb).flat (by simp)
  | @dollar tag body ht hb =>
    rw [Text.flat_append, Text.flat_append, flat_dollars ht]
    exact .dollar ht (hl.dollar tag body ht rfl)

end Token

/-- What is read as one string without its line ends ends where it ended before. -/
theorem lasting_of_reads {x : Text} (hc : isClosed (Text.flat x) = true)
    (hr : tokenize (Text.flat x) = [.string (Text.flat x)]) : Lasting x where
  escaped c body he hx := by
    subst hx
    have hm := isMark_of_marksEscapes he
    rw [List.cons_append, List.cons_append, Text.flat_cons (flat_of_isMark hm),
      Text.flat_cons (by decide), Text.flat_append, Text.flat_quote] at hc
    obtain ⟨b, hb⟩ := (isClosed_marked hm).1 hc
    have hsplit := close?_append hb
    obtain ⟨inside, rfl, hin, -⟩ := inside_of_close? hb
    obtain rfl : inside = Text.flat body := by simpa using hsplit
    rwa [he] at hin
  dollar tag body ht hx := by
    subst hx
    rw [Text.flat_append, Text.flat_append, flat_dollars ht, List.append_assoc] at hr
    obtain ⟨b, a, hb, -⟩ :=
      around?_length_le (d := dollars tag) (by simp [dollars]) (Text.flat body) []
    rw [List.append_nil] at hb
    have hagain := around?_again (by simp [dollars]) hb []
    rw [List.append_nil] at hagain
    have hread : Reads (dollars tag ++ b ++ dollars tag) (.string (dollars tag ++ b ++ dollars tag)) a :=
      ⟨_, _, rfl, reads_dollar ht hagain⟩
    have hsplit := around?_append hb
    rw [← hsplit, ← List.append_assoc, ← List.append_assoc, hread.tokenize] at hr
    obtain rfl : a = [] := by simpa using (List.cons.inj hr).1
    obtain rfl : b = Text.flat body := by simpa using hsplit
    exact endsFirst_of_around? (by simp [dollars]) hb

/-- A string that loses its line ends is still a closed one, and is read as one before a space or at
the end of the text, iff it ends where it ended before. Every string without dollars does, but for
those with escapes where a backslash stands before a line end. -/
theorem flat_string_iff (o : Options) (prev : Option Token) (input : Text) {x : Text}
    (h : .string x ∈ tokenize input) (hx : isClosed x = true) :
    ((isClosed ((Token.string x).render o true prev) = true ∧
      ∀ more : Text, (more = [] ∨ more.head? = some ' ') →
        tokenize ((Token.string x).render o true prev ++ more) =
          .string ((Token.string x).render o true prev) :: tokenize more) ↔ Lasting x) ∧
    (x.head? ≠ some '$' → (x.head?.any marksEscapes = true → ¬EscapedEnd x) → Lasting x) := by
  change ((isClosed (Text.flat x) = true ∧ ∀ more : Text, (more = [] ∨ more.head? = some ' ') →
    tokenize (Text.flat x ++ more) = .string (Text.flat x) :: tokenize more) ↔ Lasting x) ∧ _
  obtain ⟨y, after, hread⟩ := readFrom_of_mem h rfl
  obtain ⟨-, hcomplete, -⟩ := hread.closed rfl
  have hwritten := hcomplete.1 hx
  refine ⟨⟨fun ⟨hc, hread⟩ => lasting_of_reads hc ?_, fun hl => ?_⟩, fun hd hn => ?_⟩
  · simpa [tokenize] using hread [] (.inl rfl)
  · have hflat := hwritten.flat hl
    refine ⟨hflat.isClosed rfl, fun more hmore => hflat.tokenize ?_⟩
    rcases hmore with rfl | hspace
    · simp
    · simp [hspace]
  · refine ⟨fun c body he hx' => ?_, fun tag body _ hx' => ?_⟩
    · subst hx'
      obtain ⟨b, hb⟩ := (isClosed_marked (isMark_of_marksEscapes he)).1 hx
      have hsplit := close?_append hb
      obtain ⟨inside, rfl, hin, -⟩ := inside_of_close? hb
      obtain rfl : inside = body := by simpa using hsplit
      refine (he ▸ hin).flat fun _ hend => hn he ?_
      have hinfix : inside <:+: c :: '\'' :: inside ++ ['\''] := ⟨[c, '\''], ['\''], by simp⟩
      exact hend.imp (·.trans hinfix) (·.trans hinfix)
    · exact absurd (by simp [hx', dollars]) hd

/-- A backslash before a line end escapes the closing quote when the line end is gone. -/
theorem flat_string_iff_escaped :
    .string "E'x\\\n'".toList ∈ tokenize "E'x\\\n'".toList ∧
      isClosed "E'x\\\n'".toList = true ∧ isClosed "E'x\\'".toList = false ∧
      ¬Lasting "E'x\\\n'".toList := by
  have hmem : .string "E'x\\\n'".toList ∈ tokenize "E'x\\\n'".toList := by decide +kernel
  have hclosed : isClosed "E'x\\\n'".toList = true := by decide +kernel
  have hopen : isClosed "E'x\\'".toList = false := by decide +kernel
  refine ⟨hmem, hclosed, hopen, fun hl => ?_⟩
  have hflat := ((flat_string_iff {} none _ hmem hclosed).1.2 hl).1
  exact absurd (hflat.symm.trans hopen) (by decide)

end SqlLayout

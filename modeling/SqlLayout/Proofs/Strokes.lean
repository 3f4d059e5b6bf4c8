import SqlLayout.Proofs.PagePosition

/-! A page is drawn stroke by stroke. Whatever the strokes are, the page shows the characters of
what was pushed that are not blank, in order and counted, and a line that was ended stays as it is.
-/

set_option autoImplicit false

namespace SqlLayout

/-- What is done to a page at one time. -/
inductive Stroke where
  | push (t : Text)
  | indent (n : Nat)
  | newline
  | clearLine
  | pushLines (column : Nat) (lines : List Text)
  deriving DecidableEq, Repr

namespace Stroke

def draw (p : Page) : Stroke → Page
  | .push t => p.push t
  | .indent n => p.indent n
  | .newline => p.newline
  | .clearLine => p.clearLine
  | .pushLines column lines => p.pushLines column lines

def text : Stroke → Text
  | .push t => t
  | .pushLines _ lines => lines.flatten
  | _ => []

def ends : Stroke → Nat
  | .newline => 1
  | .pushLines _ lines => lines.length - 1
  | _ => 0

def parts : Stroke → List Stroke
  | .pushLines _ [] => []
  | .pushLines column (t :: lines) =>
    .push t :: lines.flatMap fun u => [.newline, .indent column, .push u]
  | s => [s]

end Stroke

namespace Page

def drawn (ss : List Stroke) : Page := ss.foldl Stroke.draw blank

@[simp] theorem drawn_append (ss us : List Stroke) :
    drawn (ss ++ us) = us.foldl Stroke.draw (drawn ss) :=
  List.foldl_append

theorem pushBelow_eq_foldl (n : Nat) (ls : List Text) (p : Page) : p.pushBelow n ls =
    (ls.flatMap fun t => [Stroke.newline, .indent n, .push t]).foldl Stroke.draw p := by
  induction ls generalizing p with
  | nil => rfl
  | cons t ls ih => exact ih ((p.newline.indent n).push t)

theorem foldl_parts (s : Stroke) (p : Page) : s.parts.foldl Stroke.draw p = s.draw p := by
  cases s with
  | pushLines n ls =>
    cases ls with
    | nil => rfl
    | cons t ls => exact (pushBelow_eq_foldl n ls (p.push t)).symm
  | _ => rfl

/-- Lines that are pushed at one time are drawn as one by one. -/
theorem drawn_parts (ss : List Stroke) : drawn (ss.flatMap Stroke.parts) = drawn ss := by
  induction ss using List.reverseRecOn with
  | nil => rfl
  | append_singleton ss s ih => simp [foldl_parts, ih]

/-- The page shows the text `w`, and `n` lines of it are ended. -/
structure Bears (w : Text) (n : Nat) (p : Page) : Prop where
  shown : p.lines.flatten.filter (!Text.isBlank ·) = w.filter (!Text.isBlank ·)
  ink : p.ink = Text.ink w
  ended : p.above.length = n
  neat : p.Neat

namespace Bears

variable {p : Page} {w : Text} {n : Nat}

theorem push (h : p.Bears w n) (t : Text) : (p.push t).Bears (w ++ t) n := by
  refine ⟨?_, ?_, h.ended, h.neat⟩
  · have hlines : (p.push t).lines.flatten = p.lines.flatten ++ t := by simp [Page.push, lines]
    rw [hlines, List.filter_append, List.filter_append, h.shown]
  · rw [Text.ink_append, ← h.ink]
    rfl

theorem indent (h : p.Bears w n) (c : Nat) : (p.indent c).Bears w n := by
  have hpush := h.push (Text.spaces c)
  rw [← indent_eq_push] at hpush
  refine ⟨?_, h.ink, h.ended, h.neat⟩
  rw [hpush.shown, List.filter_append, Text.filter_spaces, List.append_nil]

theorem newline (h : p.Bears w n) : p.newline.Bears w (n + 1) := by
  refine ⟨?_, h.ink, congrArg (· + 1) h.ended, h.neat.newline⟩
  have hline := Text.filter_dropEnd p.current.reverse
  rw [Text.dropEndWhile, List.reverse_reverse] at hline
  rw [← h.shown]
  simp [Page.newline, lines, hline]

theorem clearLine (h : p.Bears w n) : p.clearLine.Bears w n := by
  unfold Page.clearLine
  split
  · rename_i hs
    refine ⟨?_, h.ink, h.ended, h.neat⟩
    have hblank : p.current.filter (!Text.isBlank ·) = [] :=
      List.filter_eq_nil_iff.2 fun c hc => by simp [List.all_eq_true.1 hs c hc]
    rw [← h.shown]
    simp [lines, hblank]
  · exact h

theorem pushBelow (h : p.Bears w n) (c : Nat) (ls : List Text) :
    (p.pushBelow c ls).Bears (w ++ ls.flatten) (n + ls.length) := by
  induction ls generalizing p w n with
  | nil => simpa [Page.pushBelow] using h
  | cons t ls ih =>
    have hline := ih ((h.newline.indent c).push t)
    rw [List.append_assoc, Nat.add_assoc, Nat.add_comm 1] at hline
    exact hline

theorem pushLines (h : p.Bears w n) (c : Nat) (ls : List Text) :
    (p.pushLines c ls).Bears (w ++ ls.flatten) (n + (ls.length - 1)) := by
  cases ls with
  | nil => simpa [Page.pushLines] using h
  | cons t ls =>
    have hlines := (h.push t).pushBelow c ls
    rwa [List.append_assoc] at hlines

theorem draw (h : p.Bears w n) (s : Stroke) : (s.draw p).Bears (w ++ s.text) (n + s.ends) := by
  cases s with
  | push t => exact h.push t
  | indent c => simpa [Stroke.text, Stroke.ends, Stroke.draw] using h.indent c
  | newline => simpa [Stroke.text, Stroke.ends, Stroke.draw] using h.newline
  | clearLine => simpa [Stroke.text, Stroke.ends, Stroke.draw] using h.clearLine
  | pushLines c ls => exact h.pushLines c ls

end Bears

theorem bears_blank : blank.Bears [] 0 := ⟨rfl, rfl, rfl, by simp [Neat, blank]⟩

theorem bears_drawn (ss : List Stroke) :
    (drawn ss).Bears (ss.flatMap Stroke.text) (ss.map Stroke.ends).sum := by
  induction ss using List.reverseRecOn with
  | nil => exact bears_blank
  | append_singleton ss s ih => simpa using ih.draw s

theorem above_suffix_draw (s : Stroke) (p : Page) : p.above <:+ (s.draw p).above := by
  have hbelow : ∀ (c : Nat) (ls : List Text) (p : Page), p.above <:+ (p.pushBelow c ls).above := by
    intro c ls
    induction ls with
    | nil => exact fun p => List.suffix_rfl
    | cons t ls ih => exact fun p => (List.suffix_cons _ _).trans (ih ((p.newline.indent c).push t))
  cases s with
  | newline => exact List.suffix_cons _ _
  | clearLine =>
    have habove : p.clearLine.above = p.above := by
      unfold clearLine
      split <;> rfl
    exact ⟨[], habove.symm⟩
  | pushLines c ls =>
    cases ls with
    | nil => exact List.suffix_rfl
    | cons t ls => exact hbelow c ls (p.push t)
  | _ => exact List.suffix_rfl

theorem above_suffix_drawn {xs ss : List Stroke} (h : xs <+: ss) :
    (drawn xs).above <:+ (drawn ss).above := by
  obtain ⟨ys, rfl⟩ := h
  induction ys using List.reverseRecOn with
  | nil => exact ⟨[], by simp⟩
  | append_singleton ys s ih =>
    rw [← List.append_assoc, drawn_append]
    exact ih.trans (above_suffix_draw s _)

theorem dropLast_lines (p : Page) : p.lines.dropLast = p.above.reverse := by
  rw [lines_eq, List.dropLast_concat]

end Page

/-- After any strokes on a blank page there is one line more than were ended, and their ink is
counted. The lines show what was pushed in order, but for blanks. All lines but the last end
without a space, and they stand as they did when they were ended: at each earlier moment `xs`,
also between two lines of one stroke, the lines above were the first of these. -/
theorem drawn_lines (ss : List Stroke) :
    (Page.drawn ss).lines.length = (ss.map Stroke.ends).sum + 1 ∧
    (Page.drawn ss).ink = ((Page.drawn ss).lines.map Text.ink).sum ∧
    (Page.drawn ss).lines.flatten.filter (!Text.isBlank ·) =
      (ss.flatMap Stroke.text).filter (!Text.isBlank ·) ∧
    (∀ t ∈ (Page.drawn ss).lines.dropLast, t.getLast? ≠ some ' ') ∧
    ∀ xs, xs <+: ss ∨ xs <+: ss.flatMap Stroke.parts →
      (Page.drawn xs).lines.dropLast <+: (Page.drawn ss).lines.dropLast := by
  have h := Page.bears_drawn ss
  refine ⟨?_, ?_, h.shown, ?_, fun xs hxs => ?_⟩
  · simp [Page.lines, h.ended]
  · rw [h.ink, Text.ink, List.countP_eq_length_filter, ← h.shown, ← List.countP_eq_length_filter,
      List.countP_flatten]
    rfl
  · rw [Page.dropLast_lines]
    exact fun t ht => h.neat t (List.mem_reverse.1 ht)
  · rw [Page.dropLast_lines, Page.dropLast_lines, List.reverse_prefix]
    rcases hxs with hxs | hxs
    · exact Page.above_suffix_drawn hxs
    · rw [← Page.drawn_parts ss]
      exact Page.above_suffix_drawn hxs

example : (Page.drawn [.push "x IN (".toList, .pushLines 6 ["SELECT id ".toList, "FROM u".toList],
    .newline, .indent 2, .clearLine, .push ")".toList]).lines =
      ["x IN (SELECT id".toList, "      FROM u".toList, ")".toList] := by decide

theorem Page.keeps_drawn : Keeps (fun _ => True) fun p => ∃ ss, p = drawn ss := by
  refine ⟨?_, ?_, ?_⟩
  · rintro _ t - ⟨ss, rfl⟩
    exact ⟨ss ++ [.push t], by simp [Stroke.draw]⟩
  · rintro _ ⟨ss, rfl⟩
    exact ⟨ss ++ [.newline], by simp [Stroke.draw]⟩
  · rintro _ n ⟨ss, rfl⟩
    unfold startLine
    split
    · exact ⟨ss ++ [.clearLine, .indent n], by simp [Stroke.draw]⟩
    · exact ⟨ss ++ [.newline, .indent n], by simp [Stroke.draw]⟩

/-- Whatever items are written, the page is drawn by strokes. -/
theorem drawn_writeAll (o : Options) (flat : Bool) (items : List Item) :
    ∃ ss, (writeAll o flat items .blank).page = Page.drawn ss :=
  keeps_writeAll Text.lasting_true items flat Page.keeps_drawn (fun _ _ _ => trivial) ⟨[], rfl⟩

end SqlLayout

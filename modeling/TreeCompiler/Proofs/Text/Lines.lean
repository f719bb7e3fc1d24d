import Mathlib.Data.List.Basic

/-!
The lines of a text, and which of them are left when the comment lines are taken out.
-/

namespace TreeCompiler.Text

/-- A comment line begins with a tab and a semicolon. -/
def isCommentLine (line : List Char) : Bool :=
  ['\t', ';'].isPrefixOf line

/-- The lines of a text that are no comment lines. -/
def keptLines (text : List Char) : List (List Char) :=
  (text.splitOn '\n').filter (!isCommentLine ·)

/-- A text without its comment lines. -/
def withoutComments (text : String) : String :=
  String.ofList (['\n'].intercalate (keptLines text.toList))

/-- Each line break of a text is followed by a tab and a semicolon, so that all of the text stays in
    a comment that it is part of. -/
def StaysComment (text : List Char) : Prop :=
  ∀ before behind, text = before ++ '\n' :: behind → ['\t', ';'] <+: behind

variable {text before behind line start : List Char} {rest : List (List Char)} {c : Char}

section Lines

/-- A character that is no line break belongs to the first line. -/
theorem splitOn_cons_of_ne (hc : c ≠ '\n') (htext : text.splitOn '\n' = line :: rest) :
    (c :: text).splitOn '\n' = (c :: line) :: rest := by
  rw [List.splitOn_cons_eq_if_modifyHead, if_neg (by simpa using hc), htext]
  rfl

theorem splitOn_cons_break : ('\n' :: text).splitOn '\n' = [] :: text.splitOn '\n' :=
  List.splitOn_append_cons_self [] text

theorem exists_splitOn (text : List Char) : ∃ line rest, text.splitOn '\n' = line :: rest :=
  List.exists_cons_of_ne_nil (List.splitOn_ne_nil _ _)

theorem break_not_mem_of_mem_splitOn (hline : line ∈ text.splitOn '\n') : '\n' ∉ line := by
  induction text generalizing line with
  | nil =>
    rw [List.splitOn_nil, List.mem_singleton] at hline
    simp [hline]
  | cons c text ih =>
    by_cases hc : c = '\n'
    · rw [hc, splitOn_cons_break] at hline
      rcases List.mem_cons.mp hline with rfl | hline
      · simp
      · exact ih hline
    · obtain ⟨first, rest, htext⟩ := exists_splitOn text
      rw [splitOn_cons_of_ne hc htext] at hline
      rw [htext] at ih
      rcases List.mem_cons.mp hline with rfl | hline
      · simpa [Ne.symm hc] using ih List.mem_cons_self
      · exact ih (List.mem_cons_of_mem _ hline)

theorem splitOn_append_of_not_mem (hstart : '\n' ∉ start) (htext : text.splitOn '\n' = line :: rest) :
    (start ++ text).splitOn '\n' = (start ++ line) :: rest := by
  induction start with
  | nil => exact htext
  | cons c start ih =>
    rw [List.mem_cons, not_or] at hstart
    exact splitOn_cons_of_ne (Ne.symm hstart.1) (ih hstart.2)

/-- Without a line break in it, what a text begins with is what its first line begins with. -/
theorem prefix_first_iff (hstart : '\n' ∉ start) (htext : text.splitOn '\n' = line :: rest) :
    start <+: line ↔ start <+: text := by
  induction start generalizing text line with
  | nil => simp
  | cons a start ih =>
    rw [List.mem_cons, not_or] at hstart
    cases text with
    | nil =>
      rw [List.splitOn_nil] at htext
      cases htext
      rfl
    | cons c text =>
      by_cases hc : c = '\n'
      · rw [hc, splitOn_cons_break] at htext
        cases htext
        refine iff_of_false (by simp) fun hprefix => hstart.1 ?_
        rw [(List.cons_prefix_cons.mp hprefix).1, hc]
      · obtain ⟨first, rest', htext'⟩ := exists_splitOn text
        rw [splitOn_cons_of_ne hc htext'] at htext
        cases htext
        rw [List.cons_prefix_cons, List.cons_prefix_cons, ih hstart.2 htext']

end Lines

section Kept

theorem keptLines_append : keptLines (before ++ '\n' :: behind) = keptLines before ++ keptLines behind := by
  rw [keptLines, List.splitOn_append_cons_self, List.filter_append]
  rfl

/-- Texts of which some lines are left are told apart by these lines. -/
theorem withoutComments_eq_iff {s s' : String} (hs : keptLines s.toList ≠ []) (hs' : keptLines s'.toList ≠ []) :
    withoutComments s = withoutComments s' ↔ keptLines s.toList = keptLines s'.toList := by
  have hbreak : ∀ text : List Char, ∀ line ∈ keptLines text, '\n' ∉ line := fun text line hline =>
    break_not_mem_of_mem_splitOn (List.mem_filter.mp hline).1
  constructor
  · intro heq
    have hlines := congrArg (fun text : String => text.toList.splitOn '\n') heq
    simp only [withoutComments, String.toList_ofList] at hlines
    rwa [List.splitOn_intercalate '\n' (hbreak _) hs, List.splitOn_intercalate '\n' (hbreak _) hs'] at hlines
  · intro heq
    rw [withoutComments, withoutComments, heq]

end Kept

section Stays

theorem staysComment_cons :
    StaysComment (c :: text) ↔ (c = '\n' → ['\t', ';'] <+: text) ∧ StaysComment text := by
  constructor
  · intro hstays
    refine ⟨fun hc => hstays [] text (by rw [hc]; rfl), fun before behind htext => ?_⟩
    exact hstays (c :: before) behind (by rw [htext]; rfl)
  · rintro ⟨hfirst, hrest⟩ before behind htext
    cases before with
    | nil =>
      cases htext
      exact hfirst rfl
    | cons d before =>
      rw [List.cons_append, List.cons.injEq] at htext
      exact hrest before behind htext.2

theorem staysComment_of_not_mem (htext : '\n' ∉ text) : StaysComment text := by
  rintro before behind rfl
  exact absurd (by simp) htext

theorem staysComment_append_of_not_mem (hstart : '\n' ∉ start) :
    StaysComment (start ++ text) ↔ StaysComment text := by
  induction start with
  | nil => rfl
  | cons c start ih =>
    rw [List.mem_cons, not_or] at hstart
    rw [List.cons_append, staysComment_cons, ih hstart.2]
    exact and_iff_right fun hc => absurd hc.symm hstart.1

/-- A line break at the end of a text is only followed by a tab and a semicolon if what comes behind
    the text begins with one of the two. -/
theorem staysComment_append (hbehind : ∀ c ∈ behind.head?, '\t' ≠ c ∧ ';' ≠ c) :
    StaysComment (before ++ behind) ↔ StaysComment before ∧ StaysComment behind := by
  induction before with
  | nil => simp [staysComment_of_not_mem]
  | cons c before ih =>
    have hprefix : ['\t', ';'] <+: before ++ behind ↔ ['\t', ';'] <+: before := by
      match before with
      | [] => cases behind <;> simp_all
      | [d] => cases behind <;> simp_all
      | d :: e :: before => simp
    rw [List.cons_append, staysComment_cons, staysComment_cons, ih, hprefix, and_assoc]

theorem staysComment_iff_kept (htext : text.splitOn '\n' = line :: rest) :
    StaysComment text ↔ rest.filter (!isCommentLine ·) = [] := by
  induction text generalizing line rest with
  | nil =>
    rw [List.splitOn_nil] at htext
    cases htext
    simp [staysComment_of_not_mem]
  | cons c text ih =>
    obtain ⟨first, rest', htext'⟩ := exists_splitOn text
    rw [staysComment_cons, ih htext']
    by_cases hc : c = '\n'
    · rw [hc, splitOn_cons_break, htext'] at htext
      cases htext
      have hfirst : ['\t', ';'] <+: text ↔ isCommentLine first = true := by
        rw [← prefix_first_iff (by decide) htext', isCommentLine, List.isPrefixOf_iff_prefix]
      simp [hc, hfirst]
    · rw [splitOn_cons_of_ne hc htext'] at htext
      cases htext
      exact and_iff_right fun hbreak => absurd hbreak hc

/-- A comment leaves nothing behind exactly if its text stays in it. -/
theorem keptLines_comment (hstart : '\n' ∉ start) (hcomment : isCommentLine start = true) :
    keptLines (start ++ text) = [] ↔ StaysComment text := by
  obtain ⟨line, rest, htext⟩ := exists_splitOn text
  have hfirst : isCommentLine (start ++ line) = true := by
    rw [isCommentLine, List.isPrefixOf_iff_prefix] at hcomment ⊢
    exact hcomment.trans (List.prefix_append _ _)
  rw [staysComment_iff_kept htext, keptLines, splitOn_append_of_not_mem hstart htext,
    List.filter_cons_of_neg (by simp [hfirst])]

end Stays

end TreeCompiler.Text

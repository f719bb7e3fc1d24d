import TreeCompiler.Proofs.Text.Numeral
import TreeCompiler.Proofs.Text.Quoted
import TreeCompiler.Proofs.Tree.Scoping

/-!
Source texts as sequences of tokens. A text is cut into tokens in one way only, if no token takes in
the first character of the next one.
-/

namespace TreeCompiler.Tree

/-- Letters begin words. -/
def isLetter (c : Char) : Bool :=
  c.isAlpha || 0x80 ≤ c.toNat

/-- What words are made of. -/
def isWordChar (c : Char) : Bool :=
  isLetter c || c.isDigit || c = '_'

/-- A word is a letter, followed by letters, digits and underscores. -/
def isWord (w : String) : Bool :=
  w.toList.head?.any isLetter && w.toList.all isWordChar

/-- A digit that can stand behind the sign of a number. -/
def isLeadingDigit (c : Char) : Bool :=
  c.isDigit && c ≠ '0'

/-- Marks that never run into what stands next to them. -/
def delimiters : List String :=
  [" ", "\n", "\t", "\x7b", "\x7d", "[", "]", "(", ")", ",", ":"]

/-- All that is written between words, numbers and strings. -/
def marks : List String :=
  delimiters ++ ["=", "!", "#", "++", "--"] ++ binaryOperators

/-- The tokens of source texts. -/
inductive Token where
  | word (w : String)
  | number (v : Int64)
  | text (s : Bytes)
  | mark (m : String)
  deriving DecidableEq, Repr

namespace Token

/-- The text of a token. -/
def spell : Token → List Char
  | .word w => w.toList
  | .number v => (toString v.toInt).toList
  | .text s => (Text.quoteBytes s).toList
  | .mark m => m.toList

/-- Whether a token goes on with a character that stands behind it. -/
def absorbs : Token → Char → Bool
  | .word _, c => isWordChar c
  | .number _, c => c.isDigit
  | .text _, _ => false
  | .mark m, c => m.push c ∈ marks || m = "-" && isLeadingDigit c

/-- A token is a proper word or one of the marks, if it is not a literal. -/
def Valid : Token → Prop
  | .word w => isWord w = true
  | .mark m => m ∈ marks
  | _ => True

/-- Reads a mark, of two characters if there is one. -/
def readMark? (cs : List Char) : Option (Token × List Char) :=
  if String.ofList (cs.take 2) ∈ marks then some (.mark (String.ofList (cs.take 2)), cs.drop 2)
  else if String.ofList (cs.take 1) ∈ marks then some (.mark (String.ofList (cs.take 1)), cs.drop 1)
  else none

/-- Reads the token at the front of a text. -/
def read? : List Char → Option (Token × List Char)
  | [] => none
  | c :: rest =>
    if isLetter c then
      some (.word (String.ofList ((c :: rest).takeWhile isWordChar)), (c :: rest).dropWhile isWordChar)
    else if c.isDigit then
      (Text.readNumber? (c :: rest)).map fun (n, rest) => (.number (Int64.ofInt n), rest)
    else if c = '-' ∧ rest.head?.any isLeadingDigit then
      (Text.readNumber? rest).map fun (n, rest) => (.number (Int64.ofInt (-n)), rest)
    else if c = '"' then (Text.readBytes? (c :: rest)).map fun (s, rest) => (.text s, rest)
    else readMark? (c :: rest)

theorem isLetter_eq_false_of_isDigit {c : Char} (hc : c.isDigit = true) : isLetter c = false := by
  simp only [Char.isDigit, Bool.and_eq_true, decide_eq_true_eq] at hc
  have hhigh : c.toNat ≤ 57 := hc.2
  have habove : ∀ n : UInt32, 57 < n.toNat → ¬ n ≤ c.val := by
    intro n hn hle
    exact Nat.not_le_of_lt hn (Nat.le_trans (UInt32.le_iff_toNat_le.mp hle) hhigh)
  have hupper : c.isUpper = false := decide_eq_false fun h => habove _ (by decide) h.1
  have hlower : c.isLower = false := Bool.and_eq_false_imp.mpr fun h =>
      absurd (of_decide_eq_true h) (habove _ (by decide))
  have halpha : c.isAlpha = false := Bool.or_eq_false_iff.mpr ⟨hupper, hlower⟩
  simp [isLetter, halpha, show c.toNat < 128 by omega]

section Read

variable {rest : List Char}

theorem read?_word {w : String} (hw : isWord w = true) (hrest : ∀ c ∈ rest.head?, isWordChar c = false) :
    read? (w.toList ++ rest) = some (.word w, rest) := by
  rw [isWord, Bool.and_eq_true, List.all_eq_true] at hw
  obtain ⟨hhead, hall⟩ := hw
  cases hcs : w.toList with
  | nil => simp [hcs] at hhead
  | cons c cs =>
    rw [hcs] at hall
    have hletter : isLetter c = true := by simpa [hcs] using hhead
    rw [List.cons_append, read?, if_pos hletter, ← List.cons_append, Text.takeWhile_run hall hrest,
      Text.dropWhile_run hall hrest, ← hcs, String.ofList_toList]

theorem read?_number (v : Int64) (hrest : ∀ c ∈ rest.head?, c.isDigit = false) :
    read? ((toString v.toInt).toList ++ rest) = some (.number v, rest) := by
  rw [Int.toString_eq_repr, Int.repr_eq_if]
  split
  · next hnonneg =>
    have hread := Text.readNumber?_toDigits v.toInt.toNat hrest
    obtain ⟨c, cs, hcs⟩ := List.exists_cons_of_ne_nil (Nat.toDigits_ne_nil (n := v.toInt.toNat) (b := 10))
    have hdigit : c.isDigit = true := Text.isDigit_of_mem_toDigits (hcs ▸ List.mem_cons_self)
    rw [Nat.toList_repr]
    rw [hcs] at hread ⊢
    rw [List.cons_append] at hread ⊢
    rw [read?, if_neg (by simp [isLetter_eq_false_of_isDigit hdigit]), if_pos hdigit, hread, Option.map_some]
    dsimp only
    rw [Int.toNat_of_nonneg hnonneg, Int64.ofInt_toInt]
  · next hneg =>
    have hread := Text.readNumber?_toDigits (-v.toInt).toNat hrest
    obtain ⟨c, cs, hcs, hc⟩ := Text.Numeral.toDigits_head_ne (n := (-v.toInt).toNat) (by omega)
    have hdigit : c.isDigit = true := Text.isDigit_of_mem_toDigits (hcs ▸ List.mem_cons_self)
    rw [String.toList_append, Nat.toList_repr, List.append_assoc]
    show read? ('-' :: (Nat.toDigits 10 (-v.toInt).toNat ++ rest)) = _
    rw [read?, if_neg (by decide), if_neg (by decide), if_pos (by simp [hcs, isLeadingDigit, hdigit, hc]), hread,
      Option.map_some]
    dsimp only
    rw [Int.toNat_of_nonneg (by omega), Int.neg_neg, Int64.ofInt_toInt]

theorem read?_text (s : Bytes) : read? ((Text.quoteBytes s).toList ++ rest) = some (.text s, rest) := by
  have hread := Text.readBytes?_quoteBytes s rest
  obtain ⟨cs, hcs⟩ : ∃ cs, (Text.quoteBytes s).toList = '"' :: cs := by
    simp [Text.quoteBytes]
  rw [hcs, List.cons_append] at hread ⊢
  rw [read?, if_neg (by decide), if_neg (by decide), if_neg (by simp), if_pos rfl, hread]
  rfl

/-- A mark has one or two characters, which do not look like a number, a word or a string. -/
def markShaped : List Char → Bool
  | [c] => !isLetter c && !c.isDigit && c ≠ '"'
  | [c, d] => !isLetter c && !c.isDigit && c ≠ '"' && !d.isDigit && String.ofList [c] ∉ delimiters &&
    String.ofList [d] ∉ delimiters
  | _ => false

theorem markShaped_of_mem {m : String} (hm : m ∈ marks) : markShaped m.toList = true := by
  revert m
  decide +kernel

/-- The longest mark in front is read, which is the given one if it does not go on. -/
theorem readMark?_append {m : String} (hm : m ∈ marks) (hrest : ∀ c ∈ rest.head?, (mark m).absorbs c = false) :
    readMark? (m.toList ++ rest) = some (.mark m, rest) := by
  have hshape := markShaped_of_mem hm
  unfold markShaped at hshape
  split at hshape
  · next c hcs =>
    have hm' : String.ofList [c] = m := by rw [← hcs, String.ofList_toList]
    cases rest with
    | nil => simp [readMark?, hcs, hm', hm]
    | cons d rest =>
      have hpush : m.push d ∉ marks := by
        have habsorbs := hrest d rfl
        simp only [absorbs, Bool.or_eq_false_iff, decide_eq_false_iff_not] at habsorbs
        exact habsorbs.1
      have htwo : String.ofList [c, d] = m.push d := by
        rw [← String.toList_inj, String.toList_push, hcs]
        simp
      simp [readMark?, hcs, htwo, hpush, hm', hm]
  · next c d hcs =>
    have hm' : String.ofList [c, d] = m := by rw [← hcs, String.ofList_toList]
    simp [readMark?, hcs, hm', hm]
  · cases hshape

theorem read?_mark {m : String} (hm : m ∈ marks) (hrest : ∀ c ∈ rest.head?, (mark m).absorbs c = false) :
    read? (m.toList ++ rest) = some (.mark m, rest) := by
  have hread := readMark?_append hm hrest
  have hshape := markShaped_of_mem hm
  unfold markShaped at hshape
  split at hshape
  · next c hcs =>
    simp only [Bool.and_eq_true, Bool.not_eq_true', decide_eq_true_eq, and_assoc] at hshape
    obtain ⟨hletter, hdigit, hquote⟩ := hshape
    have hsign : ¬ (c = '-' ∧ rest.head?.any isLeadingDigit = true) := by
      rintro ⟨rfl, hlead⟩
      have hm' : m = "-" := String.toList_inj.mp hcs
      cases rest with
      | nil => cases hlead
      | cons d rest =>
        have habsorbs := hrest d rfl
        rw [absorbs, show isLeadingDigit d = true from hlead] at habsorbs
        simp [hm'] at habsorbs
    rw [hcs] at hread ⊢
    rw [List.singleton_append] at hread ⊢
    rw [read?, if_neg (by simp [hletter]), if_neg (by simp [hdigit]), if_neg hsign, if_neg hquote, hread]
  · next c d hcs =>
    simp only [Bool.and_eq_true, Bool.not_eq_true', decide_eq_true_eq, and_assoc] at hshape
    obtain ⟨hletter, hdigit, hquote, hdigit', _, _⟩ := hshape
    rw [hcs] at hread ⊢
    rw [List.cons_append, List.singleton_append] at hread ⊢
    rw [read?, if_neg (by simp [hletter]), if_neg (by simp [hdigit]), if_neg (by simp [isLeadingDigit, hdigit']),
      if_neg hquote, hread]
  · cases hshape

/-- A token is read from its text, unless it goes on with what follows. -/
theorem read?_spell {t : Token} (ht : t.Valid) (hrest : ∀ c ∈ rest.head?, t.absorbs c = false) :
    read? (t.spell ++ rest) = some (t, rest) := by
  cases t with
  | word w => exact read?_word ht hrest
  | number v => exact read?_number v hrest
  | text s => exact read?_text s
  | mark m => exact read?_mark ht hrest

end Read

/-- No token goes on with the first character of the next one. -/
def Separated : List Token → Prop
  | [] => True
  | t :: ts => t.Valid ∧ (∀ c ∈ (ts.flatMap spell).head?, t.absorbs c = false) ∧ Separated ts

theorem read?_flatMap_spell {t : Token} {ts : List Token} (hts : Separated (t :: ts)) :
    read? ((t :: ts).flatMap spell) = some (t, ts.flatMap spell) :=
  read?_spell hts.1 hts.2.1

/-- Separated tokens are determined by their text. -/
theorem Separated.eq_of_spell {ts us : List Token} (hts : Separated ts) (hus : Separated us)
    (htext : ts.flatMap spell = us.flatMap spell) : ts = us := by
  induction ts generalizing us with
  | nil =>
    cases us with
    | nil => rfl
    | cons u us =>
      have hread := read?_flatMap_spell hus
      rw [← htext] at hread
      cases hread
  | cons t ts ih =>
    have hread := read?_flatMap_spell hts
    rw [htext] at hread
    cases us with
    | nil => cases hread
    | cons u us =>
      rw [read?_flatMap_spell hus, Option.some.injEq, Prod.mk.injEq] at hread
      obtain ⟨rfl, hrest⟩ := hread
      rw [ih hts.2.2 hus.2.2 hrest.symm]

section Delimiters

variable {t : Token} {ts us : List Token} {d : String}

/-- A delimiter is one character that is in no word, and not the sign of a number. -/
theorem delimiter_toList (hd : d ∈ delimiters) : d ≠ "-" ∧ ∃ c, d.toList = [c] ∧ isWordChar c = false := by
  have hall : ∀ d ∈ delimiters, d ≠ "-" ∧ d.toList.length = 1 ∧ d.toList.any isWordChar = false := by
    decide +kernel
  obtain ⟨hminus, hlength, hword⟩ := hall d hd
  obtain ⟨c, hc⟩ := List.length_eq_one_iff.mp hlength
  exact ⟨hminus, c, hc, by simpa [hc] using hword⟩

theorem absorbs_delimiter (ht : t.Valid) (hd : d ∈ delimiters) : ∀ c ∈ d.toList.head?, t.absorbs c = false := by
  obtain ⟨_, e, he, hword⟩ := delimiter_toList hd
  intro c hc
  obtain rfl : e = c := by simpa [he] using hc
  have hdigit : e.isDigit = false := (Bool.or_eq_false_iff.mp (Bool.or_eq_false_iff.mp hword).1).2
  cases t with
  | word w => exact hword
  | number v => exact hdigit
  | text s => rfl
  | mark m =>
    -- No mark of two characters ends with a delimiter.
    have hpush : m.push e ∉ marks := by
      intro hmem
      have hshape := markShaped_of_mem ht
      have hshape' := markShaped_of_mem hmem
      rw [String.toList_push] at hshape'
      match hcs : m.toList with
      | [] => simp [hcs, markShaped] at hshape
      | [c] =>
        rw [hcs, List.singleton_append, markShaped, ← he, String.ofList_toList] at hshape'
        simp [hd] at hshape'
      | c :: c' :: cs => cases cs <;> simp [hcs, markShaped] at hshape'
    simp [absorbs, hpush, isLeadingDigit, hdigit]

theorem delimiter_absorbs (hd : d ∈ delimiters) (c : Char) : (mark d).absorbs c = false := by
  obtain ⟨hminus, e, he, _⟩ := delimiter_toList hd
  have hpush : d.push c ∉ marks := by
    intro hmem
    have hshape := markShaped_of_mem hmem
    rw [String.toList_push, he, List.singleton_append, markShaped, ← he, String.ofList_toList] at hshape
    simp [hd] at hshape
  simp [absorbs, hpush, hminus]

/-- Tokens on both sides of a delimiter have nothing to do with each other. -/
theorem separated_append_delimiter (hd : d ∈ delimiters) :
    Separated (ts ++ mark d :: us) ↔ Separated ts ∧ Separated us := by
  have hvalid : (mark d).Valid := List.mem_append_left _ (List.mem_append_left _ hd)
  obtain ⟨_, e, he, _⟩ := delimiter_toList hd
  induction ts with
  | nil => simp [Separated, hvalid, delimiter_absorbs hd]
  | cons t ts ih =>
    simp only [List.cons_append, Separated, ih, and_assoc]
    refine and_congr_right fun ht => and_congr_left fun _ => ?_
    have hdelimiter := absorbs_delimiter ht hd
    rw [List.flatMap_append, List.flatMap_cons, List.head?_append, spell]
    rw [he] at hdelimiter ⊢
    cases (ts.flatMap spell).head? with
    | none => simpa using hdelimiter
    | some c => simp

theorem separated_cons_delimiter (hd : d ∈ delimiters) : Separated (mark d :: us) ↔ Separated us := by
  have hsplit : Separated ([] ++ mark d :: us) ↔ _ := separated_append_delimiter hd
  simpa [Separated] using hsplit

theorem separated_word_delimiter (hd : d ∈ delimiters) :
    Separated (t :: mark d :: us) ↔ t.Valid ∧ Separated us := by
  have hsplit : Separated ([t] ++ mark d :: us) ↔ _ := separated_append_delimiter hd
  simpa [Separated] using hsplit

theorem separated_singleton : Separated [t] ↔ t.Valid := by
  simp [Separated]

end Delimiters

end Token

end TreeCompiler.Tree

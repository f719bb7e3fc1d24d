import TreeCompiler.Asm.StringTable
import TreeCompiler.Asm.Text
import TreeCompiler.Proofs.Text.Reading

/-!
What the data of an assembly text denotes. A quoted string is read as the bytes that it was written
for, and the line of a string literal defines these bytes with a zero behind them.
-/

namespace TreeCompiler.Asm

open Text (readHex? readPiece? readQuoted? readNumber? skip?)

/-- Reads an escape behind its backslash. -/
def readEscape? : List Char → Option (Bytes × List Char)
  | [] => none
  | c :: rest =>
    if c = '\x60' ∨ c = '\\' then some (String.utf8EncodeChar c, rest)
    else if c = 'n' then some ([0x0a], rest)
    else if c = 't' then some ([0x09], rest)
    else if c = 'x' then (readHex? 2 rest).map fun (n, rest) => ([UInt8.ofNat n], rest)
    else none

/-- Reads a backquoted string. -/
def readString? (cs : List Char) : Option (Bytes × List Char) := do
  let rest ← skip? "\x60" cs
  readQuoted? '\x60' readEscape? (rest.length + 1) rest

/-- Reads a byte that is written as a number. -/
def readByte? (cs : List Char) : Option (Bytes × List Char) := do
  let (n, rest) ← readNumber? cs
  if n < 0x100 then some ([UInt8.ofNat n], rest) else none

/-- Reads the bytes that stand behind `db`: strings and numbers with commas between them, up to the
    end of the line. -/
def readBytes? : Nat → List Char → Option Bytes
  | 0, _ => none
  | fuel + 1, cs => do
    let (bytes, rest) ← (readString? cs).or (readByte? cs)
    match rest with
    | [] => some bytes
    | _ => return bytes ++ (← readBytes? fuel (← skip? ", " rest))

/-- Reads the line of a string literal as the number of its symbol and the bytes that it defines. -/
def readData? (cs : List Char) : Option (Nat × Bytes) := do
  let (index, rest) ← readNumber? (← skip? "str_" cs)
  let rest ← skip? ": db " rest
  return (index, ← readBytes? (rest.length + 1) rest)

/-- A character can be printed. -/
def Printable (c : Char) : Prop :=
  0x20 ≤ c.toNat ∧ c.toNat < 0x7f

instance : DecidablePred Printable :=
  fun c => inferInstanceAs (Decidable (0x20 ≤ c.toNat ∧ c.toNat < 0x7f))

/-- Every byte is read back from its spelling, whatever follows. -/
theorem readPiece?_escapeByte (b : UInt8) (rest : List Char) :
    readPiece? '\x60' readEscape? (escapeByte b ++ rest) = some ([b], rest) := by
  unfold escapeByte
  split
  · next hb => rcases hb with rfl | rfl <;> rfl
  · next hquote =>
    split
    · next hb => subst hb; rfl
    · split
      · next hb => subst hb; rfl
      · split
        · next hplain =>
          have hlt : b.toNat < 0x80 := Nat.lt_trans hplain.2 (by decide)
          have hne : ∀ q : UInt8, q.toNat < 0x80 → Char.ofNat b.toNat = Char.ofNat q.toNat → b = q := by
            intro q hq heq
            have hcode := congrArg Char.toNat heq
            rw [Text.toNat_ofNat (.inl (by omega)), Text.toNat_ofNat (.inl (by omega))] at hcode
            exact UInt8.toNat_inj.mp hcode
          have hclose : Char.ofNat b.toNat ≠ '\x60' := fun heq => hquote (.inl (hne 0x60 (by decide) heq))
          have hescape : Char.ofNat b.toNat ≠ '\\' := fun heq => hquote (.inr (hne 0x5c (by decide) heq))
          simp [readPiece?, hclose, hescape, Text.utf8EncodeChar_ofNat hlt]
        · simp [readPiece?, readEscape?, Text.readHex?_hexPair]

theorem printable_of_all {cs : List Char} (hall : cs.all (fun c => decide (Printable c)) = true) :
    ∀ c ∈ cs, Printable c := by
  simpa using hall

theorem printable_ofNat {b : UInt8} (hlow : 0x20 ≤ b.toNat) (hhigh : b.toNat < 0x7f) :
    Printable (Char.ofNat b.toNat) := by
  rw [Printable, Text.toNat_ofNat (.inl (by omega))]
  exact ⟨hlow, hhigh⟩

theorem printable_hexDigit {n : Nat} (hn : n < 16) : Printable (Bytes.hexDigit n) := by
  have hall : ∀ m : Fin 16, Printable (Bytes.hexDigit m) := by decide
  exact hall ⟨n, hn⟩

theorem printable_digit {c : Char} (hc : c.isDigit = true) : Printable c := by
  simp only [Char.isDigit, Bool.and_eq_true, decide_eq_true_eq] at hc
  exact ⟨Nat.le_trans (by decide) hc.1, Nat.lt_of_le_of_lt hc.2 (by decide)⟩

theorem printable_escapeByte (b : UInt8) : ∀ c ∈ escapeByte b, Printable c := by
  have hb := b.toNat_lt
  unfold escapeByte
  split
  · next hquote => rcases hquote with rfl | rfl <;> exact printable_of_all rfl
  · split
    · exact printable_of_all rfl
    · split
      · exact printable_of_all rfl
      · split
        · next hplain => simpa using printable_ofNat hplain.1 hplain.2
        · have hhigh := printable_hexDigit (n := b.toNat / 16) (by omega)
          have hlow := printable_hexDigit (n := b.toNat % 16) (by omega)
          simp [Bytes.hexPair, hhigh, hlow, show Printable '\\' by decide, show Printable 'x' by decide]

section Strings

variable (s : Bytes)

theorem toList_quoteBytes : (quoteBytes s).toList = "\x60".toList ++ (s.flatMap escapeByte ++ ['\x60']) := by
  simp [quoteBytes]

/-- Reading undoes quoting, whatever follows. -/
theorem readString?_quoteBytes (rest : List Char) : readString? ((quoteBytes s).toList ++ rest) = some (s, rest) := by
  rw [toList_quoteBytes, List.append_assoc, readString?, Text.skip?_append, List.append_assoc, List.singleton_append]
  have hread : readQuoted? '\x60' readEscape? ((s.flatMap escapeByte ++ '\x60' :: rest).length + 1)
      (s.flatMap escapeByte ++ '\x60' :: rest) = some (s.flatMap fun b => [b], rest) :=
    Text.readQuoted?_flatMap readPiece?_escapeByte s rest (by simp only [List.length_append, List.length_cons]; omega)
  simpa using hread

theorem printable_quoteBytes : ∀ c ∈ (quoteBytes s).toList, Printable c := by
  intro c hc
  rw [toList_quoteBytes] at hc
  simp only [List.mem_append, List.mem_flatMap] at hc
  rcases hc with hc | ⟨b, _, hc⟩ | hc
  · exact List.forall_mem_singleton.mpr (show Printable '\x60' by decide) c hc
  · exact printable_escapeByte b c hc
  · exact List.forall_mem_singleton.mpr (show Printable '\x60' by decide) c hc

/-- The data of a string are its bytes and a zero. -/
theorem readBytes?_dataText (fuel : Nat) : readBytes? (fuel + 2) (dataText s).toList = some (s ++ [0]) := by
  cases s with
  | nil => rfl
  | cons b s =>
    have hread := readString?_quoteBytes (b :: s) (", ".toList ++ "0".toList)
    have hzero : readBytes? (fuel + 1) "0".toList = some [0] := rfl
    have hskip := Text.skip?_append ", " "0".toList
    rw [dataText, if_neg (by simp), show ", 0" = ", " ++ "0" from rfl, String.toList_append, String.toList_append,
      readBytes?, hread]
    simp only [Option.some_or, Option.bind_eq_bind, Option.bind_some, hskip, hzero]
    rfl

theorem printable_dataText : ∀ c ∈ (dataText s).toList, Printable c := by
  unfold dataText
  split
  · exact printable_of_all rfl
  · intro c hc
    rw [String.toList_append, List.mem_append] at hc
    rcases hc with hc | hc
    · exact printable_quoteBytes s c hc
    · exact printable_of_all rfl c hc

/-- The text of a data line without its end. -/
def dataLine (index : Nat) (s : Bytes) : List Char :=
  "str_".toList ++ (Nat.toDigits 10 index ++ (": db ".toList ++ (dataText s).toList))

theorem toList_text_string (index : Nat) : (Line.text (.string index s)).toList = dataLine index s ++ ['\n'] := by
  simp [Line.text, stringText, dataLine]

theorem readData?_dataLine (index : Nat) : readData? (dataLine index s) = some (index, s ++ [0]) := by
  have hnumber : readNumber? (Nat.toDigits 10 index ++ (": db ".toList ++ (dataText s).toList)) =
      some (index, ": db ".toList ++ (dataText s).toList) :=
    Text.readNumber?_toDigits index (by simp)
  obtain ⟨fuel, hfuel⟩ : ∃ fuel, (dataText s).toList.length = fuel + 1 := by
    refine Nat.exists_eq_succ_of_ne_zero ?_
    unfold dataText
    split <;> simp [quoteBytes]
  have hbytes : readBytes? ((dataText s).toList.length + 1) (dataText s).toList = some (s ++ [0]) := by
    rw [hfuel]
    exact readBytes?_dataText s fuel
  simp only [readData?, dataLine, Text.skip?_append, Option.bind_eq_bind, Option.bind_some, hnumber, hbytes]
  rfl

theorem printable_dataLine (index : Nat) : ∀ c ∈ dataLine index s, Printable c := by
  intro c hc
  simp only [dataLine, List.mem_append] at hc
  rcases hc with hc | hc | hc | hc
  · exact printable_of_all rfl c hc
  · exact printable_digit (Text.isDigit_of_mem_toDigits hc)
  · exact printable_of_all rfl c hc
  · exact printable_dataText s c hc

end Strings

/-- What is written as data is read back. -/
theorem data_read_back :
    (∀ (s : Bytes) rest, readString? ((quoteBytes s).toList ++ rest) = some (s, rest)) ∧
      (∀ (s : Bytes), ∀ c ∈ (quoteBytes s).toList, Printable c) ∧
        ∀ (t : StringTable) (k : Nat) line, t.lines[k]? = some line →
          ∃ s body, t.strings[k]? = some s ∧ line.text.toList = body ++ ['\n'] ∧ (∀ c ∈ body, Printable c) ∧
            readData? body = some (k, s ++ [0]) := by
  refine ⟨readString?_quoteBytes, printable_quoteBytes, fun t k line hline => ?_⟩
  rw [StringTable.lines, List.getElem?_mapIdx, Option.map_eq_some_iff] at hline
  obtain ⟨s, hs, rfl⟩ := hline
  refine ⟨s, dataLine k s, by simpa using hs, toList_text_string s k, printable_dataLine s k,
    readData?_dataLine s k⟩

/-- An empty string, and one in which bytes stand behind others whose spelling they could extend: a
    digit behind a control character, a backslash before a quote, and bytes beyond ASCII. -/
theorem data_read_back_awkward :
    let t : StringTable := ⟨#[[], [0x01, 0x66, 0x5c, 0x60, 0x0a, 0x6e, 0x7f, 0xff, 0x30]]⟩
    let line : Line := .string 1 [0x01, 0x66, 0x5c, 0x60, 0x0a, 0x6e, 0x7f, 0xff, 0x30]
    t.lines[1]? = some line ∧
      ∃ s body, t.strings[1]? = some s ∧ line.text.toList = body ++ ['\n'] ∧ (∀ c ∈ body, Printable c) ∧
        readData? body = some (1, s ++ [0]) := by
  intro t line
  exact ⟨rfl, data_read_back.2.2 t 1 line rfl⟩

end TreeCompiler.Asm

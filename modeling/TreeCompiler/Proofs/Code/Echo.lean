import TreeCompiler.Code.Listing
import TreeCompiler.Proofs.Text.Lines

/-!
The listing of an instruction can be part of a comment. It stays in it exactly if the names that it
shows do: whatever else it shows has no line breaks.
-/

namespace TreeCompiler

namespace Text

theorem break_not_mem_digits (n : Nat) : '\n' ∉ Nat.toDigits 10 n := by
  intro hmem
  have hdigit := Nat.isDigit_of_mem_toDigits (by decide) (by decide) hmem
  revert hdigit
  decide

theorem break_not_mem_number (v : Int) : '\n' ∉ (toString v).toList := by
  rw [Int.toString_eq_repr, Int.repr_eq_if]
  split
  · rw [← Nat.toString_eq_repr, Nat.toString_eq_ofList_toDigits, String.toList_ofList]
    exact break_not_mem_digits _
  · rw [String.toList_append, List.mem_append, not_or, ← Nat.toString_eq_repr, Nat.toString_eq_ofList_toDigits]
    refine ⟨by decide, ?_⟩
    rw [String.toList_ofList]
    exact break_not_mem_digits _

theorem hexDigit_ne_break {n : Nat} (hn : n < 16) : Bytes.hexDigit n ≠ '\n' := by
  have hall : ∀ n < 16, Bytes.hexDigit n ≠ '\n' := by decide
  exact hall n hn

theorem break_not_mem_hexDigits (digits n : Nat) : '\n' ∉ hexDigits digits n := by
  induction digits generalizing n with
  | zero => simp [hexDigits]
  | succ digits ih =>
    rw [hexDigits, List.mem_append, List.mem_singleton, not_or]
    exact ⟨ih _, (hexDigit_ne_break (Nat.mod_lt _ (by decide))).symm⟩

/-- A line break is written by its name between quotes. -/
theorem break_not_mem_escape (c : Char) : '\n' ∉ escape c := by
  by_cases hc : c = '\n'
  · subst hc
    decide
  · have hne : '\n' ≠ c := Ne.symm hc
    rw [escape]
    repeat' refine iteInduction (motive := ('\n' ∉ ·)) (fun _ => ?_) fun _ => ?_
    all_goals simp [hne, break_not_mem_hexDigits]

theorem break_not_mem_quoteBytes (b : Bytes) : '\n' ∉ (quoteBytes b).toList := by
  have hpiece : ∀ piece : Bytes.Piece, '\n' ∉ escapePiece piece := by
    intro piece
    cases piece with
    | char c => exact break_not_mem_escape c
    | raw b =>
      have hhigh := hexDigit_ne_break (n := b.toNat / 16) (by have := b.toNat_lt; omega)
      have hlow := hexDigit_ne_break (n := b.toNat % 16) (by omega)
      simp [escapePiece, Bytes.hexPair, hhigh.symm, hlow.symm]
  simp only [quoteBytes, String.toList_ofList, List.mem_append, List.mem_flatMap, not_or]
  exact ⟨⟨by decide, fun ⟨piece, _, hmem⟩ => hpiece piece hmem⟩, by decide⟩

/-- Parts between which there are commas stay in a comment if each of them does. -/
theorem staysComment_intercalate {parts : List (List Char)} :
    StaysComment ([',', ' '].intercalate parts) ↔ ∀ part ∈ parts, StaysComment part := by
  match parts with
  | [] => simp [staysComment_of_not_mem]
  | [part] => simp
  | part :: next :: parts =>
    have hrest : StaysComment ([',', ' '].intercalate (next :: parts)) ↔
        ∀ part ∈ next :: parts, StaysComment part := staysComment_intercalate
    rw [List.intercalate_cons_cons, List.append_assoc, staysComment_append (by simp),
      staysComment_append_of_not_mem (by decide), hrest, List.forall_mem_cons (a := part)]

end Text

namespace Code

open Text (StaysComment staysComment_append staysComment_append_of_not_mem staysComment_of_not_mem)

/-- The name of an operand, if it has one. -/
def Operand.name? : Operand → Option String
  | .var name | .label name | .func name => some name
  | .temp _ | .const _ => none

/-- The operands in the listing of an instruction. -/
def Instr.listed (x : Instr) : List Operand :=
  if x.op = .label then x.dst.toList else x.operands.filterMap id

/-- The names in the listing of an instruction. -/
def Instr.names (x : Instr) : List String :=
  x.listed.filterMap Operand.name?

/-- The instruction at an index is passed over: it is the return right behind a call of the function
    by itself, and what it returns is the result of the call. -/
def Func.Elided (f : Func) (i : Nat) : Prop :=
  ∃ j call ret, i = j + 1 ∧ f.code[j]? = some call ∧ f.code[i]? = some ret ∧ call.op = .call ∧
    call.src1 = some (.func f.name) ∧ ret.op = .ret ∧ ret.src1 = call.dst

/-- What is passed over is no call, so that nothing is passed over right behind it. -/
theorem Func.Elided.not_succ {f : Func} {i : Nat} (helided : f.Elided i) : ¬ f.Elided (i + 1) := by
  obtain ⟨_, _, ret, _, _, hret, _, _, hop, _⟩ := helided
  rintro ⟨j, call, _, hj, hcall, _, hop', _⟩
  cases hj
  rw [hret] at hcall
  cases hcall
  rw [hop] at hop'
  cases hop'

/-- The names in the listings of a function's instructions, but for those that are passed over. -/
def Func.Shows (f : Func) (name : String) : Prop :=
  ∃ i x, f.code[i]? = some x ∧ ¬ f.Elided i ∧ name ∈ x.names

theorem Const.break_not_mem_text (c : Const) : '\n' ∉ c.text.toList := by
  cases c with
  | int v => exact Text.break_not_mem_number _
  | bool b => cases b <;> decide
  | str s => exact Text.break_not_mem_quoteBytes s
  | void => decide
  | unknown kind => simp [text]

theorem Op.break_not_mem_name (op : Op) : '\n' ∉ op.name.toList := by
  cases op with
  | binary op => cases op <;> decide
  | compare op => cases op <;> decide
  | unary op => cases op <;> decide
  | unknown code => simp [name]
  | _ => decide

theorem Operand.staysComment_text (o : Operand) :
    StaysComment o.text.toList ↔ ∀ name ∈ o.name?, StaysComment name.toList := by
  cases o with
  | temp t =>
    refine iff_of_true (staysComment_of_not_mem ?_) (by simp [name?])
    rw [text, String.toList_append, List.mem_append, not_or]
    exact ⟨by decide, Text.break_not_mem_number _⟩
  | const c => exact iff_of_true (staysComment_of_not_mem c.break_not_mem_text) (by simp [name?])
  | var name =>
    rw [text, String.toList_append, staysComment_append_of_not_mem (by decide)]
    simp [name?]
  | label name => simp [text, name?]
  | func name =>
    rw [text, String.toList_append, staysComment_append_of_not_mem (by decide)]
    simp [name?]

/-- The listing of an instruction stays in a comment exactly if the names in it do. -/
theorem Instr.staysComment_text (x : Instr) :
    StaysComment x.text.toList ↔ ∀ name ∈ x.names, StaysComment name.toList := by
  have hlisted : (∀ name ∈ x.names, StaysComment name.toList) ↔
      ∀ o ∈ x.listed, StaysComment o.text.toList := by
    simp only [names, List.mem_filterMap, Operand.staysComment_text, Option.mem_def]
    exact ⟨fun h o ho name hname => h name ⟨o, ho, hname⟩, fun h name ⟨o, ho, hname⟩ => h o ho name hname⟩
  rw [hlisted, listed, text]
  by_cases hlabel : x.op = .label
  · rw [if_pos hlabel, if_pos hlabel, String.toList_append, staysComment_append (by simp),
      and_iff_left (staysComment_of_not_mem (by decide))]
    cases x.dst with
    | none => exact iff_of_true (staysComment_of_not_mem (by decide)) (by simp)
    | some o => simp [Operand.textOrBlank]
  · rw [if_neg hlabel, if_neg hlabel]
    cases x.operands.filterMap id with
    | nil => exact iff_of_true (staysComment_of_not_mem x.op.break_not_mem_name) (by simp)
    | cons o os =>
      have hbegin : '\n' ∉ (x.op.name ++ " ").toList := by
        rw [String.toList_append, List.mem_append, not_or]
        exact ⟨x.op.break_not_mem_name, by decide⟩
      dsimp only
      rw [String.toList_append, staysComment_append_of_not_mem hbegin, String.toList_intercalate,
        show ", ".toList = [',', ' '] from rfl, Text.staysComment_intercalate]
      simp

end Code

end TreeCompiler

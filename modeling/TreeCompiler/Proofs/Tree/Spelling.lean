import TreeCompiler.Proofs.Outcome
import TreeCompiler.Proofs.Tree.Printing
import TreeCompiler.Proofs.Tree.Token

/-!
The tokens of trees. The source text of an expression is spelled by its tokens, and these are
separated unless a unary operator runs into its operand.
-/

namespace TreeCompiler.Tree

open Token (Separated spell)

/-- The blank between words. -/
def space : Token := .mark " "

/-- The end of a line. -/
def newline : Token := .mark "\n"

/-- The indentation inside some blocks. -/
def tabs (depth : Nat) : List Token :=
  List.replicate depth (.mark "\t")

/-- The token of a literal. -/
def Literal.token : Literal → Token
  | .number v => .number v
  | .bool true => .word "true"
  | .bool false => .word "false"
  | .str s => .text s
  | .void => .word "void"
  | .unknown _ => .word "void"

/-- What parts the items of a list. -/
def comma : List Token :=
  [.mark ",", space]

/-- The tokens of a parameter. -/
def Param.tokens (p : Param) : List Token :=
  [.word p.name, space, .word p.ty.name]

/-- The tokens of a function up to its body. -/
def Header.tokens (h : Header) : List Token :=
  (if h.isExternal then [.word "extern", space] else []) ++ (if h.isPublic then [.word "pub", space] else []) ++
    .word "fun" :: space :: .word h.name :: .mark "(" ::
      (comma.intercalate (h.params.map Param.tokens) ++ [.mark ")", space, .word h.ret.name])

/-- The token of a unary operator. -/
def operatorToken (op : String) : Token :=
  if op = "len" then .word op else .mark op

mutual

/-- The tokens of an expression inside `depth` blocks. -/
def Expr.tokens (depth : Nat) : Expr → List Token
  | .missing => []
  | .literal l => [l.token]
  | .block body => .mark "\x7b" :: newline :: (stmtTokens depth body ++ (tabs depth ++ [.mark "\x7d"]))
  | .array elems => .mark "[" :: (comma.intercalate (itemTokens depth elems) ++ [.mark "]"])
  | .var name => [.word name]
  | .define name ty value =>
    .word "let" :: space :: .word name :: space :: .word ty.name :: space :: .mark "=" :: space :: value.tokens depth
  | .assign name value => .word name :: space :: .mark "=" :: space :: value.tokens depth
  | .binary op left right =>
    .mark "(" :: (left.tokens depth ++ space :: .mark op :: space :: (right.tokens depth ++ [.mark ")"]))
  | .unary op arg => operatorToken op :: arg.tokens depth
  | .cond test yes no =>
    .word "if" :: space :: (test.tokens depth ++ space :: .word "then" :: space :: (yes.tokens depth ++
      if no.isMissing then [] else space :: .word "else" :: space :: no.tokens depth))
  | .loop test body => .word "while" :: space :: (test.tokens depth ++ space :: body.tokens depth)
  | .func header body => header.tokens ++ if header.isExternal then [] else space :: body.tokens depth
  | .call name args => .word name :: .mark "(" :: (comma.intercalate (itemTokens depth args) ++ [.mark ")"])
  | .ret value => .word "return" :: if value.isMissing then [] else space :: value.tokens depth
  | .index target position => target.tokens depth ++ .mark "[" :: (position.tokens depth ++ [.mark "]"])
  | .setIndex target position value =>
    target.tokens depth ++ .mark "[" :: (position.tokens depth ++ .mark "]" :: space :: .mark "=" :: space ::
      value.tokens depth)
  | .out value => .word "out" :: space :: value.tokens depth
  | .input name => [.word "in", space, .word name]
  | .label name => [.word name, .mark ":"]
  | .goto name => [.word "goto", space, .word name]
  | .exit code => .word "exit" :: if code.isMissing then [] else space :: code.tokens depth

/-- The tokens of the statements of a block. -/
def stmtTokens (depth : Nat) : List Expr → List Token
  | [] => []
  | x :: xs => tabs (depth + 1) ++ (x.tokens (depth + 1) ++ newline :: stmtTokens depth xs)

/-- The tokens of the items of a list, item by item. -/
def itemTokens (depth : Nat) : List Expr → List (List Token)
  | [] => []
  | x :: xs => x.tokens depth :: itemTokens depth xs

end

/-- The tokens of a program, whose items are parted by blank lines. -/
def Program.tokens (p : Program) : List Token :=
  [newline].intercalate (p.body.map fun x => x.tokens 0 ++ [newline])

/-- The text of an expression inside `depth` blocks. -/
def Expr.text (depth : Nat) (x : Expr) : String :=
  String.ofList ((x.tokens depth).flatMap spell)

/-- The tokens of lines that all begin with the same blanks. -/
def inLines (lead : List Token) (depth : Nat) (xs : List Expr) : List Token :=
  xs.flatMap fun x => lead ++ (x.tokens depth ++ [newline])

section Lists

variable (depth : Nat) (xs : List Expr)

theorem inLines_cons (lead : List Token) (x : Expr) :
    inLines lead depth (x :: xs) = lead ++ (x.tokens depth ++ newline :: inLines lead depth xs) := by
  simp [inLines]

theorem stmtTokens_eq_inLines : stmtTokens depth xs = inLines (tabs (depth + 1)) (depth + 1) xs := by
  induction xs with
  | nil => rw [stmtTokens]; rfl
  | cons x xs ih => rw [stmtTokens, ih, inLines_cons]

theorem itemTokens_eq_map : itemTokens depth xs = xs.map (·.tokens depth) := by
  induction xs with
  | nil => rw [itemTokens, List.map_nil]
  | cons x xs ih => rw [itemTokens, ih, List.map_cons]

end Lists

/-- What holds of an expression if it holds of its children holds of every expression. -/
theorem Expr.induct_children {motive : Expr → Prop} (hstep : ∀ x, (∀ y ∈ x.children, motive y) → motive x)
    (x : Expr) :
    motive x := by
  induction hsize : sizeOf x using Nat.strongRecOn generalizing x with
  | ind size ih =>
    subst hsize
    exact hstep x fun y hy => ih _ (sizeOf_child hy) y rfl

section Source

theorem flatMap_intercalate {α β : Type} (f : α → List β) (sep : List α) (xss : List (List α)) :
    (sep.intercalate xss).flatMap f = (sep.flatMap f).intercalate (xss.map (·.flatMap f)) := by
  induction xss with
  | nil => simp
  | cons xs xss ih =>
    cases xss with
    | nil => simp
    | cons ys xss =>
      rw [List.intercalate_cons_cons, List.flatMap_append, List.flatMap_append, ih]
      simp [List.intercalate_cons_cons]

theorem Literal.toList_source (l : Literal) : l.source.toList = l.token.spell := by
  cases l with
  | bool b => cases b <;> rfl
  | _ => rfl

theorem Header.toList_source (h : Header) : h.source.toList = h.tokens.flatMap spell := by
  have hparams : (", ".intercalate (h.params.map fun p => p.name ++ " " ++ p.ty.name)).toList =
      (comma.intercalate (h.params.map Param.tokens)).flatMap spell := by
    rw [String.toList_intercalate, flatMap_intercalate]
    simp [Function.comp_def, Param.tokens, spell, space, comma]
  unfold Header.source Header.tokens
  cases h.isExternal <;> cases h.isPublic <;> simp [hparams, spell, space]

theorem itemsAt_eq {depth : Nat} (xs : List Expr) (hxs : ∀ x ∈ xs, x.sourceAt depth = .ok (x.text depth))
    (index : Nat) :
    itemsAt depth index xs = .ok (xs.map (Expr.text depth)) := by
  induction xs generalizing index with
  | nil => rw [itemsAt, List.map_nil]
  | cons x xs ih =>
    rw [itemsAt, hxs x List.mem_cons_self, ih fun y hy => hxs y (List.mem_cons_of_mem _ hy)]
    rfl

theorem stmtsAt_eq {depth : Nat} (xs : List Expr)
    (hxs : ∀ x ∈ xs, x.sourceAt (depth + 1) = .ok (x.text (depth + 1))) (index : Nat) :
    stmtsAt depth index xs = .ok (xs.map fun x => Source.indent (depth + 1) ++ x.text (depth + 1) ++ "\n") := by
  induction xs generalizing index with
  | nil => rw [stmtsAt, List.map_nil]
  | cons x xs ih =>
    rw [stmtsAt, hxs x List.mem_cons_self, ih fun y hy => hxs y (List.mem_cons_of_mem _ hy)]
    rfl

theorem toList_items (depth : Nat) (xs : List Expr) :
    (", ".intercalate (xs.map (Expr.text depth))).toList =
      (comma.intercalate (itemTokens depth xs)).flatMap spell := by
  rw [String.toList_intercalate, flatMap_intercalate, itemTokens_eq_map]
  simp [Function.comp_def, Expr.text, spell, space, comma]

theorem toList_indent (depth : Nat) : (Source.indent depth).toList = (tabs depth).flatMap spell := by
  rw [Source.indent, String.toList_ofList, tabs]
  induction depth with
  | zero => rfl
  | succ depth ih => rw [List.replicate_succ, List.replicate_succ, List.flatMap_cons, ih]; rfl

theorem toList_stmts (depth : Nat) (xs : List Expr) :
    (String.join (xs.map fun x => Source.indent (depth + 1) ++ x.text (depth + 1) ++ "\n")).toList =
      (stmtTokens depth xs).flatMap spell := by
  rw [String.toList_join]
  induction xs with
  | nil => rw [stmtTokens]; rfl
  | cons x xs ih =>
    rw [List.map_cons, List.flatMap_cons, ih, stmtTokens]
    simp [Expr.text, toList_indent, newline, spell]

theorem spell_operatorToken (op : String) : (operatorToken op).spell = op.toList := by
  unfold operatorToken
  split <;> rfl

theorem ok_text {x : Expr} {depth : Nat} {s : String} (hs : s.toList = (x.tokens depth).flatMap spell) :
    (.ok s : Except Source.Error String) = .ok (x.text depth) := by
  rw [Expr.text, ← hs, String.ofList_toList]

/-- The source text of a well-formed expression is spelled by its tokens. -/
theorem Expr.sourceAt_eq_text {x : Expr} (hx : x.WellFormed) (depth : Nat) : x.sourceAt depth = .ok (x.text depth) := by
  induction x using induct_children generalizing depth with
  | hstep x ih =>
    cases x with
    | missing => cases hx.isMissing
    | literal | var | input | label | goto => exact ok_text (by simp [tokens, spell, space, Literal.toList_source])
    | block body =>
      have hbody := stmtsAt_eq body (fun y hy => ih y hy (mem_wellFormedAll hx hy) (depth + 1)) 0
      rw [sourceAt, hbody]
      exact ok_text (by simp [tokens, toList_stmts, toList_indent, spell, newline, -String.toList_join])
    | array elems =>
      have helems := itemsAt_eq elems (fun y hy => ih y hy (mem_wellFormedAll hx hy) depth) 0
      rw [sourceAt, helems]
      exact ok_text (by simp [tokens, toList_items, spell, -String.toList_intercalate])
    | call name args =>
      have hargs := itemsAt_eq args (fun y hy => ih y hy (mem_wellFormedAll hx.2 hy) depth) 0
      rw [sourceAt, hargs]
      exact ok_text (by simp [tokens, toList_items, spell, -String.toList_intercalate])
    | unary op arg =>
      rw [sourceAt, ih arg (by simp [children]) hx.2]
      exact ok_text (by simp [tokens, text, spell_operatorToken])
    | define | assign | binary | loop | index | setIndex | out =>
      simp only [WellFormed] at hx
      simp only [children, List.forall_mem_cons] at ih
      simp only [sourceAt, ih, hx]
      exact ok_text (by simp [tokens, text, spell, space])
    | cond test yes no =>
      rw [sourceAt, ih test (by simp [children]) hx.1, ih yes (by simp [children]) hx.2.1]
      rcases hx.2.2 with hmissing | hno
      · rw [hmissing]
        exact ok_text (by simp [tokens, text, spell, space, hmissing])
      · rw [hno.isMissing, ih no (by simp [children]) hno]
        exact ok_text (by simp [tokens, text, spell, space, hno.isMissing])
    | func h body =>
      obtain ⟨_, hbody⟩ := hx
      rw [sourceAt]
      split at hbody
      · next hexternal =>
        rw [if_pos hexternal]
        exact ok_text (by simp [tokens, Header.toList_source, hexternal])
      · next hinternal =>
        rw [if_neg hinternal, ih body (by simp [children]) hbody]
        exact ok_text (by simp [tokens, text, Header.toList_source, hinternal, spell, space])
    | ret value | exit value =>
      rw [sourceAt]
      rcases hx with hmissing | ⟨_, hvalue⟩
      · rw [if_pos hmissing]
        exact ok_text (by simp [tokens, spell, hmissing])
      · rw [hvalue.isMissing, ih value (by simp [children]) hvalue]
        exact ok_text (by simp [tokens, text, spell, space, hvalue.isMissing])

theorem programItems_eq {xs : List Expr} (hxs : WellFormedAll xs) (index : Nat) :
    programItems index xs = .ok (xs.map fun x => x.text 0 ++ "\n") := by
  induction xs generalizing index with
  | nil => rfl
  | cons x xs ih =>
    have hx := Expr.sourceAt_eq_text hxs.1 0
    unfold programItems
    rw [ih hxs.2]
    cases x <;> (simp only [hx]; rfl)

theorem Program.source_eq {p : Program} (hp : WellFormedAll p.body) :
    p.source = .ok ("\n".intercalate (p.body.map fun x => x.text 0 ++ "\n")) := by
  rw [source, programItems_eq hp]
  rfl

/-- The source text of a program of well-formed items is spelled by its tokens. -/
theorem Program.toList_source {p : Program} (hp : WellFormedAll p.body) {text : String} (htext : p.source = .ok text) :
    text.toList = p.tokens.flatMap spell := by
  rw [source_eq hp] at htext
  cases htext
  rw [String.toList_intercalate, tokens, flatMap_intercalate]
  simp [Function.comp_def, Expr.text, newline, spell]

end Source

end TreeCompiler.Tree

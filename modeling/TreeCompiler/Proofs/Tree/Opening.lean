import TreeCompiler.Proofs.Tree.Legible

/-!
How expressions begin and what may stand behind them. An expression can be told by its first tokens from
what stands behind another one, and these tokens also tell what kind of expression it is.
-/

namespace TreeCompiler.Tree

/-- Marks that expressions begin with. -/
def openers : List String :=
  ["\x7b", "[", "(", "-", "!", "#", "++", "--"]

/-- Whether an expression can begin here. -/
def opens : List Token → Bool
  | [] => false
  | .word w :: _ => w ≠ "then" && w ≠ "else"
  | .mark m :: rest => m ∈ openers && rest.head? ≠ some space
  | _ :: _ => true

/-- What stands behind a blank. -/
def behindBlank : List Token → List Token
  | .mark " " :: ts => ts
  | _ => []

theorem behindBlank_of_head?_ne {ts : List Token} (hts : ts.head? ≠ some space) : behindBlank ts = [] := by
  unfold behindBlank
  split
  · exact absurd rfl hts
  · rfl

section Opening

theorem intercalate_comma {α : Type} {spelling : α → List Token} (a : α) (as : List α) :
    comma.intercalate ((a :: as).map spelling) = spelling a ++ as.flatMap fun b => comma ++ spelling b := by
  induction as generalizing a with
  | nil => simp
  | cons b bs ih => simp only [List.map_cons, List.intercalate_cons_cons, List.flatMap_cons, ← ih, List.append_assoc]

variable {ts : List Token} {m name : String}

theorem head?_ne_of_opens (hts : opens ts = true) (hm : m ∉ openers) :
    ts.head? ≠ some (.mark m) := by
  intro hhead
  obtain ⟨us, rfl⟩ := List.head?_eq_some_iff.mp hhead
  simp [opens, hm] at hts

theorem opens_word {w : String} (hw : w ≠ "then" ∧ w ≠ "else") (ts : List Token) :
    opens (.word w :: ts) = true := by
  simp [opens, hw]

theorem opens_mark (hm : m ∈ openers) (hts : ts.head? ≠ some space) :
    opens (.mark m :: ts) = true := by
  simp [opens, hm, hts]

theorem ne_of_isIdentifier (hname : isIdentifier name = true) : name ∉ keywords := by
  simpa using (Bool.and_eq_true_iff.mp hname).2

theorem opens_identifier (hname : isIdentifier name = true) (ts : List Token) :
    opens (.word name :: ts) = true := by
  refine opens_word ⟨?_, ?_⟩ ts <;>
    (rintro rfl; exact ne_of_isIdentifier hname (by decide))

/-- The text of a clear expression begins like an expression. -/
theorem Expr.Clear.opens_tokens {x : Expr} (hx : x.Clear) (depth : Nat) (rest : List Token) :
    opens (x.tokens depth ++ rest) = true := by
  induction x using induct_children generalizing rest with
  | hstep x ih =>
    have hwell := hx.wellFormed
    have hnames : ∀ name ∈ x.ownNames, isIdentifier name = true := hx.names x hx.mem_nodes
    have hchild : ∀ y ∈ x.children, y.isMissing = false → ∀ rest, opens (y.tokens depth ++ rest) = true :=
      fun y hy hmissing => ih y hy (hx.child hy hmissing)
    cases x with
    | missing => cases hwell.isMissing
    | literal l =>
      cases l with
      | bool b => cases b <;> exact opens_word (by decide) _
      | void | unknown => exact opens_word (by decide) _
      | _ => rfl
    | block body =>
      rw [tokens, List.cons_append, List.cons_append]
      exact opens_mark (by decide) (by simp [newline, space])
    | array elems =>
      rw [tokens, List.cons_append, itemTokens_eq_map, List.append_assoc]
      refine opens_mark (by decide) ?_
      cases elems with
      | nil => simp [space]
      | cons y ys =>
        have hy : y ∈ (array (y :: ys)).children := List.mem_cons_self
        rw [intercalate_comma, List.append_assoc]
        exact head?_ne_of_opens (hchild y hy (mem_wellFormedAll hwell hy).isMissing _) (by decide)
    | binary op left right =>
      rw [tokens, List.cons_append, List.append_assoc]
      exact opens_mark (by decide)
        (head?_ne_of_opens (hchild left (by simp [children]) hwell.2.1.isMissing _) (by decide))
    | unary op arg =>
      have harg := hchild arg (by simp [children]) hwell.2.isMissing rest
      have hop : op ∈ unaryOperators := of_decide_eq_true (hx.operators _ hx.mem_nodes)
      have hall : ∀ op ∈ unaryOperators, op = "len" ∨ op ∈ openers := by decide +kernel
      rw [tokens, List.cons_append, operatorToken]
      split
      · next hlen => exact opens_word (by simp [hlen]) _
      · next hlen => exact opens_mark ((hall op hop).resolve_left hlen) (head?_ne_of_opens harg (by decide))
    | func h body =>
      rw [tokens, Header.tokens]
      cases h.isExternal <;> cases h.isPublic <;> exact opens_word (by decide) _
    | index target _ | setIndex target _ _ =>
      rw [tokens, List.append_assoc]
      exact hchild target (by simp [children]) hwell.1.isMissing _
    | var | assign | call | label => exact opens_identifier (hnames _ List.mem_cons_self) _
    | define | cond | loop | ret | out | input | goto | exit => exact opens_word (by decide) _

end Opening

/-- The part that an expression ends with, if it is not closed by something of its own. -/
def Expr.last? : Expr → Option Expr
  | .define _ _ value => some value
  | .assign _ value => some value
  | .unary _ arg => some arg
  | .cond _ yes no => some (if no.isMissing then yes else no)
  | .loop _ body => some body
  | .func h body => if h.isExternal then none else some body
  | .ret value => if value.isMissing then none else some value
  | .setIndex _ _ value => some value
  | .out value => some value
  | .exit code => if code.isMissing then none else some code
  | _ => none

variable {x y : Expr}

theorem Expr.mem_children_of_last? (hlast : x.last? = some y) : y ∈ x.children := by
  cases x <;> grind [last?, children]

theorem Expr.Clear.of_last? (hx : x.Clear) (hlast : x.last? = some y) :
    y.Clear ∧ x.endings = x :: y.endings := by
  have hends : y.isMissing = false ∧ x.endings = x :: y.endings := by
    have hwell := hx.wellFormed
    have hisMissing : ∀ z : Expr, z.WellFormed → z.isMissing = false := fun z hz => hz.isMissing
    cases x <;> grind [last?, WellFormed, endings]
  exact ⟨hx.child (mem_children_of_last? hlast) hends.1, hends.2⟩

/-- The tokens that never continue an expression. -/
def closers : List Token :=
  [space, .mark ")", .mark "]", .mark ",", newline]

/-- What may stand behind an expression. -/
structure Follows (x : Expr) (rest : List Token) : Prop where
  stops : ∀ t ∈ rest.head?, t ∈ closers ∨ t = .mark "[" ∧ x.isClosed = true
  noAssign : (behindBlank rest).head? ≠ some (.mark "=")
  noElse : x.endings.any Expr.lacksElse = true → (behindBlank rest).head? ≠ some (.word "else")
  noValue : x.endings.any Expr.lacksValue = true → opens (behindBlank rest) = false

/-- A clear expression with something behind it that may stand there. -/
structure Standing (x : Expr) (rest : List Token) : Prop where
  clear : x.Clear
  follows : Follows x rest

/-- A clear expression that ends where it seems to, since no index stands behind it. -/
structure Ended (x : Expr) (rest : List Token) : Prop extends Standing x rest where
  noIndex : rest.head? ≠ some (.mark "[")

section Following

variable {x y : Expr} {rest us : List Token}

/-- Where no blank follows, it is known at once that the expression does not go on. -/
theorem Follows.of_head?_ne (hspace : us.head? ≠ some space)
    (hstop : ∀ t ∈ us.head?, t ∈ closers ∨ t = .mark "[" ∧ x.isClosed = true) : Follows x us := by
  have hblank := behindBlank_of_head?_ne hspace
  exact ⟨hstop, by simp [hblank], by simp [hblank], by simp [hblank, opens]⟩

theorem Standing.indexed (hx : x.Clear) (hclosed : x.isClosed = true) : Standing x (.mark "[" :: us) :=
  ⟨hx, .of_head?_ne (by simp [space]) fun t ht => .inr ⟨by simpa using ht.symm, hclosed⟩⟩

theorem Ended.of_mark (hx : x.Clear) {m : String} (hm : m ∈ [")", "]", ",", "\n"]) (hus : us.head? = some (.mark m)) :
    Ended x us := by
  have hall : ∀ m ∈ [")", "]", ",", "\n"], Token.mark m ∈ closers ∧ Token.mark m ≠ space ∧
      m ≠ "[" := by decide +kernel
  obtain ⟨hmem, hspace, hbracket⟩ := hall m hm
  refine ⟨⟨hx, .of_head?_ne (by simpa [hus] using hspace) fun t ht => .inl ?_⟩, by simpa [hus] using hbracket⟩
  rw [hus, Option.mem_some_iff] at ht
  exact ht ▸ hmem

theorem Ended.of_space (hx : x.Clear) (hassign : us.head? ≠ some (.mark "="))
    (helse : x.endings.any Expr.lacksElse = true → us.head? ≠ some (.word "else"))
    (hvalue : x.endings.any Expr.lacksValue = true → opens us = false) : Ended x (space :: us) := by
  refine ⟨⟨hx, fun t ht => .inl ?_, hassign, helse, hvalue⟩, by simp [space]⟩
  rw [List.head?_cons, Option.mem_some_iff] at ht
  simp [← ht, closers]

namespace Standing

theorem identifier (hx : Standing x rest) {name : String} (hname : name ∈ x.ownNames) : isIdentifier name = true :=
  hx.clear.names x hx.clear.mem_nodes name hname

theorem head?_ne_mark (hx : Standing x rest) {m : String} (hm : m ∈ ["(", ":"]) : rest.head? ≠ some (.mark m) := by
  have hall : ∀ m ∈ ["(", ":"], Token.mark m ∉ closers ∧ m ≠ "[" := by decide +kernel
  obtain ⟨hmem, hbracket⟩ := hall m hm
  intro hhead
  rcases hx.follows.stops _ hhead with hstop | ⟨heq, _⟩
  · exact hmem hstop
  · exact hbracket (Token.mark.inj heq)

/-- What stands behind an expression stands behind the part that it ends with, and it is no index. -/
theorem last (hx : Standing x rest) (hlast : x.last? = some y) : Ended y rest := by
  obtain ⟨hy, hends⟩ := hx.clear.of_last? hlast
  have hopen : x.isClosed = false := by
    simpa [Expr.isClosed, hends] using Expr.endings_ne_nil hy.isMissing
  have hbracket : rest.head? ≠ some (.mark "[") := by
    intro hhead
    rcases hx.follows.stops _ hhead with hmem | ⟨_, hclosed⟩
    · revert hmem
      decide +kernel
    · rw [hopen] at hclosed
      cases hclosed
  have hany : ∀ p : Expr → Bool, y.endings.any p = true → x.endings.any p = true := by
    intro p hp
    simp [hends, hp]
  refine ⟨⟨hy, fun t ht => ?_, hx.follows.noAssign, fun h => hx.follows.noElse (hany _ h),
    fun h => hx.follows.noValue (hany _ h)⟩, hbracket⟩
  rcases hx.follows.stops t ht with hmem | ⟨rfl, _⟩
  · exact .inl hmem
  · exact absurd ht hbracket

end Standing

end Following

/-- The kinds of expressions, but for those that begin with what they index. -/
inductive Kind where
  | literal | block | array | var | define | assign | binary | unary | cond | loop | func | call | ret | out | input
  | label | goto | exit | other
  deriving DecidableEq

/-- The kind of an expression. -/
def Expr.kind : Expr → Kind
  | .missing | .index .. | .setIndex .. => .other
  | .literal _ => .literal
  | .block _ => .block
  | .array _ => .array
  | .var _ => .var
  | .define .. => .define
  | .assign .. => .assign
  | .binary .. => .binary
  | .unary .. => .unary
  | .cond .. => .cond
  | .loop .. => .loop
  | .func .. => .func
  | .call .. => .call
  | .ret _ => .ret
  | .out _ => .out
  | .input _ => .input
  | .label _ => .label
  | .goto _ => .goto
  | .exit _ => .exit

/-- What begins with a word. -/
def wordKind (w : String) (ts : List Token) : Kind :=
  match w with
  | "true" | "false" | "void" => .literal
  | "let" => .define
  | "if" => .cond
  | "while" => .loop
  | "extern" | "pub" | "fun" => .func
  | "return" => .ret
  | "out" => .out
  | "in" => .input
  | "goto" => .goto
  | "exit" => .exit
  | "len" => .unary
  | _ =>
    if ts.head? = some (.mark "(") then .call
    else if ts.head? = some (.mark ":") then .label
    else if (behindBlank ts).head? = some (.mark "=") then .assign
    else .var

/-- The kind of expression that some tokens begin. -/
def kindOf : List Token → Kind
  | [] => .other
  | .word w :: ts => wordKind w ts
  | .mark m :: _ => if m = "\x7b" then .block else if m = "[" then .array else if m = "(" then .binary else .unary
  | _ :: _ => .literal

theorem wordKind_identifier {name : String} (hname : isIdentifier name = true) (ts : List Token) :
    wordKind name ts = if ts.head? = some (.mark "(") then .call else if ts.head? = some (.mark ":") then .label
      else if (behindBlank ts).head? = some (.mark "=") then .assign else .var := by
  have hkeyword := ne_of_isIdentifier hname
  unfold wordKind
  split <;> first | rfl | exact absurd (by decide) hkeyword

/-- The kind of a clear expression is known from its first tokens. -/
theorem Standing.kindOf_tokens {rest : List Token} (hx : Standing x rest) (hkind : x.kind ≠ .other)
    (depth : Nat) : kindOf (x.tokens depth ++ rest) = x.kind := by
  cases x with
  | missing | index | setIndex => exact absurd rfl hkind
  | literal l =>
    cases l with
    | bool b => cases b <;> rfl
    | _ => rfl
  | var name =>
    simp [Expr.tokens, kindOf, wordKind_identifier (hx.identifier List.mem_cons_self), hx.head?_ne_mark,
      hx.follows.noAssign, Expr.kind]
  | assign | call | label =>
    simp [Expr.tokens, kindOf, wordKind_identifier (hx.identifier List.mem_cons_self), space, behindBlank, Expr.kind]
  | unary op arg =>
    have hop : op ∈ unaryOperators := of_decide_eq_true (hx.clear.operators _ hx.clear.mem_nodes)
    have hall : ∀ op ∈ unaryOperators, ∀ ts, kindOf (operatorToken op :: ts) = .unary := by
      simp [unaryOperators, operatorToken, kindOf, wordKind]
    exact hall op hop _
  | func h body =>
    rw [Expr.tokens, Header.tokens]
    cases h.isExternal <;> cases h.isPublic <;> rfl
  | _ => rfl

end TreeCompiler.Tree

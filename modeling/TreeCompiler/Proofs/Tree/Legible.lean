import TreeCompiler.Proofs.Tree.Spelling

/-!
Which trees can be read off their source texts. Names are identifiers, operators are known, and
nothing is written so that it could be part of something else: operators do not run into their
operands, an `else` has one conditional to go with, an index has one target, and the test of a loop
ends where its body begins.
-/

namespace TreeCompiler.Tree

open Token (Separated spell)

/-- Words that have a meaning of their own. -/
def keywords : List String :=
  ["true", "false", "void", "let", "if", "then", "else", "while", "extern", "pub", "fun", "return", "out", "in",
    "goto", "exit", "len"]

/-- Whether a name is a word without a meaning of its own. -/
def isIdentifier (name : String) : Bool :=
  isWord name && name ∉ keywords

namespace Expr

/-- The names that an expression itself uses. -/
def ownNames : Expr → List String
  | .var name => [name]
  | .define name _ _ => [name]
  | .assign name _ => [name]
  | .func h _ => h.name :: h.params.map (·.name)
  | .call name _ => [name]
  | .input name => [name]
  | .label name => [name]
  | .goto name => [name]
  | _ => []

/-- Whether the operator of an expression is known, if it has one. -/
def hasKnownOperator : Expr → Bool
  | .binary op _ _ => op ∈ binaryOperators
  | .unary op _ => op ∈ unaryOperators
  | _ => true

/-- The expressions whose texts end where the text of an expression ends, from the outside to the
    inside. -/
def endings : Expr → List Expr
  | .missing => []
  | .define name ty value => .define name ty value :: value.endings
  | .assign name value => .assign name value :: value.endings
  | .unary op arg => .unary op arg :: arg.endings
  | .cond test yes no => .cond test yes no :: if no.isMissing then yes.endings else no.endings
  | .loop test body => .loop test body :: body.endings
  | .func h body => .func h body :: if h.isExternal then [] else body.endings
  | .ret value => .ret value :: value.endings
  | .setIndex target position value => .setIndex target position value :: value.endings
  | .out value => .out value :: value.endings
  | .exit code => .exit code :: code.endings
  | x => [x]

theorem endings_ne_nil {x : Expr} (hx : x.isMissing = false) : x.endings ≠ [] := by
  cases x with
  | missing => cases hx
  | _ => simp [endings]

/-- Whether nothing of an expression stands in front of its end but the expression itself. -/
def isClosed (x : Expr) : Bool :=
  x.endings.tail.isEmpty

/-- Whether an expression is a conditional without an `else`. -/
def lacksElse : Expr → Bool
  | .cond _ _ no => no.isMissing
  | _ => false

/-- Whether an expression could be given a value to return or exit with. -/
def lacksValue : Expr → Bool
  | .ret value => value.isMissing
  | .exit code => code.isMissing
  | _ => false

/-- Whether an expression keeps its parts apart. -/
def isLegible : Expr → Bool
  | .unary op arg => (arg.text 0).toList.head?.all fun c => !(operatorToken op).absorbs c
  | .cond _ yes no => no.isMissing || !yes.endings.any lacksElse
  | .loop test _ => !test.endings.any lacksValue
  | .index target _ => target.isClosed
  | .setIndex target _ _ => target.isClosed
  | _ => true

/-- A well-formed expression with proper names and operators that keeps its parts apart everywhere. -/
structure Clear (x : Expr) : Prop where
  wellFormed : x.WellFormed
  names : ∀ n ∈ x.nodes, ∀ name ∈ n.ownNames, isIdentifier name = true
  operators : ∀ n ∈ x.nodes, n.hasKnownOperator = true
  legible : ∀ n ∈ x.nodes, n.isLegible = true

namespace Clear

variable {x y : Expr}

theorem mem_nodes (hx : x.Clear) : x ∈ x.nodes :=
  (mem_nodes_iff hx.wellFormed.isMissing).mpr (.inl rfl)

theorem isMissing (hx : x.Clear) : x.isMissing = false :=
  hx.wellFormed.isMissing

theorem child (hx : x.Clear) (hy : y ∈ x.children) (hmissing : y.isMissing = false) : y.Clear := by
  have hsub : ∀ n ∈ y.nodes, n ∈ x.nodes := fun n hn =>
    (mem_nodes_iff hx.isMissing).mpr (.inr ⟨y, hy, hn⟩)
  refine ⟨?_, fun n hn => hx.names n (hsub n hn), fun n hn => hx.operators n (hsub n hn),
    fun n hn => hx.legible n (hsub n hn)⟩
  rcases hx.wellFormed.child hy with hwell | ⟨rfl, _⟩
  · exact hwell
  · cases hmissing

end Clear

end Expr

/-! ## Separation -/

section Separation

open Token (separated_append_delimiter separated_cons_delimiter separated_word_delimiter separated_singleton)

theorem isWord_of_isIdentifier {name : String} (hname : isIdentifier name = true) : isWord name = true :=
  (Bool.and_eq_true_iff.mp hname).1

theorem isWord_name {ty : Ty} (hty : ty ∈ Ty.all) : isWord ty.name = true := by
  revert ty
  decide +kernel

theorem mem_marks_of_binary {op : String} (hop : op ∈ binaryOperators) : op ∈ marks :=
  List.mem_append_right _ hop

theorem valid_operatorToken {op : String} (hop : op ∈ unaryOperators) : (operatorToken op).Valid := by
  have hall : ∀ op ∈ unaryOperators, if op = "len" then isWord op = true else op ∈ marks := by decide +kernel
  have hvalid := hall op hop
  unfold operatorToken
  split at hvalid
  · next hlen => rwa [if_pos hlen]
  · next hlen => rwa [if_neg hlen]

theorem Literal.valid_token (l : Literal) : l.token.Valid := by
  have hwords : ∀ w ∈ ["true", "false", "void"], isWord w = true := by decide +kernel
  cases l with
  | number v => trivial
  | str s => trivial
  | bool b => cases b <;> exact hwords _ (by simp)
  | void => exact hwords _ (by simp)
  | unknown kind => exact hwords _ (by simp)

theorem separated_comma {tss : List (List Token)} (htss : ∀ ts ∈ tss, Separated ts) :
    Separated (comma.intercalate tss) := by
  induction tss with
  | nil => trivial
  | cons ts tss ih =>
    rw [List.forall_mem_cons] at htss
    cases tss with
    | nil => simpa using htss.1
    | cons us tss =>
      rw [List.intercalate_cons_cons, List.append_assoc]
      exact (separated_append_delimiter (by decide)).mpr
        ⟨htss.1, (separated_cons_delimiter (by decide)).mpr (ih htss.2)⟩

theorem separated_tabs (depth : Nat) (ts : List Token) (hts : Separated ts) : Separated (tabs depth ++ ts) := by
  induction depth with
  | zero => exact hts
  | succ depth ih => exact (separated_cons_delimiter (by decide)).mpr ih

/-- Lines have nothing to do with each other. -/
theorem separated_lines {lead : List Token} (hlead : ∀ ts, Separated ts → Separated (lead ++ ts)) {depth : Nat}
    {xs : List Expr} (hxs : ∀ x ∈ xs, Separated (x.tokens depth)) {rest : List Token} (hrest : Separated rest) :
    Separated (inLines lead depth xs ++ rest) := by
  induction xs with
  | nil => exact hrest
  | cons x xs ih =>
    rw [List.forall_mem_cons] at hxs
    simp only [inLines_cons, List.append_assoc]
    exact hlead _ ((separated_append_delimiter (by decide)).mpr ⟨hxs.1, ih hxs.2⟩)

/-- The first character of a text does not depend on how far it is indented. -/
theorem Expr.head?_text (x : Expr) (depth : Nat) : (x.text depth).toList.head? = (x.text 0).toList.head? := by
  induction x using induct_children with
  | hstep x ih =>
    simp only [text, String.toList_ofList] at ih ⊢
    cases x with
    | index target position => simp [tokens, spell, ih target (by simp [children])]
    | setIndex target position value => simp [tokens, spell, ih target (by simp [children])]
    | unary op arg => simp [tokens, ih arg (by simp [children])]
    | func h body =>
      rw [tokens, tokens]
      split <;> simp [ih body (by simp [children])]
    | _ => simp [tokens, spell]

theorem valid_keyword {w : String} (hw : w ∈ keywords) : (Token.word w).Valid := by
  have hall : ∀ w ∈ keywords, isWord w = true := by decide +kernel
  exact hall w hw

theorem valid_equals : (Token.mark "=").Valid := by
  show "=" ∈ marks
  decide

theorem Header.separated_tokens {h : Header} (hh : h.WellFormed)
    (hnames : ∀ name ∈ h.name :: h.params.map (·.name), isWord name = true) : Separated h.tokens := by
  obtain ⟨_, hparams, hret⟩ := hh
  have htypes : Separated (comma.intercalate (h.params.map Param.tokens)) := by
    refine separated_comma ?_
    simp only [List.forall_mem_map]
    intro p hp
    have hname : isWord p.name = true := hnames p.name (List.mem_cons_of_mem _ (List.mem_map_of_mem hp))
    exact (separated_word_delimiter (by decide)).mpr ⟨hname, separated_singleton.mpr (isWord_name (hparams p hp).2)⟩
  have hflag : ∀ (b : Bool) (w : String) (ts : List Token), w ∈ keywords → Separated ts →
      Separated ((if b then [.word w, space] else []) ++ ts) := by
    intro b w ts hw hts
    cases b with
    | false => exact hts
    | true => exact (separated_word_delimiter (by decide)).mpr ⟨valid_keyword hw, hts⟩
  rw [Header.tokens, List.append_assoc]
  refine hflag _ _ _ (by decide) (hflag _ _ _ (by decide) ?_)
  simp (disch := decide) only [space, separated_word_delimiter, separated_append_delimiter, separated_cons_delimiter,
    separated_singleton]
  exact ⟨valid_keyword (by decide), hnames h.name List.mem_cons_self, htypes, isWord_name hret⟩

theorem separated_items {depth : Nat} (xs : List Expr) (hxs : ∀ x ∈ xs, ∀ depth, Separated (x.tokens depth)) :
    Separated (comma.intercalate (itemTokens depth xs)) := by
  refine separated_comma ?_
  rw [itemTokens_eq_map, List.forall_mem_map]
  exact fun x hx => hxs x hx depth

theorem separated_nil : Separated [] :=
  trivial

attribute [local simp] separated_append_delimiter separated_cons_delimiter separated_word_delimiter separated_singleton
  separated_nil valid_keyword valid_equals

/-- The tokens of a clear expression are separated. -/
theorem Expr.Clear.separated_tokens {x : Expr} (hx : x.Clear) (depth : Nat) : Separated (x.tokens depth) := by
  induction x using induct_children generalizing depth with
  | hstep x ih =>
    have hwell := hx.wellFormed
    have hnames : ∀ name ∈ x.ownNames, (Token.word name).Valid := fun name hname =>
      isWord_of_isIdentifier (hx.names x hx.mem_nodes name hname)
    -- A part that is missing has no tokens.
    have hchild : ∀ y ∈ x.children, ∀ depth, Separated (y.tokens depth) := by
      intro y hy depth
      rcases hwell.child hy with hy' | ⟨rfl, _⟩
      · exact ih y hy (hx.child hy hy'.isMissing) depth
      · simp [tokens]
    cases x with
    | missing => cases hwell.isMissing
    | literal l => exact separated_singleton.mpr l.valid_token
    | block body =>
      rw [tokens, newline, separated_cons_delimiter (by decide), separated_cons_delimiter (by decide),
        stmtTokens_eq_inLines]
      exact separated_lines (separated_tabs (depth + 1)) (fun y hy => hchild y hy (depth + 1))
        (separated_tabs depth _ ((separated_cons_delimiter (by decide)).mpr trivial))
    | array elems => simp (disch := decide) [tokens, separated_items elems hchild]
    | call name args => simp (disch := decide) [tokens, hnames name (by simp [ownNames]), separated_items args hchild]
    | define name ty value =>
      have hty : (Token.word ty.name).Valid := isWord_name hwell.2.1
      simp (disch := decide) [tokens, space, hty, hnames name (by simp [ownNames]), hchild value (by simp [children])]
    | unary op arg =>
      have hop : op ∈ unaryOperators := of_decide_eq_true (hx.operators _ hx.mem_nodes)
      refine ⟨valid_operatorToken hop, ?_, hchild arg (by simp [children]) depth⟩
      have hlegible : (arg.text 0).toList.head?.all (fun c => !(operatorToken op).absorbs c) = true :=
        hx.legible _ hx.mem_nodes
      rw [← head?_text arg depth, text, String.toList_ofList] at hlegible
      simpa [Option.all_eq_true] using hlegible
    | binary op left right =>
      have hop : (Token.mark op).Valid := mem_marks_of_binary (of_decide_eq_true (hx.operators _ hx.mem_nodes))
      simp only [children, List.forall_mem_cons] at hchild
      simp (disch := decide) [tokens, space, hop, hchild]
    | func h body =>
      have hheader := Header.separated_tokens hwell.1 hnames
      rw [tokens]
      split
      · rwa [List.append_nil]
      · rw [space, separated_append_delimiter (by decide)]
        exact ⟨hheader, hchild body (by simp [children]) depth⟩
    | cond test yes no =>
      simp only [children, List.forall_mem_cons] at hchild
      cases hno : no.isMissing <;> simp (disch := decide) [tokens, space, hno, hchild]
    | ret value | exit value =>
      cases hvalue : value.isMissing <;>
        simp (disch := decide) [tokens, space, hvalue, hchild value (by simp [children])]
    | var | assign | loop | index | setIndex | out | input | label | goto =>
      simp only [children, List.forall_mem_cons] at hchild
      simp only [ownNames, List.forall_mem_cons] at hnames
      simp (disch := decide) [tokens, space, hchild, hnames]

end Separation

end TreeCompiler.Tree

import TreeCompiler.Proofs.Tree.Decoding
import TreeCompiler.Proofs.Tree.Recognition

/-!
Source texts determine trees. Two programs that were decoded, have proper names and known operators,
and keep their parts apart everywhere are the same if they are printed as the same text.
-/

namespace TreeCompiler.Tree

open Token (Separated spell)

/-- The names of a program are identifiers and its operators are known. -/
structure Program.Conventional (p : Program) : Prop where
  names : ∀ n ∈ nodesAll p.body, ∀ name ∈ n.ownNames, isIdentifier name = true
  operators : ∀ n ∈ nodesAll p.body, n.hasKnownOperator = true

/-- A program keeps its parts apart everywhere. -/
def Program.Legible (p : Program) : Prop :=
  ∀ n ∈ nodesAll p.body, n.isLegible = true

theorem Program.clear {p : Program} (hwell : WellFormedAll p.body) (hconventional : p.Conventional)
    (hlegible : p.Legible) : ∀ x ∈ p.body, x.Clear := by
  intro x hx
  have hsub : ∀ n ∈ x.nodes, n ∈ nodesAll p.body := fun n hn => mem_nodesAll hx hn
  exact ⟨mem_wellFormedAll hwell hx, fun n hn => hconventional.names n (hsub n hn),
    fun n hn => hconventional.operators n (hsub n hn), fun n hn => hlegible n (hsub n hn)⟩

/-- The items of a program stand in lines, with a blank line in front of each but the first. -/
theorem Program.newline_tokens {x : Expr} {xs : List Expr} :
    newline :: Program.tokens ⟨x :: xs⟩ = inLines [newline] 0 (x :: xs) := by
  induction xs generalizing x with
  | nil => simp [Program.tokens, inLines]
  | cons y ys ih =>
    rw [inLines_cons, ← ih]
    simp [Program.tokens, List.intercalate_cons_cons]

theorem Program.separated_tokens {p : Program} (hp : ∀ x ∈ p.body, x.Clear) : Separated p.tokens := by
  obtain ⟨body⟩ := p
  cases body with
  | nil => trivial
  | cons x xs =>
    have hnewline : ∀ ts, Separated (newline :: ts) ↔ Separated ts := fun ts =>
      Token.separated_cons_delimiter (by decide)
    have hlines : Separated (inLines [newline] 0 (x :: xs) ++ []) :=
      separated_lines (fun ts => (hnewline ts).mpr) (fun y hy => (hp y hy).separated_tokens 0) trivial
    rwa [List.append_nil, ← Program.newline_tokens, hnewline] at hlines

/-- Programs of clear items are told apart by their tokens. -/
theorem Program.eq_of_tokens {p q : Program} (hp : ∀ x ∈ p.body, x.Clear) (hq : ∀ x ∈ q.body, x.Clear)
    (heq : p.tokens = q.tokens) : p = q := by
  have hne : ∀ x xs, Program.tokens ⟨x :: xs⟩ ≠ [] := by
    intro x xs hnil
    have hlines : newline :: Program.tokens ⟨x :: xs⟩ = _ := newline_tokens
    simp [hnil, inLines_cons] at hlines
  obtain ⟨_ | ⟨x, xs⟩⟩ := p <;> obtain ⟨_ | ⟨y, ys⟩⟩ := q
  · rfl
  · exact absurd heq.symm (hne y ys)
  · exact absurd heq (hne x xs)
  · have hlines : inLines [newline] 0 (x :: xs) ++ [] = inLines [newline] 0 (y :: ys) ++ [] := by
      rw [← newline_tokens, ← newline_tokens, heq]
    exact congrArg Program.mk
      (eq_of_lines (fun z hz => ⟨hp z hz, (hp z hz).recognized⟩) hq (by simp) (by simp) hlines).1

/-- Programs that were decoded are the same if they are printed as the same text, as long as their
    names are identifiers, their operators are known and they keep their parts apart. -/
theorem source_determines {root root' : Yaml.Node} {p q : Program} (hp : Program.ofNode root = .ok p)
    (hq : Program.ofNode root' = .ok q) (hpwords : p.Conventional) (hqwords : q.Conventional) (hplegible : p.Legible)
    (hqlegible : q.Legible) {text : String} (hptext : p.source = .ok text) (hqtext : q.source = .ok text) : p = q := by
  have hpwell := wellFormedAll_of_ofNode hp
  have hqwell := wellFormedAll_of_ofNode hq
  have hpclear := Program.clear hpwell hpwords hplegible
  have hqclear := Program.clear hqwell hqwords hqlegible
  have htokens : p.tokens = q.tokens := by
    refine (Program.separated_tokens hpclear).eq_of_spell (Program.separated_tokens hqclear) ?_
    rw [← Program.toList_source hpwell hptext, ← Program.toList_source hqwell hqtext]
  exact Program.eq_of_tokens hpclear hqclear htokens

/-- Conditionals, indices and operators stand next to each other in all the ways that keep them apart. -/
theorem source_determines_nested :
    let x := Expr.var "x"
    let body : List Expr :=
      [.cond (.binary ">" x (.literal (.number (-5)))) (.cond x (.ret .missing) (.exit x)) .missing,
        .setIndex (.index x (.literal (.number 0))) (.unary "-" (.literal (.number 0)))
          (.unary "--" (.unary "-" (.index x x))),
        .loop (.unary "len" (.array [x])) (.cond (.label "end") (.block [.cond x x .missing]) (.ret .missing)),
        .literal (.str (Bytes.ofString "\"\n"))]
    let p : Program := ⟨[.func ⟨"f", [⟨"x", .number⟩, ⟨"y", .array⟩], .void, true, false⟩ (.block body),
      .literal .void]⟩
    Program.ofNode (.sequence 1 (toNodes 1 p.body)) = .ok p ∧
      Program.ofNode (.sequence 7 (toNodes 7 p.body)) = .ok p ∧
      p.Conventional ∧ p.Legible ∧ (∃ text, p.source = .ok text) ∧ p = p := by
  intro x body p
  have hwell : WellFormedAll p.body := by
    simp [p, body, x, WellFormedAll, Expr.WellFormed, Header.WellFormed, Param.WellFormed, Literal.WellFormed, Ty.all,
      Expr.isMissing, Expr.isVoid, toString?_ofString]
  have hread := Program.ofNode_toNodes 1 hwell
  have hread' := Program.ofNode_toNodes 7 hwell
  have hwords : p.Conventional := ⟨by decide +kernel, by decide +kernel⟩
  have hlegible : p.Legible := by
    unfold Program.Legible
    decide +kernel
  have htext := Program.source_eq hwell
  exact ⟨hread, hread', hwords, hlegible, ⟨_, htext⟩,
    source_determines hread hread' hwords hwords hlegible hlegible htext htext⟩

/-- Pairs of expressions with the same text. -/
def rivals : List (Expr × Expr) :=
  let a := Expr.var "a"
  let b := Expr.var "b"
  let c := Expr.var "c"
  let d := Expr.var "d"
  [(.cond a (.cond b c .missing) d, .cond a (.cond b c d) .missing),
    (.index (.unary "!" a) b, .unary "!" (.index a b)),
    (.setIndex (.unary "!" a) b c, .unary "!" (.setIndex a b c)),
    (.unary "-" (.literal (.number 5)), .literal (.number (-5))),
    (.unary "-" (.unary "-" a), .unary "--" a),
    (.unary "len" a, .var "lena"),
    (.loop (.ret .missing) (.ret a), .loop (.ret (.ret .missing)) a)]

/-- Whatever keeps parts apart is needed: without it, two programs that were decoded and have proper
    names and known operators are printed as the same text. -/
theorem rivals_same_source : rivals.Forall fun r => ∃ p q : Program, p.body = [r.1] ∧ q.body = [r.2] ∧ p ≠ q ∧
    (∃ root, Program.ofNode root = .ok p) ∧ (∃ root, Program.ofNode root = .ok q) ∧ p.Conventional ∧
    q.Conventional ∧
      ∃ text, p.source = .ok text ∧ q.source = .ok text := by
  have hwell : ∀ r ∈ rivals, r.1.WellFormed ∧ r.2.WellFormed := by
    simp [rivals, Expr.WellFormed, Literal.WellFormed, Expr.isMissing, Expr.isVoid]
  have hne : ∀ r ∈ rivals, r.1 ≠ r.2 := by
    simp [rivals]
  have hnames : ∀ r ∈ rivals, ∀ n ∈ r.1.nodes ++ r.2.nodes, ∀ name ∈ n.ownNames,
      isIdentifier name = true := by
    decide +kernel
  have hoperators : ∀ r ∈ rivals, ∀ n ∈ r.1.nodes ++ r.2.nodes, n.hasKnownOperator = true := by
    decide +kernel
  have htext : ∀ r ∈ rivals, (r.1.tokens 0).flatMap spell = (r.2.tokens 0).flatMap spell := by
    decide +kernel
  have hsource : ∀ x : Expr, x.WellFormed → Program.source ⟨[x]⟩ = .ok ("\n".intercalate [x.text 0 ++ "\n"]) :=
    fun x hx => Program.source_eq (p := ⟨[x]⟩) ⟨hx, trivial⟩
  have hconventional : ∀ x : Expr, (∀ n ∈ x.nodes, ∀ name ∈ n.ownNames, isIdentifier name = true) →
      (∀ n ∈ x.nodes, n.hasKnownOperator = true) → Program.Conventional ⟨[x]⟩ := by
    intro x hnames hoperators
    exact ⟨by simpa using hnames, by simpa using hoperators⟩
  refine List.forall_iff_forall_mem.mpr fun r hr => ?_
  obtain ⟨hwell₁, hwell₂⟩ := hwell r hr
  have hnames := List.forall_mem_append.mp (hnames r hr)
  have hoperators := List.forall_mem_append.mp (hoperators r hr)
  refine ⟨⟨[r.1]⟩, ⟨[r.2]⟩, rfl, rfl, by simpa using hne r hr,
    ⟨_, Program.ofNode_toNodes 1 ⟨hwell₁, trivial⟩⟩,
    ⟨_, Program.ofNode_toNodes 1 ⟨hwell₂, trivial⟩⟩, hconventional _ hnames.1 hoperators.1,
    hconventional _ hnames.2 hoperators.2, _, hsource r.1 hwell₁, ?_⟩
  rw [hsource r.2 hwell₂, Expr.text, Expr.text, htext r hr]

end TreeCompiler.Tree

import TreeCompiler.Proofs.Tree.Declared
import TreeCompiler.Proofs.Tree.Meaning

/-!
When the names that are declared so far tell which variable a name stands for at run time. A declaration
that is passed over leaves its name to a variable of a scope around, and one that comes again in a loop is
there before it. Neither makes a difference where no such declaration hides a variable.
-/

namespace TreeCompiler.Tree

/-- Declaring names in the innermost scope hides no variable of the scopes around it. -/
def Names.spares (scopes : Names) (names : List String) : Bool :=
  names.all (· ∉ scopes.tail.flatten)

mutual

/-- No declaration that may be passed over or come again hides a variable, if the scopes around have
    some names in the end. -/
def Expr.steady : Expr → Names → Bool
  | .define _ _ value, scopes | .assign _ value, scopes | .unary _ value, scopes | .ret value, scopes
  | .exit value, scopes => value.steady scopes
  | .block body, scopes => steadyAll body (declaredAll body :: scopes)
  | .array elems, scopes | .call _ elems, scopes => steadyAll elems scopes
  | .binary op left right, scopes =>
    left.steady scopes && right.steady scopes &&
      (!(op = "&&" ∨ op = "||") || scopes.spares right.declared)
  | .cond test yes no, scopes =>
    test.steady scopes && yes.steady scopes && no.steady scopes &&
      scopes.spares (no.declared ++ yes.declared)
  | .loop test body, scopes =>
    test.steady scopes && body.steady scopes && scopes.spares (body.declared ++ test.declared)
  | .index target position, scopes => target.steady scopes && position.steady scopes
  | .setIndex target position value, scopes =>
    target.steady scopes && position.steady scopes && value.steady scopes
  | .missing, _ | .literal _, _ | .var _, _ | .func .., _ | .out _, _ | .input _, _ | .label _, _
  | .goto _, _ => true

/-- This is so for each of some expressions. -/
def steadyAll : List Expr → Names → Bool
  | [], _ => true
  | e :: rest, scopes => e.steady scopes && steadyAll rest scopes

end

/-- The body of each function is steady. -/
def Program.steady (p : Program) : Bool :=
  p.body.all fun
    | .func h body => body.steady [body.declared ++ (h.params.map (·.name)).reverse]
    | _ => true

theorem Names.spares_append {scopes : Names} {xs ys : List String} :
    scopes.spares (xs ++ ys) = true ↔ scopes.spares xs = true ∧ scopes.spares ys = true := by
  simp [spares]

section Branches

variable {test yes no left right : Expr} {scopes : Names}

theorem Expr.steady_binary {op : String} : (Expr.binary op left right).steady scopes = true ↔
    left.steady scopes = true ∧ right.steady scopes = true ∧
      (op = "&&" ∨ op = "||" → scopes.spares right.declared = true) := by
  rw [steady, Bool.and_eq_true, Bool.and_eq_true, Bool.or_eq_true, and_assoc]
  simp [Decidable.imp_iff_not_or]

theorem Expr.steady_cond : (Expr.cond test yes no).steady scopes = true ↔
    test.steady scopes = true ∧ yes.steady scopes = true ∧ no.steady scopes = true ∧
      scopes.spares no.declared = true ∧ scopes.spares yes.declared = true := by
  rw [steady, Bool.and_eq_true, Bool.and_eq_true, Bool.and_eq_true, Names.spares_append, and_assoc, and_assoc]

end Branches

theorem isSome_assignIn {frame : String → Option Word} {name x : String} {w : Word} :
    (assignIn frame name w x).isSome = true ↔ x = name ∨ (frame x).isSome = true := by
  rw [assignIn]
  split
  · next h => simp [h]
  · next h => simp [h]

namespace Env

/-- The variables of an environment are those that the names declared so far tell, if `full` has the
    names that each scope has in the end: a scope has variables of its own names only, and of the names
    of scopes around it exactly those that are declared in it so far. -/
def Matches : Names → Names → Env → Prop
  | [], [], [] => True
  | all :: full, scope :: names, frame :: ρ =>
    (∀ x, (frame x).isSome = true → x ∈ all) ∧
      (∀ x ∈ full.flatten, (frame x).isSome = true ↔ x ∈ scope) ∧ Matches full names ρ
  | _, _, _ => False

theorem isSome_get?_of_set? {name : String} {w : Word} : ∀ {ρ ρ' : Env}, ρ.set? name w = some ρ' →
    (ρ.get? name).isSome = true
  | [], _, hset => by cases hset
  | frame :: ρ, ρ', hset => by
    rw [set?] at hset
    rw [get?, Option.isSome_or, Bool.or_eq_true]
    split at hset
    · next htop => exact .inl htop
    · obtain ⟨ρ₁, hset, _⟩ := Option.map_eq_some_iff.mp hset
      exact .inr (isSome_get?_of_set? hset)

namespace Matches

variable {full names : Names} {all scope : List String} {frame : String → Option Word} {ρ ρ' : Env} {x : String}
  {w : Word}

theorem mem_of_get? : ∀ {full names : Names} {ρ : Env}, ρ.Matches full names →
    (ρ.get? x).isSome = true → x ∈ full.flatten
  | [], [], [], _, hget => by cases hget
  | all :: full, _ :: _, frame :: ρ, ⟨hown, _, hrest⟩, hget => by
    rw [get?, Option.isSome_or, Bool.or_eq_true] at hget
    rw [List.flatten_cons, List.mem_append]
    exact hget.imp (hown x) hrest.mem_of_get?

/-- The innermost scope has the variable of a name exactly if the name is declared in it, provided that
    the name is declared and some variable has it. -/
theorem top_iff (hmatches : Matches (all :: full) (scope :: names) (frame :: ρ))
    (hdeclared : x ∈ scope ∨ x ∈ full.flatten) (hget : (get? (frame :: ρ) x).isSome = true) :
    (frame x).isSome = true ↔ x ∈ scope := by
  obtain ⟨_, hhidden, hrest⟩ := hmatches
  by_cases hx : x ∈ full.flatten
  · exact hhidden x hx
  · rw [get?, Option.isSome_or, Bool.or_eq_true] at hget
    exact iff_of_true (hget.resolve_right (mt hrest.mem_of_get? hx)) (hdeclared.resolve_right hx)

/-- What is assigned to was there before. -/
theorem set? : ∀ {full names : Names} {ρ ρ' : Env}, ρ.Matches full names → ρ.set? x w = some ρ' →
    ρ'.Matches full names
  | [], [], [], _, _, hset => by cases hset
  | _ :: _, _ :: _, frame :: ρ, ρ', ⟨hown, hhidden, hrest⟩, hset => by
    rw [Env.set?] at hset
    split at hset
    · next htop =>
      have hsame : ∀ y, (assignIn frame x w y).isSome = true ↔ (frame y).isSome = true := by
        intro y
        rw [isSome_assignIn, or_iff_right_iff_imp]
        rintro rfl
        exact htop
      cases hset
      exact ⟨fun y hy => hown y ((hsame y).mp hy), fun y hy => (hsame y).trans (hhidden y hy), hrest⟩
    · obtain ⟨ρ₁, hset', rfl⟩ := Option.map_eq_some_iff.mp hset
      exact ⟨hown, hhidden, hrest.set? hset'⟩

/-- A variable is there when its name is declared. -/
theorem bind? (hmatches : ρ.Matches (all :: full) names) (hbind : ρ.bind? x w = some ρ') (hx : x ∈ all) :
    ρ'.Matches (all :: full) (names.with [x]) := by
  cases ρ with
  | nil => cases hbind
  | cons frame ρ =>
    cases names with
    | nil => exact hmatches.elim
    | cons scope names =>
      obtain ⟨hown, hhidden, hrest⟩ := hmatches
      cases hbind
      refine ⟨fun y hy => ?_, fun y hy => ?_, hrest⟩
      · rcases isSome_assignIn.mp hy with rfl | hy
        · exact hx
        · exact hown y hy
      · rw [isSome_assignIn, hhidden y hy]
        simp

/-- Names that hide nothing may be declared or not. -/
theorem with_iff {xs : List String} (hspares : full.spares xs = true) :
    ρ.Matches full (names.with xs) ↔ ρ.Matches full names := by
  cases names with
  | nil => rfl
  | cons scope names =>
    cases full with
    | nil => rfl
    | cons all full =>
      cases ρ with
      | nil => rfl
      | cons frame ρ =>
        have hsame : ∀ x ∈ full.flatten, x ∈ xs ++ scope ↔ x ∈ scope := by
          intro x hx
          have hfree : ∀ y ∈ xs, y ∉ full.flatten := by simpa [Names.spares] using hspares
          rw [List.mem_append, or_iff_right fun hxs => hfree x hxs hx]
        refine and_congr_right fun _ => and_congr_left fun _ => forall₂_congr fun x hx => ?_
        rw [hsame x hx]

theorem enter (hmatches : ρ.Matches full names) :
    Matches (all :: full) ([] :: names) ((fun _ => none) :: ρ) :=
  ⟨by simp, by simp, hmatches⟩

theorem tail (hmatches : ρ.Matches (all :: full) (scope :: names)) : Matches full names ρ.tail := by
  cases ρ with
  | nil => exact hmatches.elim
  | cons frame ρ => exact hmatches.2.2

end Matches

end Env

end TreeCompiler.Tree

import TreeCompiler.Proofs.Tree.Declared

/-!
Which variables have a value at each place of a function, whichever way its conditions turn out.
Expressions are followed in the order of evaluation.
-/

namespace TreeCompiler.Tree

/-- A variable in scope: how many scopes are around the one that declares it, and its name. -/
abbrev Local := Nat × String

/-- The variable that a name stands for. -/
def Names.resolve? : Names → String → Option Local
  | [], _ => none
  | scope :: outer, name => if name ∈ scope then some (outer.length, name) else resolve? outer name

/-- The variables that have a value at a place in any case. -/
abbrev Sure := Option (List Local)

namespace Sure

/-- The variable of a name has a value. -/
def has (s : Sure) (names : Names) (name : String) : Bool :=
  s.all fun given => (names.resolve? name).any (· ∈ given)

/-- The variable of a name is given a value. -/
def gain (s : Sure) (names : Names) (name : String) : Sure :=
  s.map ((names.resolve? name).toList ++ ·)

/-- What is known where a scope is opened: variables of scopes that were left are forgotten. -/
def inside (s : Sure) (names : Names) : Sure :=
  s.map (·.filter (·.1 < names.length))

/-- What is known where two ways come together. -/
def meet : Sure → Sure → Sure
  | none, s => s
  | some given, none => some given
  | some given, some given' => some (given.filter (· ∈ given'))

end Sure

mutual

/-- The variables that have a value behind an expression, if some have one before it. -/
def Expr.sure : Expr → Names → Sure → Sure
  | .define name _ value, names, s => (value.sure names s).gain ((names.with value.declared).with [name]) name
  | .assign name value, names, s => (value.sure names s).gain (names.with value.declared) name
  | .block body, names, s => sureAll body ([] :: names) (s.inside names)
  | .array elems, names, s => sureAll elems names s
  | .call _ args, names, s => sureAll args names s
  | .binary op left right, names, s =>
    if op = "&&" ∨ op = "||" then left.sure names s
    else right.sure (names.with left.declared) (left.sure names s)
  | .unary _ arg, names, s => arg.sure names s
  | .cond test yes no, names, s =>
    if no.isMissing then test.sure names s
    else (yes.sure (names.with test.declared) (test.sure names s)).meet
      (no.sure ((names.with test.declared).with yes.declared) (test.sure names s))
  | .loop test _, names, s => test.sure names s
  | .ret _, _, _ | .exit _, _, _ => none
  | .index target position, names, s => position.sure (names.with target.declared) (target.sure names s)
  | .setIndex target position value, names, s =>
    value.sure ((names.with target.declared).with position.declared)
      (position.sure (names.with target.declared) (target.sure names s))
  | .missing, _, s | .literal _, _, s | .var _, _, s | .func .., _, s | .out _, _, s | .input _, _, s
  | .label _, _, s | .goto _, _, s => s

/-- The variables that have a value behind expressions, one after another. -/
def sureAll : List Expr → Names → Sure → Sure
  | [], _, s => s
  | e :: rest, names, s => sureAll rest (names.with e.declared) (e.sure names s)

end

mutual

/-- Each variable that an expression reads has a value there in any case, if some have one before it. -/
def Expr.settled : Expr → Names → Sure → Bool
  | .var name, names, s => s.has names name
  | .define _ _ value, names, s | .assign _ value, names, s | .unary _ value, names, s | .ret value, names, s
  | .exit value, names, s => value.settled names s
  | .block body, names, s => settledAll body ([] :: names) (s.inside names)
  | .array elems, names, s | .call _ elems, names, s => settledAll elems names s
  | .binary _ left right, names, s | .loop left right, names, s | .index left right, names, s =>
    left.settled names s && right.settled (names.with left.declared) (left.sure names s)
  | .cond test yes no, names, s =>
    test.settled names s && yes.settled (names.with test.declared) (test.sure names s) &&
      no.settled ((names.with test.declared).with yes.declared) (test.sure names s)
  | .setIndex target position value, names, s =>
    target.settled names s && position.settled (names.with target.declared) (target.sure names s) &&
      value.settled ((names.with target.declared).with position.declared)
        (position.sure (names.with target.declared) (target.sure names s))
  | .missing, _, _ | .literal _, _, _ | .func .., _, _ | .out _, _, _ | .input _, _, _ | .label _, _, _
  | .goto _, _, _ => true

/-- Each variable that expressions read, one after another, has a value there in any case. -/
def settledAll : List Expr → Names → Sure → Bool
  | [], _, _ => true
  | e :: rest, names, s => e.settled names s && settledAll rest (names.with e.declared) (e.sure names s)

end

/-- Each variable that a function reads has a value there in any case. -/
def Header.settles (h : Header) (body : Expr) : Bool :=
  body.settled [(h.params.map (·.name)).reverse] (some (h.params.map fun p => (0, p.name)))

-- The equations of the two functions are generated here.
attribute [local simp] Expr.sure sureAll Expr.settled settledAll

theorem sureAll_singleton (e : Expr) (names : Names) (s : Sure) : sureAll [e] names s = e.sure names s := by
  simp

theorem settledAll_singleton (e : Expr) (names : Names) (s : Sure) :
    settledAll [e] names s = e.settled names s := by
  simp

theorem Expr.settled_of_isMissing {e : Expr} {names : Names} {s : Sure} (hmissing : e.isMissing = true) :
    e.settled names s = true := by
  cases e with
  | missing => rw [settled]
  | _ => cases hmissing

mutual

/-- Control does not come back from where it never comes. -/
theorem Expr.sure_none : (e : Expr) → (names : Names) → e.sure names none = none
  | .define _ _ value, names | .assign _ value, names => by simp [value.sure_none, Sure.gain]
  | .block body, names => by simp [Sure.inside, sureAll_none]
  | .array elems, names | .call _ elems, names => by simp [sureAll_none]
  | .binary _ left right, names => by simp [left.sure_none, right.sure_none]
  | .unary _ arg, names => by simp [arg.sure_none]
  | .cond test yes no, names => by simp [test.sure_none, yes.sure_none, no.sure_none, Sure.meet]
  | .loop test _, names => by simp [test.sure_none]
  | .index target position, names => by simp [target.sure_none, position.sure_none]
  | .setIndex target position value, names => by
    simp [target.sure_none, position.sure_none, value.sure_none]
  | .ret _, _ | .exit _, _ | .missing, _ | .literal _, _ | .var _, _ | .func .., _ | .out _, _ | .input _, _
  | .label _, _ | .goto _, _ => by simp

theorem sureAll_none : (es : List Expr) → (names : Names) → sureAll es names none = none
  | [], _ => by simp
  | e :: rest, names => by simp [e.sure_none, sureAll_none rest]

end

mutual

/-- Nothing is read where control never comes. -/
theorem Expr.settled_none : (e : Expr) → (names : Names) → e.settled names none = true
  | .var name, _ => by simp [Sure.has]
  | .define _ _ value, names | .assign _ value, names | .unary _ value, names | .ret value, names
  | .exit value, names => by simp [value.settled_none]
  | .block body, names => by simp [Sure.inside, settledAll_none]
  | .array elems, names | .call _ elems, names => by simp [settledAll_none]
  | .binary _ left right, names | .loop left right, names | .index left right, names => by
    simp [left.settled_none, right.settled_none, left.sure_none]
  | .cond test yes no, names => by simp [test.settled_none, yes.settled_none, no.settled_none, test.sure_none]
  | .setIndex target position value, names => by
    simp [target.settled_none, position.settled_none, value.settled_none, target.sure_none, position.sure_none]
  | .missing, _ | .literal _, _ | .func .., _ | .out _, _ | .input _, _ | .label _, _ | .goto _, _ => by simp

theorem settledAll_none : (es : List Expr) → (names : Names) → settledAll es names none = true
  | [], _ => by simp
  | e :: rest, names => by simp [e.settled_none, settledAll_none rest, e.sure_none]

end

end TreeCompiler.Tree

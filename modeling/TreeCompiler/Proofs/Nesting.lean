import Mathlib.Data.List.Infix
import TreeCompiler.Proofs.Outcome
import TreeCompiler.Proofs.Scope

/-!
What happens in a scope stays in it: whatever is asked for between entering a scope and leaving
it, names mean afterwards what they meant before.
-/

namespace TreeCompiler.ScopeTable

/-- What can be asked of a table of scopes. -/
inductive Action where
  | enter
  | leave
  | declare (name : String) (ty : Code.Ty)
  | lookup (name : String)
  deriving DecidableEq, Repr

/-- An action on the current table. A refusal, too, comes with the table that it leaves behind. -/
def perform : Action → EStateM Error ScopeTable Unit
  | .enter => modify enter
  | .leave => do
    let t ← ofExcept (← get).leave
    set t
  | .declare name ty => do
    let (_, t) ← ofExcept ((← get).declare name ty)
    set t
  | .lookup name => do
    let _ ← ofExcept ((← get).lookup name)

/-- The table behind an action, refused or not. -/
def after (t : ScopeTable) (a : Action) : ScopeTable :=
  match perform a t with
  | .ok _ t' => t'
  | .error _ t' => t'

/-- The table behind a sequence of actions. -/
def run (t : ScopeTable) (as : List Action) : ScopeTable :=
  as.foldl after t

variable {t t' : ScopeTable} {a : Action} {as : List Action} {outer : List (List Symbol)}

@[simp] theorem run_cons : t.run (a :: as) = (t.after a).run as := rfl

theorem run_append {bs : List Action} : t.run (as ++ bs) = (t.run as).run bs :=
  List.foldl_append

/-- Two tables cannot be told apart by what names mean in them: they are equally deep, names have
    the same symbols or are equally undefined, and the same declarations are refused. -/
structure Alike (t t' : ScopeTable) : Prop where
  depth : t'.depth = t.depth
  lookup : ∀ name, t'.lookup name = t.lookup name
  lookupType : ∀ name, t'.lookupType name = t.lookupType name
  refused : ∀ name ty e, t'.declare name ty = .error e ↔ t.declare name ty = .error e

/-- What names mean depends on the scopes alone, not on the storage that is taken. -/
theorem Alike.of_scopes (hscopes : t'.scopes = t.scopes) : t.Alike t' := by
  have hlookup : ∀ name, t'.lookup name = t.lookup name := fun name => by
    unfold ScopeTable.lookup
    rw [hscopes]
  refine ⟨congrArg List.length hscopes, hlookup, fun name => ?_, fun name ty e => ?_⟩
  · unfold ScopeTable.lookupType
    rw [hlookup]
  · unfold declare
    rw [hscopes]
    cases t.scopes with
    | nil => exact Iff.rfl
    | cons scope outer =>
      dsimp only
      split
      · exact Iff.rfl
      · exact iff_of_false (by rintro ⟨⟩) (by rintro ⟨⟩)

theorem perform_leave : perform .leave t = match t.leave with
    | .ok t' => .ok () t'
    | .error e => .error e t := by
  change (ofExcept t.leave >>= set : EStateM _ _ _) t = _
  cases t.leave <;> rfl

theorem perform_declare {name : String} {ty : Code.Ty} :
    perform (.declare name ty) t = match t.declare name ty with
      | .ok r => .ok () r.2
      | .error e => .error e t := by
  change (ofExcept (t.declare name ty) >>= fun r => set r.2 : EStateM _ _ _) t = _
  cases t.declare name ty <;> rfl

theorem perform_lookup {name : String} : perform (.lookup name) t = match t.lookup name with
    | .ok _ => .ok () t
    | .error e => .error e t := by
  change (ofExcept (t.lookup name) >>= fun _ => pure () : EStateM _ _ _) t = _
  cases t.lookup name <;> rfl

/-- A refused action leaves the table as it was. -/
theorem eq_of_refused {e : Error} (hrefused : perform a t = .error e t') : t' = t := by
  cases a with
  | enter => cases hrefused
  | leave =>
    rw [perform_leave] at hrefused
    split at hrefused <;> cases hrefused
    rfl
  | declare name ty =>
    rw [perform_declare] at hrefused
    split at hrefused <;> cases hrefused
    rfl
  | lookup name =>
    rw [perform_lookup] at hrefused
    split at hrefused <;> cases hrefused
    rfl

theorem after_of_refused {e : Error} (hrefused : perform a t = .error e t') : t.after a = t := by
  unfold after
  rw [hrefused]
  exact eq_of_refused hrefused

/-- What one action does to the scopes: it opens one, closes the innermost one, adds a symbol to
    the innermost one, or does nothing. -/
theorem scopes_after (t : ScopeTable) (a : Action) :
    (t.after a).scopes = [] :: t.scopes ∨
      (∃ scope, t.scopes = scope :: (t.after a).scopes) ∨
        (∃ scope outer symbol, t.scopes = scope :: outer ∧
          (t.after a).scopes = (symbol :: scope) :: outer) ∨
          (t.after a).scopes = t.scopes := by
  unfold after
  cases a with
  | enter => exact .inl rfl
  | leave =>
    rw [perform_leave]
    cases hleave : t.leave with
    | error e => exact .inr (.inr (.inr rfl))
    | ok t' =>
      obtain ⟨scope, outer, hscopes, rfl⟩ := leave_ok hleave
      exact .inr (.inl ⟨scope, hscopes⟩)
  | declare name ty =>
    rw [perform_declare]
    cases hdeclare : t.declare name ty with
    | error e => exact .inr (.inr (.inr rfl))
    | ok r =>
      obtain ⟨scope, outer, hscopes, _, _, hresult⟩ := declare_ok hdeclare
      exact .inr (.inr (.inl ⟨scope, outer, _, hscopes, congrArg ScopeTable.scopes hresult⟩))
  | lookup name =>
    rw [perform_lookup]
    cases t.lookup name <;> exact .inr (.inr (.inr rfl))

/-- An action that begins and ends inside a scope leaves what is outside of it as it was. -/
theorem suffix_after (houter : outer <:+ t.scopes) (hinside : outer.length < t.depth)
    (hstays : outer.length < (t.after a).depth) : outer <:+ (t.after a).scopes := by
  rcases scopes_after t a with h | ⟨scope, h⟩ | ⟨scope, rest, symbol, hscopes, h⟩ | h
  · rw [h]
    exact houter.trans (List.suffix_cons _ _)
  · -- The scope that is closed is not one of those outside, which are fewer.
    rw [h, List.suffix_cons_iff] at houter
    rcases houter with heq | hsuffix
    · have hlength := congrArg List.length heq
      rw [List.length_cons] at hlength
      have hdepth : (t.after a).depth = (t.after a).scopes.length := rfl
      omega
    · exact hsuffix
  · have hdepth : t.depth = rest.length + 1 := congrArg List.length hscopes
    rw [hscopes, List.suffix_cons_iff] at houter
    rw [h]
    rcases houter with heq | hsuffix
    · have hlength := congrArg List.length heq
      rw [List.length_cons] at hlength
      omega
    · exact hsuffix.trans (List.suffix_cons _ _)
  · rw [h]
    exact houter

/-- So does a sequence of actions that stays inside the scope. -/
theorem suffix_run (houter : outer <:+ t.scopes)
    (hstays : ∀ before, before <+: as → outer.length < (t.run before).depth) :
    outer <:+ (t.run as).scopes := by
  induction as generalizing t with
  | nil => exact houter
  | cons a as ih =>
    have hinside := hstays [] List.nil_prefix
    have hnext := hstays [a] ⟨as, rfl⟩
    refine ih (suffix_after houter hinside hnext) fun before hbefore => ?_
    exact hstays (a :: before) (List.cons_prefix_cons.mpr ⟨rfl, hbefore⟩)

theorem leave_of_suffix {t : ScopeTable} (houter : outer <:+ t.scopes)
    (hdepth : t.depth = outer.length + 1) : (t.after .leave).scopes = outer := by
  obtain ⟨inner, hinner⟩ := houter
  have hlength : inner.length = 1 := by
    have hscopes := congrArg List.length hinner
    rw [List.length_append] at hscopes
    have : t.depth = t.scopes.length := rfl
    omega
  obtain ⟨scope, rfl⟩ := List.length_eq_one_iff.mp hlength
  rw [after, perform_leave, leave, ← hinner]
  rfl

/-- A refused action may as well be left out. -/
theorem run_of_refused {bs : List Action} {e : Error}
    (hrefused : perform a (t.run as) = .error e t') : t.run (as ++ a :: bs) = t.run (as ++ bs) := by
  rw [run_append, run_cons, after_of_refused hrefused, run_append]

/-- Nothing that is done in a scope shows behind it, whatever it was and whether it was refused or
    not: from entering the scope to the matching leave, names come to mean what they meant before,
    and the same declarations are refused. -/
theorem alike_after_scope (t : ScopeTable) :
    (∀ inner : List Action,
      (∀ before, before <+: inner → t.depth < (t.run (.enter :: before)).depth) →
        (t.run (.enter :: inner)).depth = t.depth + 1 →
          t.Alike (t.run (.enter :: inner ++ [.leave]))) ∧
      ∀ as a e t', perform a (t.run as) = .error e t' →
        t' = t.run as ∧ ∀ bs, t.run (as ++ a :: bs) = t.run (as ++ bs) := by
  refine ⟨?_, fun as a e t' hrefused => ⟨eq_of_refused hrefused, fun bs => run_of_refused hrefused⟩⟩
  intro inner hstays hmatching
  apply Alike.of_scopes
  have houter : t.scopes <:+ (t.run (.enter :: inner)).scopes :=
    suffix_run (t := t.after .enter) (List.suffix_cons _ _) hstays
  rw [run_append]
  exact leave_of_suffix houter hmatching

/-- A scope inside two others, in which a name of each of them is bound again, one of them twice
    with the second time refused, and an unknown name is looked up. -/
theorem alike_after_shadowing :
    let t : ScopeTable := run {} [.enter, .declare "x" .number, .enter, .declare "y" .bool]
    let inner : List Action := [.declare "x" .str, .declare "x" .number, .lookup "z", .enter,
      .declare "y" .array, .leave, .lookup "y"]
    (∀ before, before <+: inner → t.depth < (t.run (.enter :: before)).depth) ∧
      (t.run (.enter :: inner)).depth = t.depth + 1 ∧ t.run (.enter :: inner ++ [.leave]) ≠ t ∧
        t.Alike (t.run (.enter :: inner ++ [.leave])) ∧
          let t' := t.run (.enter :: inner.take 1)
          perform (.declare "x" .number) t' = .error (.duplicate "x") t' ∧
            t.run (.enter :: inner) = t.run (.enter :: inner.eraseIdx 1) := by
  intro t inner
  have hstays : ∀ before, before <+: inner → t.depth < (t.run (.enter :: before)).depth := by
    intro before hbefore
    have hall : ∀ before ∈ inner.inits, t.depth < (t.run (.enter :: before)).depth := by
      decide +kernel
    exact hall before ((List.mem_inits _ _).mpr hbefore)
  have hmatching : (t.run (.enter :: inner)).depth = t.depth + 1 := by
    decide +kernel
  have hrefused : perform (.declare "x" .number) (t.run (.enter :: inner.take 1)) =
      .error (.duplicate "x") (t.run (.enter :: inner.take 1)) := rfl
  refine ⟨hstays, hmatching, ?_, (alike_after_scope t).1 inner hstays hmatching, hrefused,
    ((alike_after_scope t).2 _ _ _ _ hrefused).2 (inner.drop 2)⟩
  decide +kernel

end TreeCompiler.ScopeTable

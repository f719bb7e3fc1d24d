import TreeCompiler.Lower.Program
import TreeCompiler.Proofs.Outcome
import TreeCompiler.Proofs.Scope

namespace TreeCompiler.Lower

open Code

namespace LowerM

variable {α β : Type} {c c' : Context}

variable {m : LowerM α} {r : α × Context} {ty : Code.Ty} {name : String} {u : Unit}

theorem bind_eq_ok_iff {f : α → LowerM β} {r : β × Context} :
    (m >>= f) c = .ok r ↔ ∃ a c₁, m c = .ok (a, c₁) ∧ f a c₁ = .ok r :=
  state_bind_eq_ok_iff

theorem pure_eq_ok_iff {a b : α} : (pure a : LowerM α) c = .ok (b, c') ↔ a = b ∧ c = c' :=
  state_pure_eq_ok_iff

theorem get_eq_ok_iff {a : Context} : (get : LowerM Context) c = .ok (a, c') ↔ c = a ∧ c = c' :=
  state_get_eq_ok_iff

theorem within_eq_ok_iff {place : Place} :
    within place m c = .ok r ↔ m c = .ok r :=
  mapError_eq_ok_iff

theorem fail_ne_ok (c : Context) {cause : Cause} (h : fail cause c = .ok r) : False := by
  simp [fail] at h

theorem temp_eq_ok_iff {t : Temp} :
    temp ty c = .ok (t, c') ↔ t = ⟨c.temps, ty⟩ ∧ c' = { c with temps := c.temps + 1 } := by
  simp [temp, Context.freshTemp, eq_comm]

theorem label_eq_ok_iff :
    label c = .ok (name, c') ↔ name = "L" ++ toString c.labels ∧ c' = { c with labels := c.labels + 1 } := by
  simp [label, Context.freshLabel, eq_comm]

theorem emit_eq_ok_iff {op : Op} {dst src1 src2 : Option Operand} :
    emit op dst src1 src2 c = .ok (u, c') ↔ c' = { c with code := c.code.push ⟨op, dst, src1, src2⟩ } := by
  simp [emit, Context.emit, eq_comm]

theorem pool_eq_ok_iff {k : Const} :
    pool k c = .ok (u, c') ↔ c' = { c with pool := c.pool.push k } := by
  simp [pool, eq_comm]

theorem enter_eq_ok_iff : enter c = .ok (u, c') ↔ c' = { c with scopes := c.scopes.enter } := by
  simp [enter, eq_comm]

theorem leave_eq_ok_iff :
    leave c = .ok (u, c') ↔ ∃ scopes, c.scopes.leave = .ok scopes ∧ c' = { c with scopes } := by
  unfold leave
  cases c.scopes.leave <;> simp [eq_comm]

theorem declare_eq_ok_iff {storage : String} :
    declare name ty c = .ok (storage, c') ↔
      ∃ scopes, c.scopes.declare name ty = .ok (storage, scopes) ∧ c' = { c with scopes } := by
  unfold declare
  cases c.scopes.declare name ty with
  | error e => simp
  | ok r =>
    obtain ⟨storage', scopes⟩ := r
    simp only [Except.ok.injEq, Prod.mk.injEq]
    constructor
    · rintro ⟨rfl, rfl⟩
      exact ⟨scopes, ⟨rfl, rfl⟩, rfl⟩
    · rintro ⟨_, ⟨rfl, rfl⟩, rfl⟩
      exact ⟨rfl, rfl⟩

theorem lookup_eq_ok_iff {symbol : Symbol} :
    lookup name c = .ok (symbol, c') ↔ c.scopes.lookup name = .ok symbol ∧ c' = c := by
  unfold lookup
  cases c.scopes.lookup name <;> simp [eq_comm]

end LowerM

/-- The instructions that hand over the values of temporaries, counted from `index`. -/
def argInstrs (index : Nat) : List Temp → List Instr
  | [] => []
  | t :: ts =>
    ⟨.arg, none, some (.temp t), some (.const (.int (Int64.ofNat index)))⟩ :: argInstrs (index + 1) ts

variable {c c' : Context} {err : Error}

theorem emitArgs_eq_ok_iff {index : Nat} {ts : List Temp} {u : Unit} :
    emitArgs index ts c = .ok (u, c') ↔ c' = { c with code := c.code ++ argInstrs index ts } := by
  induction ts generalizing index c with
  | nil =>
    rw [emitArgs, LowerM.pure_eq_ok_iff]
    simp [argInstrs, eq_comm]
  | cons t ts ih =>
    simp only [emitArgs, LowerM.bind_eq_ok_iff, LowerM.emit_eq_ok_iff, ih, argInstrs]
    constructor
    · rintro ⟨_, _, rfl, rfl⟩
      simp
    · rintro rfl
      exact ⟨(), _, rfl, by simp⟩

theorem lowerParams_cons_ok {p : Tree.Param} {ps : List Tree.Param} {qs : List Code.Param}
    (hlower : lowerParams (p :: ps) c = .ok (qs, c')) :
    ∃ storage scopes rest, c.scopes.declare p.name (lowerTy p.ty) = .ok (storage, scopes) ∧
      lowerParams ps { c with scopes } = .ok (rest, c') ∧ qs = ⟨some (.var storage), lowerTy p.ty⟩ :: rest := by
  simp only [lowerParams, LowerM.bind_eq_ok_iff, LowerM.within_eq_ok_iff, LowerM.declare_eq_ok_iff,
    LowerM.pure_eq_ok_iff] at hlower
  obtain ⟨storage, _, ⟨scopes, hdeclare, rfl⟩, rest, _, hrest, rfl, rfl⟩ := hlower
  exact ⟨storage, scopes, rest, hdeclare, hrest, rfl⟩

/-- Signatures are refused for a function that is declared twice only. -/
theorem collect_error {es : List Tree.Expr} {sigs : Signatures} (hcollect : collect sigs es = .error err) :
    ∃ name, err = .bare (.duplicateFunc name) := by
  induction es generalizing sigs with
  | nil => cases hcollect
  | cons e es ih =>
    cases e with
    | func h body =>
      rw [collect] at hcollect
      split at hcollect
      · cases hcollect
        exact ⟨h.name, rfl⟩
      · exact ih hcollect
    | _ => exact ih hcollect

namespace Session

variable {s s' : Session} {index : Nat} {es : List Tree.Expr} {err : Error}

theorem items_cons_ok {e : Tree.Expr} (hitems : s.items index (e :: es) = (.ok (), s')) :
    ∃ s₁, s.item index e = .ok s₁ ∧ s₁.items (index + 1) es = (.ok (), s') := by
  rw [items] at hitems
  split at hitems
  · next s₁ hitem => exact ⟨s₁, hitem, hitems⟩
  · cases hitems

/-- Items fail where one of them does. -/
theorem items_error (hitems : s.items index es = (.error err, s')) :
    ∃ s₁ i, ∃ e ∈ es, Session.item s₁ i e = .error err := by
  induction es generalizing s index with
  | nil => cases hitems
  | cons e es ih =>
    rw [items] at hitems
    split at hitems
    · obtain ⟨s₁, i, e', he', hitem⟩ := ih hitems
      exact ⟨s₁, i, e', List.mem_cons_of_mem e he', hitem⟩
    · next hitem =>
      cases hitems
      exact ⟨_, index, e, List.mem_cons_self, hitem⟩

end Session

variable {prog : Tree.Program}

/-- A program is lowered by collecting its signatures and lowering its items with them. -/
theorem lowerProgram_eq_ok_iff {p : Code.Program} : lowerProgram prog = .ok p ↔
    ∃ sigs s, collect [] prog.body = .ok sigs ∧ Session.items { sigs } 0 prog.body = (.ok (), s) ∧
      p = ⟨s.pool.toList, s.funcs.toList⟩ := by
  constructor
  · intro hlower
    unfold lowerProgram Session.compile at hlower
    split at hlower
    · cases hlower
    · next sigs hcollect =>
      split at hlower
      · cases hlower
      · next s hitems =>
        cases hlower
        exact ⟨sigs, s, hcollect, hitems, rfl⟩
  · rintro ⟨sigs, s, hcollect, hitems, rfl⟩
    simp only [lowerProgram, Session.compile, hcollect, hitems]

theorem lowerProgram_error (hlower : lowerProgram prog = .error err) :
    (∃ name, err = .bare (.duplicateFunc name)) ∨
    ∃ s i, ∃ e ∈ prog.body, Session.item s i e = .error err := by
  unfold lowerProgram Session.compile at hlower
  split at hlower
  · next hcollect =>
    cases hlower
    exact .inl (collect_error hcollect)
  · split at hlower
    · next hitems =>
      cases hlower
      exact .inr (Session.items_error hitems)
    · cases hlower

end TreeCompiler.Lower

import TreeCompiler.Proofs.Code.WellFormed
import TreeCompiler.Proofs.Lower.Derivation

namespace TreeCompiler.Lower

open Code
open TreeCompiler.Tree (Expr)

/-- The number of parameters of a declared function. -/
def Signatures.arity (sigs : Signatures) (name : String) : Option Nat :=
  (sigs.lookup name).map (·.params.length)

theorem proper_label (k : Nat) : Operand.Proper (.label ("L" ++ k.repr)) := by
  refine ⟨fun heq => ?_, fun heq => ?_⟩ <;>
  · have hlist := congrArg String.toList heq
    simp [String.toList_append] at hlist

theorem proper_userLabel (name : String) : (userLabel name).Proper := by
  refine ⟨fun heq => ?_, fun heq => ?_⟩ <;>
  · have hlist := congrArg String.toList heq
    simp [String.toList_append] at hlist

theorem proper_temp {t : Temp} : Operand.Proper (.temp t) ↔ 0 ≤ t.id := Iff.rfl

theorem proper_name (name : String) : Operand.Proper (.var name) ∧
    Operand.Proper (.func name) := ⟨trivial, trivial⟩

theorem proper_int (v : Int64) : Operand.Proper (.const (.int v)) := by
  simp [Operand.Proper]

theorem proper_const? {l : Tree.Literal} {k : Const} (hconst : const? l = some k) : Operand.Proper (.const k) := by
  cases l <;> cases hconst <;> simp [Operand.Proper]

theorem argsFit_argInstrs {arity : String → Option Nat} {ts : List Temp} {index : Nat} {xs : List Instr}
    (hfit : ArgsFit arity (index + ts.length) xs) : ArgsFit arity index (argInstrs index ts ++ xs) := by
  induction ts generalizing index with
  | nil => exact hfit
  | cons t ts ih =>
    simp only [argInstrs, List.cons_append, ArgsFit]
    refine ⟨by simp [Operand.isLength], ih ?_⟩
    rw [List.length_cons] at hfit
    rw [show index + 1 + ts.length = index + (ts.length + 1) by omega]
    exact hfit

theorem proper_argInstrs {ts : List Temp} {index : Nat} (hts : ∀ t ∈ ts, 0 ≤ t.id) :
    ∀ x ∈ argInstrs index ts, ∀ o, some o ∈ x.operands → o.Proper := by
  induction ts generalizing index with
  | nil => simp [argInstrs]
  | cons t ts ih =>
    intro x hx
    rcases List.mem_cons.mp hx with rfl | hx
    · have ht := hts t (by simp)
      simp [Code.Instr.operands, Operand.Proper, ht]
    · exact ih (fun t' ht' => hts t' (by simp [ht'])) x hx

theorem passesArgs_binaryOp? {op : String} {code : Op} (hop : binaryOp? op = some code) :
    code.passesArgs = false := by
  rcases cases_of_binaryOp? hop with ⟨_, rfl⟩ | ⟨_, rfl⟩ <;> rfl

/-- A context comes from another one by adding a fragment to the code. -/
def Context.Adds (arity : String → Option Nat) (c c' : Context) : Prop :=
  ∃ added, c'.code.toList = c.code.toList ++ added ∧ Fragment arity added

namespace Context.Adds

variable {arity : String → Option Nat} {c c' c'' : Context} {m n : Nat} {xs : List Instr}

theorem trans (hadds : c.Adds arity c') (hadds' : c'.Adds arity c'') : c.Adds arity c'' := by
  obtain ⟨xs, hxs, hfrag⟩ := hadds
  obtain ⟨ys, hys, hfrag'⟩ := hadds'
  exact ⟨xs ++ ys, by rw [hys, hxs, List.append_assoc], hfrag.append hfrag'⟩

theorem of_code (hcode : c'.code = c.code) : c.Adds arity c' :=
  ⟨[], by simp [hcode], .nil⟩

/-- Instructions that neither hand over nor take values. -/
theorem add (hxs : ∀ x ∈ xs, x.op.passesArgs = false ∧ ∀ o, some o ∈ x.operands → o.Proper) :
    c.Adds arity (c.add m n xs) := by
  refine ⟨xs, c.toList_add_code m n xs, ?_⟩
  induction xs with
  | nil => exact .nil
  | cons x xs ih =>
    obtain ⟨hop, hproper⟩ := hxs x (by simp)
    exact (Fragment.singleton hop hproper).append (ih fun y hy => hxs y (by simp [hy]))

/-- Values that are handed over to a call or an array, and the instruction that takes them. -/
theorem addArgs {ts : List Temp} {x : Instr} (hts : ∀ t ∈ ts, 0 ≤ t.id) (htake : ArgsFit arity ts.length [x])
    (hproper : ∀ o, some o ∈ x.operands → o.Proper) : c.Adds arity (c.add m n (argInstrs 0 ts ++ [x])) := by
  refine ⟨_, c.toList_add_code m n _, argsFit_argInstrs (by simpa using htake), fun y hy => ?_⟩
  rcases List.mem_append.mp hy with hy | hy
  · exact proper_argInstrs hts y hy
  · exact List.mem_singleton.mp hy ▸ hproper

end Context.Adds

variable {sigs : Signatures} {e : Expr} {es : List Expr} {c c' : Context} {t : Temp} {ts : List Temp}

attribute [local simp] Instr.operands proper_temp proper_name proper_int proper_label proper_userLabel truthInstr
    Op.passesArgs

/-- Behind its operands, an expression adds a fragment, and its value is in a proper temporary. -/
theorem Finishes.adds (hfinish : Finishes sigs e es ts c t c') (hlength : ts.length = es.length)
    (hts : ∀ t ∈ ts, 0 ≤ t.id) : c.Adds sigs.arity c' ∧ 0 ≤ t.id := by
  refine ⟨?_, by cases hfinish <;> exact Int.natCast_nonneg _⟩
  cases hfinish with
  | void => exact .of_code (by simp [Context.add])
  | constant k hconst =>
    have hadds : c.Adds sigs.arity (c.add 1 0 [moveInstr ⟨c.temps, k.ty⟩ (.const k)]) :=
      .add (by simpa using proper_const? hconst)
    exact hadds
  | define v storage scopes _ =>
    have hadds : c.Adds sigs.arity (c.add 1 0 [⟨.store, some (.var storage), some (.temp v), none⟩]) :=
      .add (by simpa using hts)
    exact hadds
  | array => exact .addArgs hts ⟨by simp [Operand.isLength], rfl⟩ (by simp)
  | call h hheader hcount =>
    refine .addArgs hts ⟨by simp [Operand.isLength], ⟨_, rfl, ?_⟩, rfl⟩ (by simp)
    rw [Signatures.arity, hheader, Option.map_some, hlength, hcount]
  | binary _ _ _ _ hcode => exact .add (by simpa [-Op.passesArgs, passesArgs_binaryOp? hcode] using hts)
  | var _ _ | retNothing _ | exitNothing _ | label | goto => exact .add (by simp)
  | _ => exact .add (by simpa using hts)

/-- The code of expressions is a fragment, and their values are in proper temporaries. -/
theorem Lowered.adds (hlowered : Lowered sigs es c ts c') :
    ts.length = es.length ∧ (∀ t ∈ ts, 0 ≤ t.id) ∧ c.Adds sigs.arity c' := by
  induction hlowered with
  | nil => exact ⟨rfl, by simp, .of_code rfl⟩
  | cons _ _ ihfirst ihrest =>
    obtain ⟨_, hid, hfirst⟩ := ihfirst
    obtain ⟨hlength, hids, hrest⟩ := ihrest
    refine ⟨by simpa using hlength, fun t ht => ?_, hfirst.trans hrest⟩
    rcases List.mem_cons.mp ht with rfl | ht
    · exact hid t (by simp)
    · exact hids t ht
  | strict _ _ _ _ hfinish ih =>
    obtain ⟨hlength, hids, hoperands⟩ := ih
    obtain ⟨hadds, hid⟩ := hfinish.adds hlength hids
    exact ⟨rfl, by simpa using hid, hoperands.trans hadds⟩
  | block _ _ _ _ _ _ _ hlast ih =>
    obtain ⟨_, hids, hbody⟩ := ih
    refine ⟨rfl, List.forall_mem_singleton.mpr ?_, hbody.trans (.of_code (by simp [Context.add]))⟩
    rcases hlast with ⟨_, hlast⟩ | ⟨_, _, rfl⟩
    · exact hids _ (List.mem_of_getLast? hlast)
    · exact Int.natCast_nonneg _
  | @shortCircuit op _ _ l r c c₁ c₂ n _ _ _ _ ihleft ihright =>
    obtain ⟨_, hl, hleft⟩ := ihleft
    obtain ⟨_, hr, hright⟩ := ihright
    have hstart : c.Adds sigs.arity (c.add 1 1 []) := .add (by simp)
    have hdecide : c₁.Adds sigs.arity (c₁.add 0 n
        (decisionInstrs op ⟨c.temps, .bool⟩ l c.labels c₁.labels)) := by
      refine .add ?_
      unfold decisionInstrs Lower.shortCircuit
      split <;> simpa using hl
    exact ⟨rfl, by simp, (((hstart.trans hleft).trans hdecide).trans hright).trans
      (.add (by simpa using hr))⟩
  | when b y c c₁ c₂ _ _ _ ihtest ihyes =>
    obtain ⟨_, hb, htest⟩ := ihtest
    obtain ⟨_, _, hyes⟩ := ihyes
    exact ⟨rfl, by simp, ((htest.trans (.add (by simpa using hb))).trans hyes).trans (.add (by simp))⟩
  | cond b y z c c₁ c₂ c₃ _ _ _ _ ihtest ihyes ihother =>
    obtain ⟨_, hb, htest⟩ := ihtest
    obtain ⟨_, hy, hyes⟩ := ihyes
    obtain ⟨_, hz, hother⟩ := ihother
    exact ⟨rfl, by simp, ((((htest.trans (.add (by simpa using hb))).trans hyes).trans
      (.add (by simpa using hy))).trans hother).trans (.add (by simpa using hz))⟩
  | loop b r c c₁ c₂ _ _ ihtest ihbody =>
    obtain ⟨_, hb, htest⟩ := ihtest
    obtain ⟨_, _, hbody⟩ := ihbody
    have hstart : c.Adds sigs.arity (c.add 0 2 [labelInstr c.labels]) := .add (by simp)
    exact ⟨rfl, by simp, (((hstart.trans htest).trans (.add (by simpa using hb))).trans hbody).trans
      (.add (by simp))⟩

end TreeCompiler.Lower

import Mathlib.Algebra.Order.Group.Multiset
import Mathlib.Tactic.Abel
import TreeCompiler.Proofs.Code.Validity
import TreeCompiler.Proofs.Lower.Derivation

namespace TreeCompiler.Lower

open Code
open TreeCompiler.Tree (Expr nodesAll nodesAll_singleton)

/-- Generated labels, by their numbers. -/
def generated (lo hi : Nat) : Multiset String :=
  ((List.range' lo (hi - lo)).map fun k => "L" ++ toString k : List String)

theorem generated_self (lo : Nat) : generated lo lo = 0 := by
  simp [generated]

theorem generated_succ (lo : Nat) : generated lo (lo + 1) = {"L" ++ toString lo} := by
  simp [generated]

variable {lo hi : Nat} {name op : String}

theorem generated_add {mid : Nat} (hlo : lo ≤ mid) (hhi : mid ≤ hi) :
    generated lo mid + generated mid hi = generated lo hi := by
  obtain ⟨m, rfl⟩ := Nat.exists_eq_add_of_le hlo
  obtain ⟨n, rfl⟩ := Nat.exists_eq_add_of_le hhi
  have hn : lo + m + n - (lo + m) = n := by omega
  have hmn : lo + m + n - lo = m + n := by omega
  simp only [generated, Nat.add_sub_cancel_left, hn, hmn, Multiset.coe_add, ← List.map_append,
    List.range'_append_1]

theorem generated_of_lt (hlt : lo < hi) :
    generated lo hi = {"L" ++ toString lo} + generated (lo + 1) hi := by
  rw [← generated_succ, generated_add (Nat.le_succ lo) hlt]

theorem mem_generated :
    name ∈ generated lo hi ↔ ∃ k, lo ≤ k ∧ k < hi ∧ name = "L" ++ toString k := by
  simp only [generated, Multiset.mem_coe, List.mem_map, List.mem_range'_1]
  constructor
  · rintro ⟨k, hk, rfl⟩
    exact ⟨k, hk.1, by omega, rfl⟩
  · rintro ⟨k, hlo, hhi, rfl⟩
    exact ⟨k, ⟨hlo, by omega⟩, rfl⟩

theorem nodup_generated (lo hi : Nat) : (generated lo hi).Nodup := by
  rw [generated, Multiset.coe_nodup]
  refine List.Nodup.map (fun k k' heq => ?_) List.nodup_range'
  exact numeral_inj ((String.append_right_inj _).mp heq)

/-- The labels in the code for labels of the program. -/
def userNames (names : List String) : List String :=
  names.map ("user." ++ ·)

theorem userNames_append (names names' : List String) :
    userNames (names ++ names') = userNames names ++ userNames names' :=
  List.map_append

theorem not_mem_generated_of_userName {names : List String}
    (hname : name ∈ userNames names) : name ∉ generated lo hi := by
  intro hmem
  obtain ⟨_, _, rfl⟩ := List.mem_map.mp hname
  obtain ⟨k, _, _, heq⟩ := mem_generated.mp hmem
  have hlist := congrArg String.toList heq
  simp [String.toList_append] at hlist

/-- The labels that some code may jump to. -/
def targets (code : List Instr) : Set String :=
  {name | ∃ x ∈ code, x.target? = some name}

theorem targets_append (xs ys : List Instr) : targets (xs ++ ys) = targets xs ∪ targets ys := by
  ext name
  simp [targets, or_and_right, exists_or]

/-- A context comes from another one by code that places some labels and may jump to some. -/
def Context.Emits (c c' : Context) (placed : Multiset String) (jumps : Set String) : Prop :=
  ∃ added, c'.code.toList = c.code.toList ++ added ∧ (Code.labels added : Multiset String) = placed ∧
    targets added = jumps

namespace Context.Emits

variable {c c' c'' : Context} {placed placed' : Multiset String} {jumps jumps' : Set String}

theorem trans (hemits : c.Emits c' placed jumps) (hemits' : c'.Emits c'' placed' jumps') :
    c.Emits c'' (placed + placed') (jumps ∪ jumps') := by
  obtain ⟨xs, hxs, rfl, rfl⟩ := hemits
  obtain ⟨ys, hys, rfl, rfl⟩ := hemits'
  refine ⟨xs ++ ys, by rw [hys, hxs, List.append_assoc], ?_, targets_append xs ys⟩
  rw [Code.labels, List.filterMap_append]
  rfl

theorem congr (hemits : c.Emits c' placed jumps) (hplaced : placed = placed')
    (hjumps : ∀ name, name ∈ jumps ↔ name ∈ jumps') : c.Emits c' placed' jumps' := by
  rwa [← hplaced, ← Set.ext hjumps]

variable {m n : Nat} {xs : List Instr}

theorem add (hplaced : (Code.labels xs : Multiset String) = placed)
    (hjumps : ∀ name, name ∈ targets xs ↔ name ∈ jumps) : c.Emits (c.add m n xs) placed jumps :=
  ⟨xs, toList_add_code .., hplaced, Set.ext hjumps⟩

/-- Code without labels and jumps. -/
theorem addPlain (hplain : ∀ x ∈ xs, x.label? = none ∧ x.target? = none) :
    c.Emits (c.add m n xs) 0 ∅ := by
  refine add ?_ fun name => ?_
  · rw [Code.labels, List.filterMap_eq_nil_iff.mpr fun x hx => (hplain x hx).1]
    rfl
  · simp only [targets, Set.mem_ofPred_eq, Set.mem_empty_iff_false, iff_false, not_exists, not_and]
    intro x hx
    simp [(hplain x hx).2]

end Context.Emits

/-- A context comes from another one by lowering something with the labels and jumps given: beside
    these, each label that was handed out in between is placed once and is jumped to. -/
structure Context.Marks (c c' : Context) (labels gotos : List String) : Prop where
  le : c.labels ≤ c'.labels
  emits : c.Emits c' (userNames labels + generated c.labels c'.labels)
    ({name | name ∈ userNames gotos} ∪ {name | name ∈ generated c.labels c'.labels})

namespace Context.Marks

variable {c c' c'' : Context} {labels gotos labels' gotos' : List String}

theorem refl (c : Context) : c.Marks c [] [] := by
  refine ⟨Nat.le_refl _, [], by simp, ?_, ?_⟩
  · rw [generated_self]
    rfl
  · simp [targets, generated_self, userNames]

theorem trans (hmarks : c.Marks c' labels gotos) (hmarks' : c'.Marks c'' labels' gotos') :
    c.Marks c'' (labels ++ labels') (gotos ++ gotos') := by
  refine ⟨Nat.le_trans hmarks.le hmarks'.le, ?_⟩
  have hemits := hmarks.emits.trans hmarks'.emits
  have hsplit := generated_add hmarks.le hmarks'.le
  rw [← hsplit, userNames_append, userNames_append]
  refine hemits.congr ?_ fun name => ?_
  · rw [← Multiset.coe_add]
    abel
  · simp only [Set.mem_union, Set.mem_ofPred_eq, List.mem_append, Multiset.mem_add]
    tauto

/-- Code without labels and jumps is added. -/
theorem addPlain {m : Nat} {xs : List Instr} (hmarks : c.Marks c' labels gotos)
    (hplain : ∀ x ∈ xs, x.label? = none ∧ x.target? = none) : c.Marks (c'.add m 0 xs) labels gotos := by
  refine ⟨hmarks.le, ?_⟩
  simpa using hmarks.emits.trans (.addPlain hplain)

theorem pool {pool : Array Const} (hmarks : c.Marks c' labels gotos) : c.Marks { c' with pool } labels gotos :=
  ⟨hmarks.le, hmarks.emits⟩

/-- Scopes have no part in it. -/
theorem scopes {scopes scopes' : ScopeTable} (hmarks : Marks { c with scopes } c' labels gotos) :
    c.Marks { c' with scopes := scopes' } labels gotos :=
  ⟨hmarks.le, hmarks.emits⟩

end Context.Marks

theorem plain_argInstrs {ts : List Temp} {index : Nat} :
    ∀ x ∈ argInstrs index ts, x.label? = none ∧ x.target? = none := by
  induction ts generalizing index with
  | nil => simp [argInstrs]
  | cons t ts ih =>
    intro x hx
    rcases List.mem_cons.mp hx with rfl | hx
    · exact ⟨rfl, rfl⟩
    · exact ih x hx

theorem plain_binaryOp? {code : Op} (hop : binaryOp? op = some code)
    (dst src1 src2 : Option Operand) :
    Instr.label? ⟨code, dst, src1, src2⟩ = none ∧ Instr.target? ⟨code, dst, src1, src2⟩ = none := by
  rcases cases_of_binaryOp? hop with ⟨_, rfl⟩ | ⟨_, rfl⟩ <;> exact ⟨rfl, rfl⟩

/-- The code between the sides of a short-circuit operator places the label that it takes, if it
    takes one. -/
theorem shortCircuit_emits {c : Context} {n : Nat} (result l : Temp) (done : Nat)
    (hn : op = "&&" ∧ n = 0 ∨ op ≠ "&&" ∧ n = 1) :
    c.Emits (c.add 0 n (decisionInstrs op result l done c.labels)) (generated c.labels (c.labels + n))
      {name | name = "L" ++ toString done ∨ name ∈ generated c.labels (c.labels + n)} := by
  rcases hn with ⟨hand, rfl⟩ | ⟨hor, rfl⟩
  · rw [decisionInstrs, shortCircuit, if_pos hand, Nat.add_zero, generated_self]
    refine .add rfl fun name => ?_
    simp [targets, truthInstr, Instr.target?, eq_comm]
  · rw [decisionInstrs, shortCircuit, if_neg hor, generated_succ]
    refine .add rfl fun name => ?_
    simp [targets, truthInstr, Instr.target?, eq_comm, or_comm]

namespace Context.Marks

variable {c c₁ c₂ c₃ : Context} {labels labels' labels'' gotos gotos' gotos'' : List String}

theorem shortCircuit {op : String} {n : Nat} {l r : Temp} (hn : op = "&&" ∧ n = 0 ∨ op ≠ "&&" ∧ n = 1)
    (hleft : (c.add 1 1 []).Marks c₁ labels gotos)
    (hright : (c₁.add 0 n (decisionInstrs op ⟨c.temps, .bool⟩ l c.labels c₁.labels)).Marks c₂
      labels' gotos') :
    c.Marks (c₂.add 0 0 [truthInstr ⟨c.temps, .bool⟩ r, labelInstr c.labels]) (labels ++ labels')
      (gotos ++ gotos') := by
  have hle := hleft.le
  have hle' := hright.le
  simp only [Context.add_labels] at hle hle'
  refine ⟨by simp; omega, ?_⟩
  have hdone : c₂.Emits (c₂.add 0 0 [truthInstr ⟨c.temps, .bool⟩ r, labelInstr c.labels])
      {"L" ++ toString c.labels} ∅ :=
    .add rfl (by simp [targets, truthInstr, Instr.target?])
  have hstart : c.Emits (c.add 1 1 []) 0 ∅ := .addPlain (by simp)
  have hchain := (((hstart.trans hleft.emits).trans (shortCircuit_emits _ _ _ hn)).trans hright.emits).trans hdone
  have hsplit : generated c.labels c₂.labels = _ := generated_of_lt (by omega)
  have hsplit' : generated (c.labels + 1) c₂.labels = _ := (generated_add hle (by omega)).symm
  have hsplit'' : generated c₁.labels c₂.labels = _ := (generated_add (Nat.le_add_right _ n) hle').symm
  simp only [Context.add_labels, Nat.add_zero] at hchain ⊢
  refine hchain.congr ?_ fun name => ?_
  · rw [hsplit, hsplit', hsplit'', userNames_append, ← Multiset.coe_add]
    abel
  · simp only [hsplit, hsplit', hsplit'', userNames_append, Set.mem_union, Set.mem_ofPred_eq,
      Set.mem_empty_iff_false, List.mem_append, Multiset.mem_add, Multiset.mem_singleton]
    tauto

variable {b : Temp}

theorem when (htest : c.Marks c₁ labels gotos)
    (hyes : (c₁.add 0 1 [branchInstr c₁.labels b]).Marks c₂ labels' gotos') :
    c.Marks (c₂.add 1 0 [labelInstr c₁.labels]) (labels ++ labels') (gotos ++ gotos') := by
  have hle := hyes.le
  simp only [Context.add_labels] at hle
  have hskip : c₁.Emits (c₁.add 0 1 [branchInstr c₁.labels b]) 0 {"L" ++ toString c₁.labels} :=
    .add rfl (by simp [targets, Instr.target?, eq_comm])
  have hend : c₂.Emits (c₂.add 1 0 [labelInstr c₁.labels]) {"L" ++ toString c₁.labels} ∅ :=
    .add rfl (by simp [targets, Instr.target?])
  have hsplit : generated c₁.labels c₂.labels = _ := generated_of_lt hle
  refine htest.trans ⟨by simp; omega, ((hskip.trans hyes.emits).trans hend).congr ?_ fun name => ?_⟩
  · simp only [Context.add_labels, Nat.add_zero, hsplit]
    abel
  · simp only [Context.add_labels, Nat.add_zero, hsplit, Set.mem_union, Set.mem_ofPred_eq,
      Set.mem_empty_iff_false, Set.mem_singleton_iff, Multiset.mem_add, Multiset.mem_singleton]
    tauto

theorem cond {y z t : Temp} (htest : c.Marks c₁ labels gotos)
    (hyes : (c₁.add 0 2 [branchInstr c₁.labels b]).Marks c₂ labels' gotos')
    (hother : (c₂.add 1 0 [moveInstr t (.temp y), jumpInstr (c₁.labels + 1),
      labelInstr c₁.labels]).Marks c₃ labels'' gotos'') :
    c.Marks (c₃.add 0 0 [moveInstr t (.temp z), labelInstr (c₁.labels + 1)])
      (labels ++ (labels' ++ labels'')) (gotos ++ (gotos' ++ gotos'')) := by
  have hle := hyes.le
  have hle' := hother.le
  simp only [Context.add_labels, Nat.add_zero] at hle hle'
  have hskip : c₁.Emits (c₁.add 0 2 [branchInstr c₁.labels b]) 0 {"L" ++ toString c₁.labels} :=
    .add rfl (by simp [targets, Instr.target?, eq_comm])
  have hmiddle : c₂.Emits (c₂.add 1 0 [moveInstr t (.temp y),
      jumpInstr (c₁.labels + 1),
      labelInstr c₁.labels]) {"L" ++ toString c₁.labels} {"L" ++ toString (c₁.labels + 1)} :=
    .add rfl (by simp [targets, Instr.target?, eq_comm])
  have hend : c₃.Emits (c₃.add 0 0 [moveInstr t (.temp z),
      labelInstr (c₁.labels + 1)])
      {"L" ++ toString (c₁.labels + 1)} ∅ :=
    .add rfl (by simp [targets, Instr.target?])
  have hsplit : generated c₁.labels c₃.labels = _ := generated_of_lt (by omega)
  have hsplit' : generated (c₁.labels + 1) c₃.labels = _ := generated_of_lt (by omega)
  have hsplit'' : generated (c₁.labels + 1 + 1) c₃.labels = _ := (generated_add hle hle').symm
  refine htest.trans ⟨by simp; omega,
    ((((hskip.trans hyes.emits).trans hmiddle).trans hother.emits).trans hend).congr ?_ fun name => ?_⟩
  · simp only [Context.add_labels, Nat.add_zero, hsplit, hsplit', hsplit'', userNames_append,
      ← Multiset.coe_add]
    abel
  · simp only [Context.add_labels, Nat.add_zero, hsplit, hsplit', hsplit'', userNames_append,
      Set.mem_union, Set.mem_ofPred_eq, Set.mem_empty_iff_false, Set.mem_singleton_iff, List.mem_append,
      Multiset.mem_add, Multiset.mem_singleton]
    tauto

theorem loop (htest : (c.add 0 2 [labelInstr c.labels]).Marks c₁ labels gotos)
    (hbody : (c₁.add 0 0 [branchInstr (c.labels + 1) b]).Marks c₂ labels' gotos') :
    c.Marks (c₂.add 1 0 [jumpInstr c.labels, labelInstr (c.labels + 1)]) (labels ++ labels')
      (gotos ++ gotos') := by
  have hle := htest.le
  have hle' := hbody.le
  simp only [Context.add_labels, Nat.add_zero] at hle hle'
  have hstart : c.Emits (c.add 0 2 [labelInstr c.labels]) {"L" ++ toString c.labels} ∅ :=
    .add rfl (by simp [targets, Instr.target?])
  have hskip : c₁.Emits (c₁.add 0 0 [branchInstr (c.labels + 1) b]) 0 {"L" ++ toString (c.labels + 1)} :=
    .add rfl (by simp [targets, Instr.target?, eq_comm])
  have hend : c₂.Emits (c₂.add 1 0 [jumpInstr c.labels, labelInstr (c.labels + 1)])
      {"L" ++ toString (c.labels + 1)} {"L" ++ toString c.labels} :=
    .add rfl (by simp [targets, Instr.target?, eq_comm])
  have hsplit : generated c.labels c₂.labels = _ := generated_of_lt (by omega)
  have hsplit' : generated (c.labels + 1) c₂.labels = _ := generated_of_lt (by omega)
  have hsplit'' : generated (c.labels + 1 + 1) c₂.labels = _ := (generated_add hle hle').symm
  refine ⟨by simp; omega,
    ((((hstart.trans htest.emits).trans hskip).trans hbody.emits).trans hend).congr ?_ fun name => ?_⟩
  · simp only [Context.add_labels, Nat.add_zero, hsplit, hsplit', hsplit'', userNames_append,
      ← Multiset.coe_add]
    abel
  · simp only [Context.add_labels, Nat.add_zero, hsplit, hsplit', hsplit'', userNames_append,
      Set.mem_union, Set.mem_ofPred_eq, Set.mem_empty_iff_false, Set.mem_singleton_iff, List.mem_append,
      Multiset.mem_add, Multiset.mem_singleton]
    tauto

end Context.Marks

variable {sigs : Signatures} {e : Expr} {es : List Expr} {c c₁ c' : Context} {t : Temp} {ts : List Temp}

/-- Behind its operands, an expression places and jumps to no labels but its own. -/
theorem Finishes.marks (hfinish : Finishes sigs e es ts c₁ t c')
    (hmarks : c.Marks c₁ (Tree.labels (nodesAll es)) (Tree.gotos (nodesAll es))) :
    c.Marks c' (Tree.labels e.nodes) (Tree.gotos e.nodes) := by
  rw [hfinish.nodes]
  cases hfinish with
  | constant k _ =>
    have hmove : c.Marks (c₁.add 1 0 [moveInstr ⟨c₁.temps, k.ty⟩ (.const k)]) [] [] :=
      hmarks.addPlain (by simp [Instr.label?, Instr.target?])
    exact hmove.pool
  | define _ _ _ _ => exact hmarks.scopes.addPlain (by simp [Instr.label?, Instr.target?])
  | array | call _ _ _ =>
    refine hmarks.addPlain fun x hx => ?_
    rcases List.mem_append.mp hx with hx | hx
    · exact plain_argInstrs x hx
    · obtain rfl := List.mem_singleton.mp hx
      exact ⟨rfl, rfl⟩
  | binary _ _ _ _ hcode => exact hmarks.addPlain (by simpa using plain_binaryOp? hcode _ _ _)
  | @label name =>
    have hown : c₁.Marks (c₁.add 1 0 [⟨.label, some (userLabel name), none, none⟩]) [name] [] := by
      refine ⟨Nat.le_refl _, .add ?_ fun name' => ?_⟩
      · rw [Context.add_labels, Nat.add_zero, generated_self, add_zero]
        rfl
      · simp [targets, Instr.target?, userNames, generated_self]
    exact hmarks.trans hown
  | @goto name =>
    have hown : c₁.Marks (c₁.add 1 0 [⟨.jump, some (userLabel name), none, none⟩]) [] [name] := by
      refine ⟨Nat.le_refl _, .add ?_ fun name' => ?_⟩
      · rw [Context.add_labels, Nat.add_zero, generated_self, add_zero]
        rfl
      · simp [targets, Instr.target?, userNames, generated_self, userLabel, eq_comm]
    exact hmarks.trans hown
  | _ => exact hmarks.addPlain (by simp [Instr.label?, Instr.target?])

/-- Lowering expressions places their labels and jumps to those that they go to. -/
theorem Lowered.marks (hlowered : Lowered sigs es c ts c') :
    c.Marks c' (Tree.labels (nodesAll es)) (Tree.gotos (nodesAll es)) := by
  induction hlowered with
  | nil => exact .refl _
  | cons _ _ ihfirst ihrest =>
    rw [nodesAll, Tree.labels_append, Tree.gotos_append]
    exact (nodesAll_singleton _ ▸ ihfirst).trans ihrest
  | strict _ _ _ _ hfinish ih =>
    rw [nodesAll_singleton]
    exact hfinish.marks ih
  | block ts c c₁ scopes n _ _ _ ih =>
    rw [nodesAll_singleton, Expr.nodes, Tree.labels_cons_of_none _ _ rfl, Tree.gotos_cons_of_none _ _ rfl]
    exact ih.scopes.addPlain (by simp)
  | shortCircuit _ _ _ _ _ _ _ hn _ _ ihleft ihright =>
    simp only [nodesAll_singleton, Expr.nodes] at ihleft ihright ⊢
    rw [Tree.labels_cons_of_none _ _ rfl, Tree.gotos_cons_of_none _ _ rfl, Tree.labels_append, Tree.gotos_append]
    exact .shortCircuit hn ihleft ihright
  | when _ _ _ _ _ hno _ _ ihtest ihyes =>
    simp only [nodesAll_singleton, Expr.nodes, Expr.nodes_of_isMissing hno, List.append_nil] at ihtest ihyes ⊢
    rw [Tree.labels_cons_of_none _ _ rfl, Tree.gotos_cons_of_none _ _ rfl, Tree.labels_append, Tree.gotos_append]
    exact .when ihtest ihyes
  | cond _ _ _ _ _ _ _ _ _ _ _ ihtest ihyes ihother =>
    simp only [nodesAll_singleton, Expr.nodes, List.append_assoc] at ihtest ihyes ihother ⊢
    rw [Tree.labels_cons_of_none _ _ rfl, Tree.gotos_cons_of_none _ _ rfl, Tree.labels_append, Tree.gotos_append,
      Tree.labels_append, Tree.gotos_append]
    exact .cond ihtest ihyes ihother
  | loop _ _ _ _ _ _ _ ihtest ihbody =>
    simp only [nodesAll_singleton, Expr.nodes] at ihtest ihbody ⊢
    rw [Tree.labels_cons_of_none _ _ rfl, Tree.gotos_cons_of_none _ _ rfl, Tree.labels_append, Tree.gotos_append]
    exact .loop ihtest ihbody

end TreeCompiler.Lower

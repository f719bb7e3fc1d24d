import TreeCompiler.Proofs.Code.Acceptance
import TreeCompiler.Proofs.Lower.Labels
import TreeCompiler.Proofs.Lower.Program
import TreeCompiler.Proofs.Lower.Temporaries

namespace TreeCompiler.Lower

open Code
open Code.Validity (checkDemands)
open TreeCompiler.Tree (Expr Header)

variable {sigs : Signatures} {h : Header} {body : Expr} {f : Code.Func}

section Checks

variable (hlowers : Lowers sigs h body f)
include hlowers

/-- The labels and jumps of a function are those of its body and labels that lowering took. -/
theorem Lowers.marks (hinternal : h.isExternal = false) :
    ∃ lo hi, (Code.labels f.code : Multiset String) =
        userNames (Tree.labels body.nodes) + generated lo hi ∧
      targets f.code = {name | name ∈ userNames (Tree.gotos body.nodes)} ∪ {name | name ∈ generated lo hi} := by
  obtain ⟨_, c₁, c₂, result, hparams, hbody, hcode⟩ := hlowers.body_ok hinternal
  obtain ⟨_, hempty, _⟩ := lowerParams_ok hparams
  obtain ⟨_, added, hadded, hlabels, htargets⟩ := (lowered_of_lowerExpr body hbody).marks
  rw [Tree.nodesAll_singleton] at hlabels htargets
  have hcode : f.code = added ++ [⟨.ret, none, some (.temp result), none⟩] := by
    rw [hcode, hadded, hempty]
    rfl
  refine ⟨c₁.labels, c₂.labels, ?_, ?_⟩
  · rw [hcode, ← hlabels, Code.labels, List.filterMap_append]
    exact congrArg _ (List.append_nil _)
  · rw [hcode, ← htargets, targets_append]
    simp [targets, Code.Instr.target?]

/-- The code of a function meets its demands, and each of its temporaries has one type. -/
theorem Lowers.coherent (hinternal : h.isExternal = false) (hcount : ∀ n ∈ body.nodes, n.Countable) :
    (∀ x ∈ f.code, checkDemands x = .ok ()) ∧
      ∀ t t', some (.temp t) ∈ f.code.flatMap (·.operands) →
        some (.temp t') ∈ f.code.flatMap (·.operands) → t.id = t'.id → t = t' := by
  obtain ⟨_, c₁, c₂, result, hparams, hbody, hcode⟩ := hlowers.body_ok hinternal
  obtain ⟨_, hempty, _⟩ := lowerParams_ok hparams
  have hstart : c₁.Coherent [] := by
    refine ⟨?_, ?_, ?_⟩ <;> simp [hempty, Context.Uses]
  obtain ⟨hend, _⟩ := (lowered_of_lowerExpr body hbody).coherent (Tree.nodesAll_singleton body ▸ hcount) hstart
  have hlast : (c₂.add 0 0 [⟨.ret, none, some (.temp result), none⟩]).Coherent [result] :=
    hend.add (List.forall_mem_singleton.mpr ⟨rfl, by simp [Code.Instr.operands]⟩)
  rw [hcode, ← Context.toList_add_code]
  exact ⟨hlast.demands, fun t t' ht ht' => hlast.same t t' (.inr ht) (.inr ht')⟩

/-- Generated labels cause no finding: a function passes the check exactly if the labels of its body
    differ and it goes to none but these. -/
theorem Lowers.accepted_iff (hinternal : h.isExternal = false) (hcount : ∀ n ∈ body.nodes, n.Countable) :
    f.Accepted ↔ (Tree.labels body.nodes).Nodup ∧ ∀ name ∈ Tree.gotos body.nodes, name ∈ Tree.labels body.nodes := by
  obtain ⟨lo, hi, hlabels, htargets⟩ := hlowers.marks hinternal
  obtain ⟨hdemands, htemps⟩ := hlowers.coherent hinternal hcount
  have hinj : Function.Injective ("user." ++ · : String → String) := fun a b heq =>
    (String.append_right_inj _).mp heq
  have hnodup : (Code.labels f.code).Nodup ↔ (Tree.labels body.nodes).Nodup := by
    rw [← Multiset.coe_nodup, hlabels, Multiset.nodup_add, Multiset.coe_nodup, userNames,
      List.nodup_map_iff hinj]
    refine and_iff_left ⟨nodup_generated lo hi, ?_⟩
    rw [Multiset.disjoint_left]
    exact fun hmem => not_mem_generated_of_userName hmem
  have hmem : ∀ name, name ∈ Code.labels f.code ↔
      name ∈ userNames (Tree.labels body.nodes) ∨ name ∈ generated lo hi := by
    intro name
    rw [← Multiset.mem_coe, hlabels, Multiset.mem_add, Multiset.mem_coe]
  constructor
  · intro haccepted
    refine ⟨hnodup.mp haccepted.labels, fun name hname => ?_⟩
    have hgoto : "user." ++ name ∈ userNames (Tree.gotos body.nodes) := List.mem_map_of_mem hname
    have htarget : "user." ++ name ∈ targets f.code := htargets ▸ .inl hgoto
    obtain ⟨x, hx, hname⟩ := htarget
    have hplaced := (hmem _).mp (haccepted.targets x hx _ hname)
    have huser := hplaced.resolve_right (not_mem_generated_of_userName hgoto)
    obtain ⟨name', hname', heq⟩ := List.mem_map.mp huser
    exact hinj heq ▸ hname'
  · rintro ⟨hdifferent, hgotos⟩
    refine ⟨?_, hdemands, htemps, hnodup.mpr hdifferent, fun x hx name hname => ?_⟩
    · obtain ⟨_, _, _, _, hparams, _⟩ := hlowers.body_ok hinternal
      obtain ⟨_, _, _, _, hvars⟩ := lowerParams_ok hparams
      intro q hq
      obtain ⟨storage, hstorage, _⟩ := hvars q hq
      exact ⟨storage, hstorage⟩
    · have htarget : name ∈ targets f.code := ⟨x, hx, hname⟩
      rw [htargets] at htarget
      rw [hmem]
      rcases htarget with hgoto | htaken
      · obtain ⟨name', hname', rfl⟩ := List.mem_map.mp hgoto
        exact .inl (List.mem_map_of_mem (hgotos name' hname'))
      · exact .inr htaken

/-- A generated label that is jumped to is placed exactly once. -/
theorem Lowers.count_generated (hinternal : h.isExternal = false) {k : Nat}
    (htarget : "L" ++ toString k ∈ targets f.code) : (Code.labels f.code).count ("L" ++ toString k) = 1 := by
  obtain ⟨lo, hi, hlabels, htargets⟩ := hlowers.marks hinternal
  have huser : ∀ names, "L" ++ toString k ∉ userNames names := by
    intro names hmem
    exact not_mem_generated_of_userName hmem
      (mem_generated.mpr ⟨k, Nat.le_refl k, Nat.lt_succ_self k, rfl⟩)
  rw [htargets] at htarget
  have htaken : "L" ++ toString k ∈ generated lo hi := htarget.resolve_left (huser _)
  rw [← Multiset.coe_count, hlabels, Multiset.count_add, Multiset.coe_count, List.count_eq_zero.mpr (huser _),
    Multiset.count_eq_one_of_mem (nodup_generated lo hi) htaken]

theorem Lowers.checkFunc_of_external (hexternal : h.isExternal = true) : Code.Validity.checkFunc f = .ok () := by
  simp [Code.Validity.checkFunc, hlowers.shaped.2.2.1, hexternal, hlowers.code_of_external hexternal]

end Checks

/-- Lowered code passes the check exactly if in each function the labels of the body differ and each
    jump goes to one of them. -/
theorem validate_lowered {prog : Tree.Program} {p : Code.Program} (hlower : lowerProgram prog = .ok p)
    (hcount : prog.Countable) :
    (p.validate = .ok () ↔ ∀ h body, .func h body ∈ prog.body → h.isExternal = false →
      (Tree.labels body.nodes).Nodup ∧ ∀ name ∈ Tree.gotos body.nodes, name ∈ Tree.labels body.nodes) ∧
      ∀ f ∈ p.funcs, f.isExternal = false → (∀ x ∈ f.code, checkDemands x = .ok ()) ∧
        (∀ t t', some (.temp t) ∈ f.code.flatMap (·.operands) →
          some (.temp t') ∈ f.code.flatMap (·.operands) → t.id = t'.id → t = t') ∧
          ∀ k : Nat, "L" ++ toString k ∈ targets f.code →
            (Code.labels f.code).count ("L" ++ toString k) = 1 := by
  obtain ⟨sigs, hcollect, hlowers⟩ := lowerProgram_funcs hlower
  have hcount' : ∀ h body, (h, body) ∈ funcItems prog.body → ∀ n ∈ body.nodes, n.Countable := by
    intro h body hitem n hn
    exact hcount n (Tree.mem_nodesAll (mem_funcItems.mp hitem) (by simp [Expr.nodes, hn]))
  refine ⟨?_, fun f hf hinternal => ?_⟩
  · rw [Code.Program.validate, Code.Validity.checkFuncs_eq_ok_iff, names_of_lowers hlowers]
    simp only [List.not_mem_nil, not_false_eq_true, implies_true, true_and, collect_nodup hcollect]
    constructor
    · intro hcheck h body hitem hinternal
      have hitem := mem_funcItems.mpr hitem
      obtain ⟨f, hf, hf'⟩ := exists_of_mem_left hlowers hitem
      have hkind : f.isExternal = false := hf'.shaped.2.2.1.trans hinternal
      have haccepted := (Code.Validity.checkFunc_eq_ok_iff hkind).mp (hcheck f hf)
      exact (hf'.accepted_iff hinternal (hcount' h body hitem)).mp haccepted
    · intro hlabels f hf
      obtain ⟨⟨h, body⟩, hitem, hf'⟩ := exists_of_mem_right hlowers hf
      have hkind := hf'.shaped.2.2.1
      cases hexternal : h.isExternal with
      | true => exact hf'.checkFunc_of_external hexternal
      | false =>
        rw [Code.Validity.checkFunc_eq_ok_iff (hkind.trans hexternal),
          hf'.accepted_iff hexternal (hcount' h body hitem)]
        exact hlabels h body (mem_funcItems.mp hitem) hexternal
  · obtain ⟨⟨h, body⟩, hitem, hf'⟩ := exists_of_mem_right hlowers hf
    have hinternal : h.isExternal = false := hf'.shaped.2.2.1.symm.trans hinternal
    obtain ⟨hdemands, htemps⟩ := hf'.coherent hinternal (hcount' h body hitem)
    exact ⟨hdemands, htemps, fun k => hf'.count_generated hinternal⟩

/-- A loop around a jump to a label that is called as a generated one. -/
def spinning : Tree.Program :=
  ⟨[.func ⟨"main", [], .void, true, false⟩ (.block [.label "L0", .loop (.literal (.bool true)) (.goto "L0")])]⟩

theorem validate_spinning : ∃ p, lowerProgram spinning = .ok p ∧ p.validate = .ok () := by
  have hcount : spinning.Countable := by
    simp [Tree.Program.Countable, spinning, Tree.nodesAll, Expr.nodes, Expr.Countable]
  have hsome : (lowerProgram spinning).toOption.isSome = true := by decide +kernel
  obtain ⟨p, hp⟩ := Option.isSome_iff_exists.mp hsome
  have hlower := eq_ok_of_toOption hp
  refine ⟨p, hlower, (validate_lowered hlower hcount).1.mpr fun h body hitem _ => ?_⟩
  simp only [spinning, List.mem_singleton, Expr.func.injEq] at hitem
  obtain ⟨rfl, rfl⟩ := hitem
  decide

end TreeCompiler.Lower

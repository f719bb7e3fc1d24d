import Mathlib.Data.List.Forall2
import TreeCompiler.Pipeline
import TreeCompiler.Proofs.Lower.Shape

namespace TreeCompiler.Lower

open Code
open TreeCompiler.Tree (Expr Header)

/-- The functions among the items of a program. -/
def funcItems (es : List Expr) : List (Header × Expr) :=
  es.filterMap fun
    | .func h body => some (h, body)
    | _ => none

/-- A function is what lowering makes of a header and a body, whatever was pooled before. -/
def Lowers (sigs : Signatures) (h : Header) (body : Expr) (f : Code.Func) : Prop :=
  ∃ pool c', lowerFunc sigs h body { pool } = .ok (f, c')

variable {es : List Expr} {sigs : Signatures}

variable {sigs' : Signatures} {h : Header} {body : Expr} {s s' : Session} {index : Nat} {prog : Tree.Program}
  {p : Code.Program} {α β : Type} {c c' : Context}

/-- Collected signatures are those of the items and those there were before, by different names. -/
theorem collect_ok (hcollect : collect sigs es = .ok sigs') :
    (∀ name h, sigs.lookup name = some h → sigs'.lookup name = some h) ∧
      (∀ h body, (h, body) ∈ funcItems es → sigs'.lookup h.name = some h) ∧
        ∀ name h, sigs'.lookup name = some h →
          sigs.lookup name = some h ∨ h.name = name ∧ ∃ body, (h, body) ∈ funcItems es := by
  induction es generalizing sigs with
  | nil =>
    cases hcollect
    exact ⟨fun _ _ hold => hold, fun _ _ hmem => by simp [funcItems] at hmem, fun _ _ hold => .inl hold⟩
  | cons e es ih =>
    by_cases hfunc : ∃ h body, e = .func h body
    · obtain ⟨h, body, rfl⟩ := hfunc
      simp only [collect] at hcollect
      split at hcollect
      · cases hcollect
      · next hnew =>
        rw [Option.not_isSome_iff_eq_none] at hnew
        obtain ⟨hkeep, hnew', hall⟩ := ih hcollect
        have hitems : funcItems (.func h body :: es) = (h, body) :: funcItems es := by simp [funcItems]
        refine ⟨fun name h' hold => hkeep name h' ?_, ?_, ?_⟩
        · have hne : (name == h.name) = false := beq_eq_false_iff_ne.mpr fun heq => by
            rw [heq, hnew] at hold
            cases hold
          rw [List.lookup_cons, hne]
          exact hold
        · intro h' body' hmem
          rw [hitems] at hmem
          rcases List.mem_cons.mp hmem with heq | hmem
          · cases heq
            exact hkeep _ _ (by simp)
          · exact hnew' h' body' hmem
        · intro name h' hlookup
          rw [hitems]
          rcases hall name h' hlookup with hold | ⟨hname, body', hmem⟩
          · rw [List.lookup_cons] at hold
            split at hold
            · next heq =>
              cases hold
              exact .inr ⟨(beq_iff_eq.mp heq).symm, body, by simp⟩
            · exact .inl hold
          · exact .inr ⟨hname, body', by simp [hmem]⟩
    · have hrest : collect sigs es = .ok sigs' := by
        cases e <;> first | exact hcollect | exact absurd ⟨_, _, rfl⟩ hfunc
      have hitems : funcItems (e :: es) = funcItems es := by
        cases e <;> first | rfl | exact absurd ⟨_, _, rfl⟩ hfunc
      rw [hitems]
      exact ih hrest

theorem mem_funcItems :
    (h, body) ∈ funcItems es ↔ .func h body ∈ es := by
  rw [funcItems, List.mem_filterMap]
  constructor
  · rintro ⟨e, he, heq⟩
    split at heq
    · cases heq
      exact he
    · cases heq
  · exact fun hmem => ⟨_, hmem, rfl⟩

theorem funcItems_cons (e : Expr) (es : List Expr) :
    funcItems (e :: es) = funcItems [e] ++ funcItems es := by
  rw [funcItems, ← List.singleton_append, List.filterMap_append]
  rfl

/-- Signatures are collected exactly if all functions have different names. -/
theorem collect_eq_ok_iff :
    collect sigs es = .ok sigs' ↔ ((funcItems es).map (·.1.name)).Nodup ∧
      (∀ item ∈ funcItems es, sigs.lookup item.1.name = none) ∧
        sigs' = ((funcItems es).map fun item => (item.1.name, item.1)).reverse ++ sigs := by
  induction es generalizing sigs with
  | nil =>
    rw [collect, Except.ok.injEq]
    exact ⟨fun heq => ⟨by simp [funcItems], by simp [funcItems], heq.symm⟩, fun h => h.2.2.symm⟩
  | cons e es ih =>
    by_cases hfunc : ∃ h body, e = .func h body
    · obtain ⟨h, body, rfl⟩ := hfunc
      have hitems : funcItems (.func h body :: es) = (h, body) :: funcItems es := by simp [funcItems]
      rw [collect, hitems]
      cases hold : sigs.lookup h.name with
      | some h' =>
        refine iff_of_false (by simp) fun hright => ?_
        have hnone := hright.2.1 (h, body) List.mem_cons_self
        simp [hold] at hnone
      | none =>
        rw [if_neg (by simp), ih]
        simp only [List.map_cons, List.nodup_cons, List.mem_map, List.mem_cons, forall_eq_or_imp, hold, true_and,
          List.reverse_cons, List.append_assoc, List.singleton_append, List.lookup_cons]
        constructor
        · rintro ⟨hnodup, hnew, heq⟩
          refine ⟨⟨?_, hnodup⟩, fun item hitem => ?_, heq⟩
          · rintro ⟨item, hitem, hname⟩
            have := hnew item hitem
            simp [hname] at this
          · have := hnew item hitem
            split at this
            · cases this
            · exact this
        · rintro ⟨⟨hother, hnodup⟩, hnew, heq⟩
          refine ⟨hnodup, fun item hitem => ?_, heq⟩
          rw [beq_eq_false_iff_ne.mpr fun hname => hother ⟨item, hitem, hname⟩]
          exact hnew item hitem
    · have hrest : collect sigs (e :: es) = collect sigs es := by
        cases e <;> first | rfl | exact absurd ⟨_, _, rfl⟩ hfunc
      have hitems : funcItems (e :: es) = funcItems es := by
        cases e <;> first | rfl | exact absurd ⟨_, _, rfl⟩ hfunc
      rw [hrest, hitems]
      exact ih

/-- What one item adds to a session. -/
theorem Session.item_ok {e : Expr} (hitem : s.item index e = .ok s') :
    s'.sigs = s.sigs ∧ ∃ fs, s'.funcs.toList = s.funcs.toList ++ fs ∧
      List.Forall₂ (fun item f => Lowers s.sigs item.1 item.2 f) (funcItems [e]) fs := by
  cases e with
  | func h body =>
    simp only [item] at hitem
    obtain ⟨⟨f, c⟩, hf, hitem⟩ := bind_eq_ok_iff.mp hitem
    have hlowers : Lowers s.sigs h body f := ⟨s.pool, c, mapError_eq_ok_iff.mp hf⟩
    cases hitem
    exact ⟨rfl, [f], by simp, .cons hlowers .nil⟩
  | literal l =>
    simp only [item] at hitem
    split at hitem
    · cases hitem
      exact ⟨rfl, [], by simp, .nil⟩
    · cases hitem
  | _ => cases hitem

/-- The functions of a session are those of the items, each as it is lowered. -/
theorem Session.items_ok
    (hitems : s.items index es = (.ok (), s')) :
    s'.sigs = s.sigs ∧ ∃ fs, s'.funcs.toList = s.funcs.toList ++ fs ∧
      List.Forall₂ (fun item f => Lowers s.sigs item.1 item.2 f) (funcItems es) fs := by
  induction es generalizing s index with
  | nil =>
    cases hitems
    exact ⟨rfl, [], by simp, .nil⟩
  | cons e es ih =>
    obtain ⟨s₁, hitem, hrest⟩ := items_cons_ok hitems
    obtain ⟨hsigs, fs, hfs, hlowers⟩ := item_ok hitem
    obtain ⟨hsigs', fs', hfs', hlowers'⟩ := ih hrest
    rw [hsigs] at hlowers' hsigs'
    rw [funcItems_cons]
    exact ⟨hsigs', fs ++ fs', by rw [hfs', hfs, List.append_assoc], List.rel_append hlowers hlowers'⟩

/-- The functions of a lowered program are its function items, one by one, lowered with the
    signatures of all of them. -/
theorem lowerProgram_funcs (hlower : lowerProgram prog = .ok p) :
    ∃ sigs, collect [] prog.body = .ok sigs ∧
      List.Forall₂ (fun item f => Lowers sigs item.1 item.2 f) (funcItems prog.body) p.funcs := by
  obtain ⟨sigs, s, hcollect, hitems, rfl⟩ := lowerProgram_eq_ok_iff.mp hlower
  obtain ⟨_, fs, hfs, hlowers⟩ := Session.items_ok hitems
  simp only [List.nil_append] at hfs
  exact ⟨sigs, hcollect, hfs ▸ hlowers⟩

theorem exists_of_mem_left {R : α → β → Prop} {xs : List α} {ys : List β}
    (hrel : List.Forall₂ R xs ys) {x : α} (hx : x ∈ xs) : ∃ y ∈ ys, R x y := by
  induction hrel with
  | nil => cases hx
  | cons hr _ ih =>
    rcases List.mem_cons.mp hx with rfl | hx
    · exact ⟨_, List.mem_cons_self, hr⟩
    · obtain ⟨y, hy, hxy⟩ := ih hx
      exact ⟨y, List.mem_cons_of_mem _ hy, hxy⟩

theorem exists_of_mem_right {R : α → β → Prop} {xs : List α} {ys : List β}
    (hrel : List.Forall₂ R xs ys) {y : β} (hy : y ∈ ys) : ∃ x ∈ xs, R x y :=
  exists_of_mem_left (List.Forall₂.flip hrel) hy

/-- The functions of a lowered program are its function items, lowered with the signatures of
    exactly these items. -/
theorem lowerProgram_ok (hlower : lowerProgram prog = .ok p) :
    ∃ sigs : Signatures,
      (∀ h body, (h, body) ∈ funcItems prog.body → sigs.lookup h.name = some h) ∧
        (∀ name h, sigs.lookup name = some h → h.name = name ∧ ∃ body, (h, body) ∈ funcItems prog.body) ∧
          (∀ f ∈ p.funcs, ∃ h body, (h, body) ∈ funcItems prog.body ∧ Lowers sigs h body f) ∧
            ∀ h body, (h, body) ∈ funcItems prog.body → ∃ f ∈ p.funcs, Lowers sigs h body f := by
  obtain ⟨sigs, hcollect, hlowers⟩ := lowerProgram_funcs hlower
  obtain ⟨_, hnew, hall⟩ := collect_ok hcollect
  refine ⟨sigs, hnew, ?_, ?_, ?_⟩
  · intro name h hlookup
    rcases hall name h hlookup with hnil | hitem
    · simp at hnil
    · exact hitem
  · intro f hf
    obtain ⟨⟨h, body⟩, hmem, hf⟩ := exists_of_mem_right hlowers hf
    exact ⟨h, body, hmem, hf⟩
  · intro h body hmem
    exact exists_of_mem_left hlowers hmem

/-- Parameters become different variables, one each, and no code. -/
theorem lowerParams_ok {ps : List Tree.Param} {qs : List Code.Param}
    (hlower : lowerParams ps c = .ok (qs, c')) :
    qs.length = ps.length ∧ c'.code = c.code ∧ (∀ name ∈ c.scopes.taken, name ∈ c'.scopes.taken) ∧
      (qs.map (·.operand)).Nodup ∧
        ∀ q ∈ qs, ∃ storage, q.operand = some (.var storage) ∧ storage ∉ c.scopes.taken := by
  induction ps generalizing c qs with
  | nil =>
    obtain ⟨rfl, rfl⟩ := LowerM.pure_eq_ok_iff.mp hlower
    simp
  | cons p ps ih =>
    obtain ⟨storage, scopes, rest, hdeclare, hrest, rfl⟩ := lowerParams_cons_ok hlower
    obtain ⟨scope, outer, hscopes, _, hfresh, rfl⟩ := ScopeTable.declare_ok hdeclare
    obtain ⟨hlength, hcode, htaken, hnodup, hvars⟩ := ih hrest
    refine ⟨by simp [hlength], hcode, fun name hname => htaken name (by simp [hname]), ?_, ?_⟩
    · rw [List.map_cons, List.nodup_cons]
      refine ⟨fun hmem => ?_, hnodup⟩
      obtain ⟨q, hq, heq⟩ := List.mem_map.mp hmem
      obtain ⟨storage', hq', hfresh'⟩ := hvars q hq
      rw [hq'] at heq
      cases heq
      exact hfresh' (by simp)
    · intro q hq
      rcases List.mem_cons.mp hq with rfl | hq
      · exact ⟨storage, rfl, hfresh⟩
      · obtain ⟨storage', hq', hfresh'⟩ := hvars q hq
        exact ⟨storage', hq', fun hmem => hfresh' (by simp [hmem])⟩

/-- A function is lowered by declaring its parameters and, unless it is external, lowering its
    body and returning the value of the body. -/
theorem lowerFunc_ok {f : Code.Func}
    (hlower : lowerFunc sigs h body c = .ok (f, c')) :
    ∃ params c₁, lowerParams h.params { c with scopes := c.scopes.enter } = .ok (params, c₁) ∧
      f.name = h.name ∧ f.params = params ∧ f.isExternal = h.isExternal ∧
        (h.isExternal = true ∧ f.code = [] ∨
          h.isExternal = false ∧ ∃ result c₂, lowerExpr sigs body c₁ = .ok (result, c₂) ∧
            f.code = c₂.code.toList ++ [⟨.ret, none, some (.temp result), none⟩]) := by
  simp only [lowerFunc, LowerM.bind_eq_ok_iff, LowerM.enter_eq_ok_iff] at hlower
  obtain ⟨_, _, rfl, params, c₁, hparams, hlower⟩ := hlower
  refine ⟨params, c₁, hparams, ?_⟩
  cases hexternal : h.isExternal with
  | true =>
    simp only [hexternal, if_true, LowerM.bind_eq_ok_iff, LowerM.pure_eq_ok_iff] at hlower
    obtain ⟨_, _, ⟨rfl, rfl⟩, _, _, _, rfl, rfl⟩ := hlower
    simp
  | false =>
    simp only [hexternal, Bool.false_eq_true, if_false] at hlower
    split at hlower
    · simp only [LowerM.bind_eq_ok_iff] at hlower
      obtain ⟨_, _, hfail, _⟩ := hlower
      exact (LowerM.fail_ne_ok c₁ hfail).elim
    · simp only [LowerM.bind_eq_ok_iff, LowerM.within_eq_ok_iff, LowerM.emit_eq_ok_iff,
        LowerM.get_eq_ok_iff, LowerM.pure_eq_ok_iff] at hlower
      obtain ⟨result, c₂, hbody, _, _, rfl, _, _, ⟨rfl, rfl⟩, _, _, ⟨rfl, rfl⟩, _, _, _, rfl,
          rfl⟩ := hlower
      simp only [true_and, Bool.false_eq_true, false_and, false_or]
      exact ⟨result, c₂, hbody, by simp⟩

section

variable {sigs : Signatures} {h : Header} {body : Expr} {f : Code.Func} (hlowers : Lowers sigs h body f)
include hlowers

/-- The code of a function is that of its body, which returns its value, and an external function
    has none. -/
theorem Lowers.body_ok (hinternal : h.isExternal = false) :
    ∃ pool c₁ c₂ result, lowerParams h.params { pool, scopes := ScopeTable.enter {} } = .ok (f.params, c₁) ∧
      lowerExpr sigs body c₁ = .ok (result, c₂) ∧
        f.code = c₂.code.toList ++ [⟨.ret, none, some (.temp result), none⟩] := by
  obtain ⟨pool, c', hlower⟩ := hlowers
  obtain ⟨_, c₁, hparams, _, rfl, _, ⟨htrue, _⟩ | ⟨_, result, c₂, hbody, hcode⟩⟩ := lowerFunc_ok hlower
  · rw [hinternal] at htrue
    cases htrue
  · exact ⟨pool, c₁, c₂, result, hparams, hbody, hcode⟩

theorem Lowers.code_of_external (hexternal : h.isExternal = true) : f.code = [] := by
  obtain ⟨pool, c', hlower⟩ := hlowers
  obtain ⟨_, _, _, _, _, _, ⟨_, hcode⟩ | ⟨hinternal, _⟩⟩ := lowerFunc_ok hlower
  · exact hcode
  · rw [hexternal] at hinternal
    cases hinternal

/-- A lowered function has the name, the number of parameters and the kind of its header, and its
    code is shaped for the signatures. -/
theorem Lowers.shaped :
    f.name = h.name ∧ f.params.length = h.params.length ∧ f.isExternal = h.isExternal ∧
      (f.isExternal = false → f.Shaped sigs.arity) := by
  obtain ⟨pool, c', hlower⟩ := id hlowers
  obtain ⟨params, c₁, hparams, hname, rfl, hexternal, _⟩ := lowerFunc_ok hlower
  refine ⟨hname, (lowerParams_ok hparams).1, hexternal, fun hinternal => ?_⟩
  obtain ⟨_, c₁, c₂, result, hparams, hbody, hcode⟩ := hlowers.body_ok (hexternal.symm.trans hinternal)
  obtain ⟨_, hempty, _, hnodup, _⟩ := lowerParams_ok hparams
  obtain ⟨_, hresult, added, hadded, hfragment⟩ := (lowered_of_lowerExpr body hbody).adds
  have hlast : Fragment sigs.arity [⟨.ret, none, some (.temp result), none⟩] :=
    .singleton rfl (by simpa [Code.Instr.operands, Operand.Proper] using hresult)
  rw [hadded, hempty] at hcode
  refine ⟨?_, hnodup, added, _, by simpa using hcode, rfl⟩
  rw [hcode]
  simpa using hfragment.append hlast

end

theorem collect_nodup (hcollect : collect [] es = .ok sigs) :
    ((funcItems es).map (·.1.name)).Nodup :=
  (collect_eq_ok_iff.mp hcollect).1

theorem names_of_lowers {items : List (Header × Expr)} {fs : List Code.Func}
    (hlowers : List.Forall₂ (fun item f => Lowers sigs item.1 item.2 f) items fs) :
    fs.map (·.name) = items.map (·.1.name) := by
  induction hlowers with
  | nil => rfl
  | cons hf _ ih => rw [List.map_cons, List.map_cons, ih, hf.shaped.1]

end TreeCompiler.Lower

namespace TreeCompiler

variable {prog : Tree.Program} {p : Code.Program}

/-- A compiled program has passed lowering and the check. -/
theorem buildCode_ok (hbuild : buildCode prog = .ok p) :
    Lower.lowerProgram prog = .ok p ∧ p.validate = .ok () := by
  unfold buildCode at hbuild
  obtain ⟨code, hlower, hbuild⟩ := bind_eq_ok_iff.mp hbuild
  obtain ⟨_, hvalidate, hbuild⟩ := bind_eq_ok_iff.mp hbuild
  cases hbuild
  exact ⟨mapError_eq_ok_iff.mp hlower, mapError_eq_ok_iff.mp hvalidate⟩

/-- The code of a program is well formed. -/
theorem buildCode_wellFormed (hbuild : buildCode prog = .ok p) :
    p.WellFormed := by
  obtain ⟨hlower, hvalidate⟩ := buildCode_ok hbuild
  obtain ⟨hnames, hvalid⟩ := Code.Program.validate_ok hvalidate
  obtain ⟨sigs, _, hsigs, hfrom, hto⟩ := Lower.lowerProgram_ok hlower
  refine ⟨hnames, fun f hf => (hvalid f hf).1, fun f hf => (hvalid f hf).2, fun f hf hexternal => ?_⟩
  obtain ⟨h, body, _, hlowers⟩ := hfrom f hf
  have hshaped := hlowers.shaped.2.2.2 hexternal
  -- Calls are counted against the signatures, which are those of the program's own functions.
  have harity : ∀ name n, sigs.arity name = some n → p.arity name = some n := by
    intro name n harity
    simp only [Lower.Signatures.arity, Option.map_eq_some_iff] at harity
    obtain ⟨h', hlookup, rfl⟩ := harity
    obtain ⟨rfl, body', hmem⟩ := hsigs name h' hlookup
    obtain ⟨g, hg, hlowers'⟩ := hto h' body' hmem
    obtain ⟨hname, hlength, _⟩ := hlowers'.shaped
    rw [Code.Program.arity, ← hname, Code.Program.func?_of_mem hnames hg, Option.map_some, hlength]
  exact ⟨hshaped.fragment.mono harity, hshaped.params, hshaped.last⟩

end TreeCompiler

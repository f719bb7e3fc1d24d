import Mathlib.Tactic.Common
import TreeCompiler.Code.Validity
import TreeCompiler.Proofs.Lower.Derivation

namespace TreeCompiler.Lower

open Code
open Code.Validity (checkDemands)
open TreeCompiler.Tree (Expr nodesAll nodesAll_singleton)

/-- A temporary is among those given, or the code has it. -/
def Context.Uses (c : Context) (live : List Temp) (t : Temp) : Prop :=
  t ∈ live ∨ some (.temp t) ∈ c.code.toList.flatMap (·.operands)

/-- The code meets its demands, and temporaries in use were handed out and differ in their numbers. -/
structure Context.Coherent (c : Context) (live : List Temp) : Prop where
  demands : ∀ x ∈ c.code.toList, checkDemands x = .ok ()
  below : ∀ t, c.Uses live t → t.id < c.temps
  same : ∀ t t', c.Uses live t → c.Uses live t' → t.id = t'.id → t = t'

namespace Context.Coherent

variable {c c' : Context} {live live' : List Temp}

section Kept

variable (hcoherent : c.Coherent live)
include hcoherent

theorem mono (hsub : live' ⊆ live) : c.Coherent live' := by
  have huses : ∀ t, c.Uses live' t → c.Uses live t := fun t ht => ht.imp_left (@hsub t)
  exact ⟨hcoherent.demands, fun t ht => hcoherent.below t (huses t ht),
    fun t t' ht ht' => hcoherent.same t t' (huses t ht) (huses t' ht')⟩

/-- The code and the number of temporaries are all that matters. -/
theorem congr (hcode : c'.code = c.code) (htemps : c'.temps = c.temps) : c'.Coherent live := by
  obtain ⟨hdemands, hbelow, hsame⟩ := hcoherent
  unfold Context.Uses at hbelow hsame
  rw [← hcode] at hdemands hbelow hsame
  rw [← htemps] at hbelow
  exact ⟨hdemands, hbelow, hsame⟩

theorem temp {n : Nat} (ty : Code.Ty) : (c.add 1 n []).Coherent (⟨c.temps, ty⟩ :: live) := by
  have hcode : (c.add 1 n []).code = c.code := by simp [Context.add]
  have hcases : ∀ t, (c.add 1 n []).Uses (⟨c.temps, ty⟩ :: live) t → t = ⟨c.temps, ty⟩ ∨
      c.Uses live t := by
    rintro t (ht | ht)
    · exact (List.mem_cons.mp ht).imp_right .inl
    · exact .inr (.inr (hcode ▸ ht))
  refine ⟨hcode ▸ hcoherent.demands, fun t ht => ?_, fun t t' ht ht' hid => ?_⟩
  · rw [Context.add_temps]
    rcases hcases t ht with rfl | ht
    · exact Int.ofNat_lt.mpr (Nat.lt_succ_self _)
    · have hbelow := hcoherent.below t ht
      omega
  · rcases hcases t ht with rfl | ht
    · rcases hcases t' ht' with rfl | ht'
      · rfl
      · have hbelow := hcoherent.below t' ht'
        rw [← hid] at hbelow
        exact absurd hbelow (by simp)
    · rcases hcases t' ht' with rfl | ht'
      · have hbelow := hcoherent.below t ht
        rw [hid] at hbelow
        exact absurd hbelow (by simp)
      · exact hcoherent.same t t' ht ht' hid

/-- Code that meets its demands and has no other temporaries is added. -/
theorem add {n : Nat} {xs : List Instr}
    (hxs : ∀ x ∈ xs, checkDemands x = .ok () ∧ ∀ t, some (.temp t) ∈ x.operands → t ∈ live) :
    (c.add 0 n xs).Coherent live := by
  have huses : ∀ t, (c.add 0 n xs).Uses live t → c.Uses live t := by
    rintro t (ht | ht)
    · exact .inl ht
    · rw [Context.toList_add_code, List.flatMap_append, List.mem_append] at ht
      refine ht.symm.imp_left fun ht => ?_
      obtain ⟨x, hx, ht⟩ := List.mem_flatMap.mp ht
      exact (hxs x hx).2 t ht
  refine ⟨fun y hy => ?_, fun t ht => hcoherent.below t (huses t ht),
    fun t t' ht ht' => hcoherent.same t t' (huses t ht) (huses t' ht')⟩
  rw [Context.toList_add_code, List.mem_append] at hy
  exact hy.elim (hcoherent.demands y) fun hy => (hxs y hy).1

/-- A temporary is handed out and code is added that may have it. -/
theorem addTemp {n : Nat} {xs : List Instr} (ty : Code.Ty)
    (hxs : ∀ x ∈ xs, checkDemands x = .ok () ∧ ∀ t, some (.temp t) ∈ x.operands → t ∈ ⟨c.temps, ty⟩ :: live) :
    (c.add 1 n xs).Coherent (⟨c.temps, ty⟩ :: live) := by
  have htemp : (c.add 1 n []).Coherent _ := hcoherent.temp ty
  have hadd := htemp.add (n := 0) hxs
  rwa [Context.add_add] at hadd

end Kept

end Context.Coherent

theorem isCount_ofNat {n : Nat} (hn : n < 2 ^ 63) :
    Operand.isCount (some (.const (.int (Int64.ofNat n)))) = true := by
  have hle : (0 : Int64) ≤ Int64.ofNat n := by
    rw [Int64.le_iff_toInt_le, Int64.toInt_ofNat_of_lt hn]
    simp
  simpa [Operand.isCount] using hle

theorem demands_argInstrs {ts : List Temp} {index : Nat} (hindex : index + ts.length < 2 ^ 63) :
    ∀ x ∈ argInstrs index ts, checkDemands x = .ok () ∧ ∀ t, some (.temp t) ∈ x.operands → t ∈ ts := by
  induction ts generalizing index with
  | nil => simp [argInstrs]
  | cons t ts ih =>
    rw [List.length_cons] at hindex
    have hcount := isCount_ofNat (n := index) (by omega)
    intro x hx
    rcases List.mem_cons.mp hx with rfl | hx
    · exact ⟨by simp [checkDemands, Instr.demands?, Code.Demand.value, Code.Demand.count, Operand.isValue, hcount],
        by simp [Instr.operands]⟩
    · obtain ⟨hdemands, htemps⟩ := ih (by omega) x hx
      exact ⟨hdemands, fun t' ht' => List.mem_cons_of_mem t (htemps t' ht')⟩

/-- Values that are handed over to a call or an array, and the instruction that takes them. -/
theorem Context.Coherent.addArgs {c : Context} {live ts : List Temp} {ty : Code.Ty} {x : Instr}
    (hcoherent : c.Coherent (ts ++ live)) (hlength : ts.length < 2 ^ 63) (hdemands : checkDemands x = .ok ())
    (htemps : ∀ t, some (.temp t) ∈ x.operands → t = ⟨c.temps, ty⟩) :
    (c.add 1 0 (argInstrs 0 ts ++ [x])).Coherent (⟨c.temps, ty⟩ :: (ts ++ live)) := by
  refine hcoherent.addTemp _ fun y hy => ?_
  rcases List.mem_append.mp hy with hy | hy
  · obtain ⟨hdemands, htemps⟩ := demands_argInstrs (by omega) y hy
    exact ⟨hdemands, fun t ht => List.mem_cons_of_mem _ (List.mem_append_left _ (htemps t ht))⟩
  · obtain rfl := List.mem_singleton.mp hy
    exact ⟨hdemands, fun t ht => List.mem_cons.mpr (.inl (htemps t ht))⟩

theorem checkDemands_binaryOp? {op : String} {code : Op} (hop : binaryOp? op = some code) (t l r : Temp) :
    checkDemands ⟨code, some (.temp t), some (.temp l), some (.temp r)⟩ = .ok () := by
  rcases cases_of_binaryOp? hop with ⟨_, rfl⟩ | ⟨_, rfl⟩ <;> rfl

variable {sigs : Signatures} {e : Expr} {es : List Expr} {c c' : Context} {t : Temp} {ts live : List Temp}

attribute [local simp] Instr.operands userLabel truthInstr checkDemands Instr.demands? Code.Demand.storage
  Code.Demand.value Code.Demand.target Code.Demand.count Code.Demand.callee Code.Demand.orAbsent Operand.isStorage
  Operand.isValue

/-- Behind its operands, the code of an expression meets its demands, and has its temporaries with one
    type. -/
theorem Finishes.coherent (hfinish : Finishes sigs e es ts c t c') (hlength : ts.length = es.length)
    (hcount : e.Countable) (hcoherent : c.Coherent (ts ++ live)) : c'.Coherent (t :: live) := by
  suffices hall : c'.Coherent (t :: (ts ++ live)) from
    hall.mono (List.cons_subset_cons t (List.subset_append_right ts live))
  cases hfinish with
  | void => exact hcoherent.addTemp _ (by simp)
  | constant k hconst =>
    have hadd : (c.add 1 0 [moveInstr ⟨c.temps, k.ty⟩ (.const k)]).Coherent _ :=
      hcoherent.addTemp k.ty (List.forall_mem_singleton.mpr ⟨rfl, by simp⟩)
    exact hadd.congr rfl rfl
  | define v storage scopes _ =>
    have hadd : (c.add 1 0 [⟨.store, some (.var storage), some (.temp v), none⟩]).Coherent _ :=
      hcoherent.addTemp .void (List.forall_mem_singleton.mpr ⟨rfl, by simp⟩)
    exact hadd.congr rfl rfl
  | array =>
    have hsmall : ts.length < 2 ^ 63 := by
      rw [hlength]
      exact hcount
    exact hcoherent.addArgs hsmall (by simp [isCount_ofNat hsmall]) (by simp)
  | call h _ _ =>
    have hsmall : ts.length < 2 ^ 63 := by
      rw [hlength]
      exact hcount
    exact hcoherent.addArgs hsmall (by simp [isCount_ofNat hsmall]) (by simp)
  | binary l r code _ hcode =>
    exact hcoherent.addTemp _ (List.forall_mem_singleton.mpr ⟨checkDemands_binaryOp? hcode _ l r, by simp⟩)
  | update a code name s _ _ _ =>
    refine hcoherent.addTemp _ (List.forall_mem_cons.mpr ⟨⟨rfl, by simp⟩, ?_⟩)
    exact List.forall_mem_singleton.mpr ⟨rfl, by simp⟩
  | retNothing _ =>
    have hret : (c.add 1 0 [⟨.ret, none, some (.temp ⟨c.temps, .void⟩), none⟩]).Coherent
        (⟨c.temps, .void⟩ :: live) :=
      hcoherent.addTemp _ (List.forall_mem_singleton.mpr ⟨rfl, by simp⟩)
    have hadd := hret.temp (n := 0) .void
    rw [Context.add_add] at hadd
    exact hadd.mono (List.cons_subset_cons _ (List.subset_cons_self _ _))
  | _ => exact hcoherent.addTemp _ (List.forall_mem_singleton.mpr ⟨rfl, by simp⟩)

/-- The code of expressions meets its demands, and each of its temporaries has one type. -/
theorem Lowered.coherent (hlowered : Lowered sigs es c ts c') (hcount : ∀ n ∈ nodesAll es, n.Countable)
    (hcoherent : c.Coherent live) : c'.Coherent (ts ++ live) ∧ ts.length = es.length := by
  induction hlowered generalizing live with
  | nil => exact ⟨hcoherent, rfl⟩
  | @cons _ _ _ t ts _ _ _ _ _ ihfirst ihrest =>
    obtain ⟨hfirst, _⟩ := ihfirst (fun n hn => hcount n (by simp_all [nodesAll])) hcoherent
    obtain ⟨hrest, hlength⟩ := ihrest (fun n hn => hcount n (by simp_all [nodesAll])) hfirst
    refine ⟨hrest.mono ?_, by simp [hlength]⟩
    intro t' ht'
    simp only [List.cons_append, List.mem_cons, List.mem_append, List.nil_append] at ht' ⊢
    tauto
  | strict _ _ _ _ hfinish ih =>
    rw [nodesAll_singleton, hfinish.nodes] at hcount
    obtain ⟨hoperands, hlength⟩ := ih (fun n hn => hcount n (List.mem_cons_of_mem _ hn)) hcoherent
    exact ⟨hfinish.coherent hlength (hcount _ List.mem_cons_self) hoperands, rfl⟩
  | @block _ t ts c c₁ scopes n _ _ hlast ih =>
    rw [nodesAll_singleton, Expr.nodes] at hcount
    obtain ⟨hbody, _⟩ := ih (fun n hn => hcount n (List.mem_cons_of_mem _ hn)) (hcoherent.congr rfl rfl)
    have hleft : Context.Coherent { c₁ with scopes } (ts ++ live) := hbody.congr rfl rfl
    refine ⟨?_, rfl⟩
    rcases hlast with ⟨rfl, hlast⟩ | ⟨rfl, _, rfl⟩
    · rw [Context.add_nothing]
      refine hleft.mono (List.cons_subset.mpr ⟨?_, List.subset_append_right ts live⟩)
      exact List.mem_append_left live (List.mem_of_getLast? hlast)
    · exact (hleft.temp .void).mono (List.cons_subset_cons _ (List.subset_append_right ts live))
  | @shortCircuit op left right l r c c₁ c₂ n _ _ _ _ ihleft ihright =>
    simp only [nodesAll_singleton] at ihleft ihright hcount
    obtain ⟨hleft, _⟩ := ihleft (fun n hn => hcount n (by simp [Expr.nodes, hn])) (hcoherent.temp (n := 1) .bool)
    have hdecide : (c₁.add 0 n (decisionInstrs op ⟨c.temps, .bool⟩ l c.labels c₁.labels)).Coherent
        ([l] ++ ⟨c.temps, .bool⟩ :: live) := by
      refine hleft.add ?_
      unfold decisionInstrs Lower.shortCircuit
      split <;> simp
    obtain ⟨hright, _⟩ := ihright (fun n hn => hcount n (by simp [Expr.nodes, hn])) hdecide
    refine ⟨(hright.add (n := 0) ?_).mono ?_, rfl⟩
    · simp
    · intro t ht
      simp_all
  | when b y c c₁ c₂ _ _ _ ihtest ihyes =>
    simp only [nodesAll_singleton] at ihtest ihyes hcount
    obtain ⟨htest, _⟩ := ihtest (fun n hn => hcount n (by simp [Expr.nodes, hn])) hcoherent
    obtain ⟨hyes, _⟩ := ihyes (fun n hn => hcount n (by simp [Expr.nodes, hn])) (htest.add (by simp))
    refine ⟨(hyes.addTemp .void (by simp)).mono ?_, rfl⟩
    intro t ht
    simp only [List.cons_append, List.nil_append, List.mem_cons] at ht ⊢
    tauto
  | cond b y z c c₁ c₂ c₃ _ _ _ _ ihtest ihyes ihother =>
    simp only [nodesAll_singleton] at ihtest ihyes ihother hcount
    obtain ⟨htest, _⟩ := ihtest (fun n hn => hcount n (by simp [Expr.nodes, hn])) hcoherent
    obtain ⟨hyes, _⟩ := ihyes (fun n hn => hcount n (by simp [Expr.nodes, hn])) (htest.add (by simp))
    obtain ⟨hother, _⟩ := ihother (fun n hn => hcount n (by simp [Expr.nodes, hn]))
      (hyes.addTemp y.ty (by simp))
    refine ⟨(hother.add (n := 0) (by simp)).mono ?_, rfl⟩
    intro t ht
    simp only [List.cons_append, List.nil_append, List.mem_cons] at ht ⊢
    tauto
  | loop b r c c₁ c₂ _ _ ihtest ihbody =>
    simp only [nodesAll_singleton] at ihtest ihbody hcount
    obtain ⟨htest, _⟩ := ihtest (fun n hn => hcount n (by simp [Expr.nodes, hn])) (hcoherent.add (by simp))
    obtain ⟨hbody, _⟩ := ihbody (fun n hn => hcount n (by simp [Expr.nodes, hn])) (htest.add (by simp))
    refine ⟨(hbody.addTemp .void (by simp)).mono ?_, rfl⟩
    intro t ht
    simp only [List.cons_append, List.nil_append, List.mem_cons] at ht ⊢
    tauto

end TreeCompiler.Lower

import Mathlib.SetTheory.Cardinal.Arithmetic
import TreeCompiler.Proofs.Lower.Congruence

namespace TreeCompiler

/-- Gives a symbol and its storage other names. -/
def Symbol.rename (r φ : String → String) (s : Symbol) : Symbol :=
  ⟨r s.name, φ s.storage, s.ty⟩

namespace ScopeTable

variable {r φ : String → String} {t t' : ScopeTable} {name : String}

/-- Gives declared names and their storage other names. -/
def rename (r φ : String → String) (t : ScopeTable) : ScopeTable :=
  ⟨t.scopes.map (·.map (·.rename r φ)), t.taken.map φ⟩

theorem find?_rename (hr : r.Injective) (scope : List Symbol) :
    find? (scope.map (·.rename r φ)) (r name) = (find? scope name).map (·.rename r φ) := by
  have hsame : ((fun s : Symbol => s.name == r name) ∘ Symbol.rename r φ) = fun s => s.name == name := by
    funext s
    exact decide_eq_decide.mpr hr.eq_iff
  rw [find?, List.find?_map, hsame]
  rfl

theorem lookup_rename (hr : r.Injective) {s : Symbol} (hlookup : t.lookup name = .ok s) :
    (t.rename r φ).lookup (r name) = .ok (s.rename r φ) := by
  have hfind : (t.rename r φ).scopes.findSome? (find? · (r name)) =
      (t.scopes.findSome? (find? · name)).map (·.rename r φ) := by
    rw [rename, List.findSome?_map, List.map_findSome?]
    congr 1
    funext scope
    exact find?_rename hr scope
  unfold lookup at hlookup ⊢
  rw [hfind]
  split at hlookup
  · next heq =>
    cases hlookup
    rw [heq]
    rfl
  · cases hlookup

theorem leave_rename (hleave : t.leave = .ok t') : (t.rename r φ).leave = .ok (t'.rename r φ) := by
  obtain ⟨scopes, taken⟩ := t
  cases scopes with
  | nil => cases hleave
  | cons scope outer =>
    cases hleave
    rfl

/-- A declaration under other names succeeds. -/
theorem declare_rename (hr : r.Injective) {storage : String} {ty : Code.Ty}
    (hdeclare : t.declare name ty = .ok (storage, t'))
    (hstorage : φ storage = storageName (t.taken.map φ) (r name)) :
    (t.rename r φ).declare (r name) ty = .ok (φ storage, t'.rename r φ) := by
  obtain ⟨scope, outer, hscopes, hfree, _, rfl⟩ := declare_ok hdeclare
  have hfree' : find? (scope.map (·.rename r φ)) (r name) = none := by rw [find?_rename hr, hfree]; rfl
  have hsymbol : (⟨name, storage, ty⟩ : Symbol).rename r φ = ⟨r name, φ storage, ty⟩ := rfl
  simp only [declare, rename, hscopes, List.map_cons, hfree', hsymbol, ← hstorage]
  rfl

end ScopeTable

namespace Lower

open Code
open TreeCompiler.Tree (Expr Literal Header renameAll)

namespace Context

variable {r φ : String → String} {c d c' : Context}

/-- Gives declared names and their storage other names, also in the code so far. -/
def rename (r φ : String → String) (c : Context) : Context :=
  { c with scopes := c.scopes.rename r φ, code := c.code.map (·.rename φ) }

/-- Storage that was taken in one context is renamed to what was taken in another one. -/
def Links (φ : String → String) (c d : Context) : Prop :=
  c.scopes.taken.map φ = d.scopes.taken

/-- Two contexts differ by names only. -/
structure Paired (r : String → String) (c d : Context) : Prop where
  linked : ∃ φ, c.Links φ d
  nodup : d.scopes.taken.Nodup
  eq : ∀ φ, c.Links φ d → d = c.rename r φ

/-- Contexts without declarations and code are paired with themselves. -/
theorem Paired.start (pool : Array Const) : Paired r { pool } { pool } where
  linked := ⟨id, rfl⟩
  nodup := .nil
  eq φ _ := by simp [rename, ScopeTable.rename]

/-- What a declaration does is determined on the other side. -/
theorem Paired.declare (hr : r.Injective) (hpaired : c.Paired r d) {name storage : String} {ty : Code.Ty}
    {scopes : ScopeTable} (hdeclare : c.scopes.declare name ty = .ok (storage, scopes)) :
    ∃ storage' scopes', d.scopes.declare (r name) ty = .ok (storage', scopes') ∧
      Paired r { c with scopes } { d with scopes := scopes' } ∧
        ∀ φ, Links φ { c with scopes } { d with scopes := scopes' } → c.Links φ d ∧ φ storage = storage' := by
  obtain ⟨scope, outer, _, _, hfresh, hscopes⟩ := ScopeTable.declare_ok hdeclare
  have htaken : scopes.taken = storage :: c.scopes.taken := by rw [hscopes]
  have hrun : ∀ φ, c.Links φ d → φ storage = ScopeTable.storageName d.scopes.taken (r name) →
      d.scopes.declare (r name) ty = .ok (φ storage, scopes.rename r φ) := by
    intro φ hlinks hstorage
    rw [hpaired.eq φ hlinks]
    exact ScopeTable.declare_rename hr hdeclare (by rw [hlinks]; exact hstorage)
  obtain ⟨φ₀, hφ₀⟩ := hpaired.linked
  obtain ⟨φ, hφ⟩ : ∃ φ, φ = Function.update φ₀ storage
      (ScopeTable.storageName d.scopes.taken (r name)) := ⟨_, rfl⟩
  have hstorage : φ storage = ScopeTable.storageName d.scopes.taken (r name) := by rw [hφ, Function.update_self]
  have hlinks : c.Links φ d := by
    rw [Links, ← hφ₀]
    refine List.map_congr_left fun name' hname' => ?_
    rw [hφ, Function.update_of_ne]
    rintro rfl
    exact hfresh hname'
  have hback : ∀ ψ, Links ψ { c with scopes } { d with scopes := scopes.rename r φ } →
      c.Links ψ d ∧ ψ storage = φ storage := by
    intro ψ hψ
    simp only [Links, ScopeTable.rename, htaken, List.map_cons, List.cons.injEq] at hψ
    exact ⟨hψ.2.trans hlinks, hψ.1⟩
  refine ⟨φ storage, scopes.rename r φ, hrun φ hlinks hstorage, ⟨⟨φ, rfl⟩, ?_, fun ψ hψ => ?_⟩, hback⟩
  · simp only [ScopeTable.rename, htaken, List.map_cons, List.nodup_cons]
    rw [show c.scopes.taken.map φ = d.scopes.taken from hlinks]
    exact ⟨hstorage ▸ ScopeTable.storageName_not_mem _ _, hpaired.nodup⟩
  · obtain ⟨hψ, hsame⟩ := hback ψ hψ
    have hboth := (hrun φ hlinks hstorage).symm.trans (hrun ψ hψ (hsame.trans hstorage))
    simp only [Except.ok.injEq, Prod.mk.injEq] at hboth
    rw [hboth.2, hpaired.eq ψ hψ]
    rfl

end Context

namespace LowerM

variable {α β : Type} {r φ : String → String} {m m' : LowerM α} {place place' : Place}

/-- Whenever a computation that declares nothing succeeds, another one succeeds with the same
    result under other names. -/
def Renames (r φ : String → String) (m m' : LowerM α) : Prop :=
  ∀ c a c', m c = .ok (a, c') → c'.scopes.taken = c.scopes.taken ∧ m' (c.rename r φ) = .ok (a, c'.rename r φ)

namespace Renames

theorem pure (a : α) : Renames r φ (Pure.pure a) (Pure.pure a) := by
  intro c b c' h
  obtain ⟨rfl, rfl⟩ := pure_eq_ok_iff.mp h
  exact ⟨rfl, rfl⟩

theorem bind {k k' : α → LowerM β} (hm : Renames r φ m m') (hk : ∀ a, Renames r φ (k a) (k' a)) :
    Renames r φ (m >>= k) (m' >>= k') := by
  intro c b c' h
  obtain ⟨a, c₁, hma, hkb⟩ := bind_eq_ok_iff.mp h
  obtain ⟨htaken, hma'⟩ := hm c a c₁ hma
  obtain ⟨htaken', hkb'⟩ := hk a c₁ b c' hkb
  exact ⟨htaken'.trans htaken, bind_eq_ok_iff.mpr ⟨a, _, hma', hkb'⟩⟩

theorem temp (ty : Code.Ty) : Renames r φ (LowerM.temp ty) (LowerM.temp ty) := by
  rintro c t c' ⟨⟩
  exact ⟨rfl, rfl⟩

theorem label : Renames r φ LowerM.label LowerM.label := by
  rintro c name c' ⟨⟩
  exact ⟨rfl, rfl⟩

theorem pool (k : Const) : Renames r φ (LowerM.pool k) (LowerM.pool k) := by
  rintro c u c' ⟨⟩
  exact ⟨rfl, rfl⟩

theorem enter : Renames r φ LowerM.enter LowerM.enter := by
  rintro c u c' ⟨⟩
  exact ⟨rfl, rfl⟩

theorem leave : Renames r φ LowerM.leave LowerM.leave := by
  intro c u c' h
  obtain ⟨scopes, hleave, rfl⟩ := leave_eq_ok_iff.mp h
  refine ⟨?_, leave_eq_ok_iff.mpr ⟨_, ScopeTable.leave_rename hleave, rfl⟩⟩
  obtain ⟨_, _, _, rfl⟩ := ScopeTable.leave_ok hleave
  rfl

theorem emit (op : Op) (dst src1 src2 : Option Operand) :
    Renames r φ (LowerM.emit op dst src1 src2)
      (LowerM.emit op (dst.map (·.rename φ)) (src1.map (·.rename φ)) (src2.map (·.rename φ))) := by
  rintro c u c' ⟨⟩
  refine ⟨rfl, emit_eq_ok_iff.mpr ?_⟩
  simp [Context.rename, Context.emit, Instr.rename]

theorem lookup (hr : r.Injective) (name : String) {k k' : Symbol → LowerM β}
    (hk : ∀ s, Renames r φ (k s) (k' (s.rename r φ))) :
    Renames r φ (LowerM.lookup name >>= k) (LowerM.lookup (r name) >>= k') := by
  intro c b c' h
  obtain ⟨s, _, hs, hkb⟩ := bind_eq_ok_iff.mp h
  obtain ⟨hs, rfl⟩ := lookup_eq_ok_iff.mp hs
  obtain ⟨htaken, hkb'⟩ := hk s _ b c' hkb
  exact ⟨htaken, bind_eq_ok_iff.mpr ⟨_, _, lookup_eq_ok_iff.mpr
    ⟨ScopeTable.lookup_rename hr hs, rfl⟩, hkb'⟩⟩

end Renames

/-- Whenever a computation succeeds, another one succeeds with the same result in a paired context,
    and the contexts stay paired. -/
def Pairs (r : String → String) (m m' : LowerM α) : Prop :=
  ∀ c d a c', c.Paired r d → m c = .ok (a, c') →
    ∃ d', m' d = .ok (a, d') ∧ c'.Paired r d' ∧ ∀ φ, c'.Links φ d' → c.Links φ d

namespace Pairs

/-- Contexts stay paired where nothing is declared. -/
theorem of_taken {c d c' : Context} {a : α} (hpaired : c.Paired r d) (htaken : c'.scopes.taken = c.scopes.taken)
    (hrun : ∀ φ, c.Links φ d → m' d = .ok (a, c'.rename r φ)) :
    ∃ d', m' d = .ok (a, d') ∧ c'.Paired r d' ∧ ∀ φ, c'.Links φ d' → c.Links φ d := by
  obtain ⟨φ, hφ⟩ := hpaired.linked
  have hback : ∀ ψ, c'.Links ψ (c'.rename r φ) → c.Links ψ d := by
    intro ψ hψ
    rw [Context.Links, htaken, Context.rename, ScopeTable.rename] at hψ
    exact hψ.trans ((congrArg _ htaken).trans hφ)
  refine ⟨c'.rename r φ, hrun φ hφ, ⟨⟨φ, rfl⟩, ?_, fun ψ hψ => ?_⟩, hback⟩
  · rw [Context.rename, ScopeTable.rename, htaken, show c.scopes.taken.map φ = d.scopes.taken from hφ]
    exact hpaired.nodup
  · have hboth := (hrun φ hφ).symm.trans (hrun ψ (hback ψ hψ))
    rw [Except.ok.injEq, Prod.mk.injEq] at hboth
    exact hboth.2

theorem of_renames (hm : ∀ φ, Renames r φ m m') : Pairs r m m' := by
  intro c d a c' hpaired hrun
  refine of_taken hpaired (hm id c a c' hrun).1 fun φ hφ => ?_
  rw [hpaired.eq φ hφ]
  exact (hm φ c a c' hrun).2

theorem pure (a : α) : Pairs r (Pure.pure a) (Pure.pure a) :=
  of_renames fun _ => .pure a

theorem fail (cause : Cause) : Pairs r (LowerM.fail cause) m' := by
  intro c d a c' _ h
  exact (fail_ne_ok c h).elim

theorem bind {k k' : α → LowerM β} (hm : Pairs r m m') (hk : ∀ a, Pairs r (k a) (k' a)) :
    Pairs r (m >>= k) (m' >>= k') := by
  intro c d b c' hpaired h
  obtain ⟨a, c₁, hma, hkb⟩ := bind_eq_ok_iff.mp h
  obtain ⟨d₁, hma', hpaired₁, hback₁⟩ := hm c d a c₁ hpaired hma
  obtain ⟨d', hkb', hpaired', hback'⟩ := hk a c₁ d₁ b c' hpaired₁ hkb
  exact ⟨d', bind_eq_ok_iff.mpr ⟨a, d₁, hma', hkb'⟩, hpaired', fun φ hφ => hback₁ φ (hback' φ hφ)⟩

theorem within (hm : Pairs r m m') : Pairs r (LowerM.within place m) (LowerM.within place' m') := by
  intro c d a c' hpaired h
  obtain ⟨d', hrun, hpaired'⟩ := hm c d a c' hpaired (within_eq_ok_iff.mp h)
  exact ⟨d', within_eq_ok_iff.mpr hrun, hpaired'⟩

theorem temp (ty : Code.Ty) : Pairs r (LowerM.temp ty) (LowerM.temp ty) :=
  of_renames fun _ => .temp ty

theorem label : Pairs r LowerM.label LowerM.label :=
  of_renames fun _ => .label

/-- Instructions without variables are the same under all names. -/
theorem emit {op : Op} {dst src1 src2 : Option Operand}
    (hx : ∀ φ, (⟨op, dst, src1, src2⟩ : Instr).rename φ = ⟨op, dst, src1, src2⟩) :
    Pairs r (LowerM.emit op dst src1 src2) (LowerM.emit op dst src1 src2) := by
  refine of_renames fun φ => ?_
  have hemit := Renames.emit (r := r) (φ := φ) op dst src1 src2
  have hx := hx φ
  simp only [Instr.rename, Instr.mk.injEq] at hx
  rwa [hx.2.1, hx.2.2.1, hx.2.2.2] at hemit

/-- A declaration whose storage is used at once. -/
theorem declare (hr : r.Injective) (name : String) (ty : Code.Ty) {k k' : String → LowerM α}
    (hk : ∀ φ storage, Renames r φ (k storage) (k' (φ storage))) :
    Pairs r (LowerM.declare name ty >>= k) (LowerM.declare (r name) ty >>= k') := by
  intro c d a c' hpaired h
  obtain ⟨storage, _, hdeclare, hka⟩ := bind_eq_ok_iff.mp h
  obtain ⟨scopes, hscopes, rfl⟩ := declare_eq_ok_iff.mp hdeclare
  obtain ⟨storage', scopes', hscopes', hpaired₁, hback₁⟩ := hpaired.declare hr hscopes
  have hrun : ∀ φ, Context.Links φ { c with scopes } { d with scopes := scopes' } →
      k' storage' { d with scopes := scopes' } = .ok (a, c'.rename r φ) := by
    intro φ hφ
    rw [hpaired₁.eq φ hφ, ← (hback₁ φ hφ).2]
    exact (hk φ storage _ a c' hka).2
  obtain ⟨d', hrun', hpaired', hback'⟩ := of_taken hpaired₁ (hk id storage _ a c' hka).1 hrun
  have hdeclare' : LowerM.declare (r name) ty d = .ok (storage', { d with scopes := scopes' }) :=
    declare_eq_ok_iff.mpr ⟨scopes', hscopes', rfl⟩
  exact ⟨d', bind_eq_ok_iff.mpr ⟨storage', _, hdeclare', hrun'⟩, hpaired', fun φ hφ =>
    (hback₁ φ (hback' φ hφ)).1⟩

end Pairs

end LowerM

open LowerM (Pairs Renames)

variable {r : String → String}

/-- Gives the parameters of the functions of a program other names. -/
def Signatures.rename (r : String → String) (sigs : Signatures) : Signatures :=
  sigs.map fun sig => (sig.1, sig.2.rename r)

theorem lookup_renameSigs (sigs : Signatures) (name : String) :
    (sigs.rename r).lookup name = (sigs.lookup name).map (·.rename r) := by
  induction sigs with
  | nil => rfl
  | cons sig sigs ih =>
    rw [Signatures.rename, List.map_cons, List.lookup_cons, List.lookup_cons]
    split
    · rfl
    · exact ih

/-- What is done under other names is kept by all steps of lowering. -/
theorem LowerM.Pairs.congruence (hr : r.Injective) : LowerM.Congruence r fun _ m m' => Pairs r m m' where
  pure := .pure
  bind := .bind
  within hm := .within hm
  fail _ _ := .fail _
  temp := .temp
  label := .label
  pool k := .of_renames fun _ => .pool k
  enter := .of_renames fun _ => .enter
  leave := .of_renames fun _ => .leave
  emit := .emit
  load name := .of_renames fun _ => .lookup hr name fun s => .bind (.temp s.ty) fun t =>
    .bind (.emit .load (some (.temp t)) (some (.var s.storage)) none) fun _ => .pure t
  store name v := .of_renames fun _ => .lookup hr name fun s =>
    .emit .store (some (.var s.storage)) (some (.temp v)) none
  define name ty v := .declare hr name ty fun _ storage => .emit .store (some (.var storage)) (some (.temp v)) none

/-- An expression is lowered to the same code under all names of its variables, but for the names
    of storage. -/
theorem lowerExpr_pairs (hr : r.Injective) (sigs : Signatures) (e : Expr) :
    Pairs r (lowerExpr sigs e) (lowerExpr (sigs.rename r) (e.rename r)) := by
  have hfollowed : Followed (fun _ m m' => Pairs r m m') sigs (sigs.rename r) e.WellFormed e.nodes := by
    refine ⟨.inl fun _ _ => .fail _, fun name args h _ hheader => ?_⟩
    rw [lookup_renameSigs, hheader]
    exact ⟨List.length_map .., rfl⟩
  exact lowerExpr_related (LowerM.Pairs.congruence hr) e hfollowed

variable {c d c' : Context} {h : Header} {f : Code.Func} {sigs : Signatures} {es : List Expr}
  {s s' s₁ : Session} {index : Nat}

/-- Parameters are declared under all names. -/
theorem lowerParams_pairs (hr : r.Injective) {ps : List Tree.Param} {qs : List Code.Param}
    (hpaired : c.Paired r d) (hrun : lowerParams ps c = .ok (qs, c')) :
    ∃ qs' d', lowerParams (ps.map (·.rename r)) d = .ok (qs', d') ∧ c'.Paired r d' ∧
      ∀ φ, c'.Links φ d' → c.Links φ d ∧ qs' = qs.map (·.rename φ) := by
  induction ps generalizing c d qs with
  | nil =>
    obtain ⟨rfl, rfl⟩ := LowerM.pure_eq_ok_iff.mp hrun
    exact ⟨[], d, rfl, hpaired, fun φ hφ => ⟨hφ, rfl⟩⟩
  | cons p ps ih =>
    simp only [lowerParams, LowerM.bind_eq_ok_iff, LowerM.within_eq_ok_iff, LowerM.declare_eq_ok_iff,
      LowerM.pure_eq_ok_iff] at hrun
    obtain ⟨storage, _, ⟨scopes, hdeclare, rfl⟩, rest, _, hrest, rfl, rfl⟩ := hrun
    obtain ⟨storage', scopes', hdeclare', hpaired₁, hback₁⟩ := hpaired.declare hr hdeclare
    obtain ⟨rest', d', hrest', hpaired', hback'⟩ := ih hpaired₁ hrest
    refine ⟨⟨some (.var storage'), lowerTy p.ty⟩ :: rest', d', ?_, hpaired', fun φ hφ => ?_⟩
    · simp only [lowerParams, List.map_cons, LowerM.bind_eq_ok_iff, LowerM.within_eq_ok_iff,
        LowerM.declare_eq_ok_iff, LowerM.pure_eq_ok_iff]
      exact ⟨storage', _, ⟨scopes', hdeclare', rfl⟩, rest', d', hrest', rfl, rfl⟩
    · obtain ⟨hlinks, rfl⟩ := hback' φ hφ
      obtain ⟨hlinks, rfl⟩ := hback₁ φ hlinks
      exact ⟨hlinks, rfl⟩

/-- Storage names that are paired one by one are paired by an injective function on all names. -/
theorem Context.Paired.exists_injective (hpaired : c.Paired r d) :
    ∃ φ : String → String, φ.Injective ∧ c.Links φ d := by
  obtain ⟨φ, hφ⟩ := hpaired.linked
  have hnodup : (c.scopes.taken.map φ).Nodup := by
    rw [show c.scopes.taken.map φ = d.scopes.taken from hφ]
    exact hpaired.nodup
  have hinj := List.inj_on_of_nodup_map hnodup
  have hfinite : Finite { name // name ∈ c.scopes.taken } := c.scopes.taken.finite_toSet
  have hcard : Cardinal.mk { name // name ∈ c.scopes.taken } < Cardinal.mk String :=
    (Cardinal.lt_aleph0_of_finite _).trans_le (Cardinal.aleph0_le_mk String)
  have hembed : Function.Injective fun name : { name // name ∈ c.scopes.taken } => φ name :=
    fun x y heq => Subtype.ext (hinj x.2 y.2 heq)
  obtain ⟨ψ, hψ⟩ := Cardinal.extend_function_of_lt ⟨_, hembed⟩ hcard ⟨.refl String⟩
  refine ⟨ψ, ψ.injective, ?_⟩
  rw [Context.Links, ← hφ]
  exact List.map_congr_left fun name hname => hψ ⟨name, hname⟩

/-- Leaves the scope of the parameters and puts a function together. -/
def closeFunc (h : Header) (params : List Code.Param) (code : List Instr) : LowerM Code.Func := do
  LowerM.within .paramsScope LowerM.leave
  return { name := h.name, params, code, ret := lowerTy h.ret, isPublic := h.isPublic, isExternal := h.isExternal }

theorem closeFunc_pairs {params params' : List Code.Param} {code code' : List Instr}
    (hpaired : c.Paired r d)
    (hsame : ∀ φ, c.Links φ d → params' = params.map (·.rename φ) ∧ code' = code.map (·.rename φ))
    (hrun : closeFunc h params code c = .ok (f, c')) :
    ∃ f' d', closeFunc (h.rename r) params' code' d = .ok (f', d') ∧ f.Variant f' ∧ d'.pool = c'.pool := by
  have hleave : Pairs r (LowerM.within .paramsScope LowerM.leave) (LowerM.within .paramsScope LowerM.leave) :=
    .within (.of_renames fun _ => .leave)
  obtain ⟨u, c₁, hc₁, hf⟩ := LowerM.bind_eq_ok_iff.mp hrun
  obtain ⟨rfl, rfl⟩ := LowerM.pure_eq_ok_iff.mp hf
  obtain ⟨d₁, hd₁, hpaired₁, hback⟩ := hleave _ _ _ _ hpaired hc₁
  obtain ⟨φ, hφ, hlinks⟩ := hpaired₁.exists_injective
  obtain ⟨rfl, rfl⟩ := hsame φ (hback φ hlinks)
  refine ⟨_, d₁, LowerM.bind_eq_ok_iff.mpr ⟨u, d₁, hd₁, rfl⟩, ⟨φ, hφ, rfl⟩, ?_⟩
  rw [hpaired₁.eq φ hlinks]
  rfl

/-- A function is lowered under all names, to code that differs by the names of storage only. -/
theorem lowerFunc_pairs (hr : r.Injective) {body : Expr} {pool : Array Const}
    (hrun : lowerFunc sigs h body { pool } = .ok (f, c)) :
    ∃ f' d, lowerFunc (sigs.rename r) (h.rename r) (body.rename r) { pool } = .ok (f', d) ∧ f.Variant f' ∧
      d.pool = c.pool := by
  have henter : Pairs r LowerM.enter LowerM.enter := .of_renames fun _ => .enter
  simp only [lowerFunc, LowerM.bind_eq_ok_iff, Expr.isMissing_rename] at hrun ⊢
  obtain ⟨u, c₁, hc₁, params, c₂, hc₂, hrun⟩ := hrun
  obtain ⟨d₁, hd₁, hpaired₁, _⟩ := henter _ _ _ _ (.start pool) hc₁
  obtain ⟨params', d₂, hd₂, hpaired₂, hparams⟩ := lowerParams_pairs hr hpaired₁ hc₂
  have hexternal : (h.rename r).isExternal = h.isExternal := rfl
  rw [hexternal]
  split at hrun
  · next hext =>
    have hclose : closeFunc h params [] c₂ = .ok (f, c) := hrun
    obtain ⟨f', d, hd, hvariant⟩ := closeFunc_pairs hpaired₂ (fun φ hφ => ⟨(hparams φ hφ).2, rfl⟩) hclose
    exact ⟨f', d, ⟨u, d₁, hd₁, params', d₂, hd₂, by rw [if_pos hext]; exact hd⟩, hvariant⟩
  · next hext =>
    split at hrun
    · obtain ⟨_, _, hfail, _⟩ := LowerM.bind_eq_ok_iff.mp hrun
      exact (LowerM.fail_ne_ok c₂ hfail).elim
    · next hbody =>
      obtain ⟨result, c₃, hc₃, hrun⟩ := LowerM.bind_eq_ok_iff.mp hrun
      obtain ⟨u', c₄, hc₄, hrun⟩ := LowerM.bind_eq_ok_iff.mp hrun
      have hemit : Pairs r (LowerM.emit .ret none (some (.temp result)) none)
          (LowerM.emit .ret none (some (.temp result)) none) := .emit fun _ => rfl
      obtain ⟨d₃, hd₃, hpaired₃, hback₃⟩ := (lowerExpr_pairs hr sigs body).within _ _ _ _ hpaired₂ hc₃
      obtain ⟨d₄, hd₄, hpaired₄, hback₄⟩ := hemit _ _ _ _ hpaired₃ hc₄
      have hclose : closeFunc h params c₄.code.toList c₄ = .ok (f, c) := hrun
      have hsame : ∀ φ, c₄.Links φ d₄ →
          params' = params.map (·.rename φ) ∧ d₄.code.toList = c₄.code.toList.map (·.rename φ) := by
        intro φ hφ
        refine ⟨(hparams φ (hback₃ φ (hback₄ φ hφ))).2, ?_⟩
        rw [hpaired₄.eq φ hφ, Context.rename, Array.toList_map]
      obtain ⟨f', d, hd, hvariant⟩ := closeFunc_pairs hpaired₄ hsame hclose
      refine ⟨f', d, ⟨u, d₁, hd₁, params', d₂, hd₂, ?_⟩, hvariant⟩
      rw [if_neg hext, if_neg hbody]
      exact LowerM.bind_eq_ok_iff.mpr ⟨result, d₃, hd₃, LowerM.bind_eq_ok_iff.mpr ⟨u', d₄, hd₄, hd⟩⟩

theorem collect_rename {sigs' : Signatures} (hcollect : collect sigs es = .ok sigs') :
    collect (sigs.rename r) (renameAll r es) = .ok (sigs'.rename r) := by
  induction es generalizing sigs with
  | nil =>
    cases hcollect
    simp [renameAll, collect]
  | cons e es ih =>
    cases e with
    | func h body =>
      have hname : (h.rename r).name = h.name := rfl
      simp only [renameAll, Expr.rename, collect, lookup_renameSigs, Option.isSome_map, hname] at hcollect ⊢
      split at hcollect
      · cases hcollect
      · next hnew =>
        rw [if_neg hnew]
        exact ih hcollect
    | _ =>
      simp only [renameAll, Expr.rename, collect] at hcollect ⊢
      exact ih hcollect

/-- Two sessions have lowered the same functions, but for names. -/
structure Session.Variant (r : String → String) (s s' : Session) : Prop where
  funcs : List.Forall₂ Code.Func.Variant s.funcs.toList s'.funcs.toList
  pool : s'.pool = s.pool
  sigs : s'.sigs = s.sigs.rename r

theorem Session.Variant.item (hr : r.Injective) (hvariant : s.Variant r s') {e : Expr}
    (hitem : s.item index e = .ok s₁) :
    ∃ s₁', s'.item index (e.rename r) = .ok s₁' ∧ s₁.Variant r s₁' := by
  cases e with
  | func h body =>
    obtain ⟨⟨f, c⟩, hf, hs₁⟩ := bind_eq_ok_iff.mp hitem
    cases hs₁
    obtain ⟨f', d, hf', hfunc, hpool⟩ := lowerFunc_pairs hr (mapError_eq_ok_iff.mp hf)
    rw [← hvariant.pool, ← hvariant.sigs] at hf'
    refine ⟨{ s' with funcs := s'.funcs.push f', pool := d.pool }, ?_, ?_, hpool, hvariant.sigs⟩
    · exact bind_eq_ok_iff.mpr ⟨(f', d), mapError_eq_ok_iff.mpr hf', rfl⟩
    · simp only [Array.toList_push]
      exact List.rel_append hvariant.funcs (.cons hfunc .nil)
  | literal l =>
    simp only [Session.item, Expr.rename] at hitem ⊢
    split at hitem
    · cases hitem
      exact ⟨_, rfl, hvariant.funcs, by rw [hvariant.pool], hvariant.sigs⟩
    · cases hitem
  | _ => cases hitem

theorem Session.Variant.items (hr : r.Injective) (hvariant : s.Variant r s')
    (hitems : s.items index es = (.ok (), s₁)) :
    ∃ s₁', s'.items index (renameAll r es) = (.ok (), s₁') ∧ s₁.Variant r s₁' := by
  induction es generalizing s s' index with
  | nil =>
    cases hitems
    exact ⟨s', by simp [renameAll, Session.items], hvariant⟩
  | cons e es ih =>
    obtain ⟨s₂, hitem, hrest⟩ := items_cons_ok hitems
    obtain ⟨s₂', hitem', hvariant'⟩ := hvariant.item hr hitem
    rw [renameAll, Session.items, hitem']
    exact ih hvariant' hrest

/-- A program is lowered under all names, to code that differs by the names of storage only. -/
theorem lowerProgram_variant (hr : r.Injective) {prog : Tree.Program} {p : Code.Program}
    (hlower : lowerProgram prog = .ok p) : ∃ p', lowerProgram (prog.rename r) = .ok p' ∧ p.Variant p' := by
  obtain ⟨sigs, s, hcollect, hitems, rfl⟩ := lowerProgram_eq_ok_iff.mp hlower
  have hstart : Session.Variant r { sigs } { sigs := sigs.rename r } := ⟨.nil, rfl, rfl⟩
  obtain ⟨s', hitems', hvariant⟩ := hstart.items hr hitems
  exact ⟨_, lowerProgram_eq_ok_iff.mpr ⟨_, s', collect_rename hcollect, hitems', rfl⟩, by rw [hvariant.pool],
    hvariant.funcs⟩

end Lower

end TreeCompiler

import TreeCompiler.Proofs.Lower.Derivation
import TreeCompiler.Proofs.Lower.Scopes

namespace TreeCompiler.Lower

open Code
open TreeCompiler.Tree (Expr Literal Header declaredAll)

/-- An instruction places a generated label. -/
def Places (k : Nat) (x : Instr) : Prop :=
  x.op = .label ∧ x.dst = some (.label ("L" ++ toString k))

variable {k : Nat} {x : Instr} {op : String}

theorem Places.eq {k' : Nat} (hplaces : Places k x) (hplaces' : Places k' x) : k = k' := by
  have hdst := hplaces.2.symm.trans hplaces'.2
  simp only [Option.some.injEq, Operand.label.injEq, String.append_right_inj] at hdst
  exact numeral_inj hdst

theorem not_places (hop : x.op ≠ .label) : ¬ Places k x :=
  fun hplaces => hop hplaces.1

theorem not_places_userLabel {name : String} {src1 src2 : Option Operand} :
    ¬ Places k ⟨.label, some (userLabel name), src1, src2⟩ := by
  rintro ⟨_, heq⟩
  have hlist := congrArg String.toList (Operand.label.inj (Option.some.inj heq))
  simp [String.toList_append] at hlist

theorem not_places_argInstrs {ts : List Temp} {index : Nat}
    (hx : x ∈ argInstrs index ts) : ¬ Places k x := by
  induction ts generalizing index with
  | nil => cases hx
  | cons t ts ih =>
    rcases List.mem_cons.mp hx with rfl | hx
    · exact not_places (by simp)
    · exact ih hx

/-- A context comes from another one by lowering what declares some names. -/
structure Context.Grows (base : Nat) (c c' : Context) (names : List String) : Prop where
  scopes : ∃ added, added.map Symbol.name = names ∧ c.scopes.Grows c'.scopes added
  temps : c.temps ≤ c'.temps
  labels : c.labels ≤ c'.labels
  code : ∃ added, c'.code.toList = c.code.toList ++ added ∧
    ∀ x ∈ added, ∀ k, Places k x → base ≤ k ∧ k < c'.labels

namespace Context.Grows

variable {base base' : Nat} {c c' c'' : Context} {names names' : List String}

theorem refl (c : Context) : c.Grows base c [] :=
  ⟨⟨[], rfl, .refl _⟩, Nat.le_refl _, Nat.le_refl _, [], by simp, by simp⟩

theorem trans (hgrows : c.Grows base c' names) (hgrows' : c'.Grows base c'' names') :
    c.Grows base c'' (names' ++ names) := by
  obtain ⟨added, rfl, hscopes⟩ := hgrows.scopes
  obtain ⟨added', rfl, hscopes'⟩ := hgrows'.scopes
  obtain ⟨xs, hxs, hplaced⟩ := hgrows.code
  obtain ⟨ys, hys, hplaced'⟩ := hgrows'.code
  refine ⟨⟨added' ++ added, List.map_append, hscopes.trans hscopes'⟩,
    Nat.le_trans hgrows.temps hgrows'.temps, Nat.le_trans hgrows.labels hgrows'.labels,
    xs ++ ys, by rw [hys, hxs, List.append_assoc], fun x hx k hk => ?_⟩
  rcases List.mem_append.mp hx with hx | hx
  · obtain ⟨hlow, hhigh⟩ := hplaced x hx k hk
    exact ⟨hlow, Nat.lt_of_lt_of_le hhigh hgrows'.labels⟩
  · exact hplaced' x hx k hk

theorem of_le (hgrows : c.Grows base c' names) (hle : base' ≤ base) : c.Grows base' c' names := by
  obtain ⟨xs, hxs, hplaced⟩ := hgrows.code
  refine ⟨hgrows.scopes, hgrows.temps, hgrows.labels, xs, hxs, fun x hx k hk => ?_⟩
  obtain ⟨hlow, hhigh⟩ := hplaced x hx k hk
  exact ⟨Nat.le_trans hle hlow, hhigh⟩

variable {m n : Nat} {xs : List Instr}

theorem add
    (hplaced : ∀ x ∈ xs, ∀ k, Places k x → base ≤ k ∧ k < c.labels + n) :
    c.Grows base (c.add m n xs) [] :=
  ⟨⟨[], rfl, .refl _⟩, Nat.le_add_right .., Nat.le_add_right .., xs, by simp, hplaced⟩

/-- Code without labels is added. -/
theorem addPlain (hplain : ∀ x ∈ xs, x.op ≠ .label) :
    c.Grows base (c.add m n xs) [] :=
  add fun x hx _ hk => absurd hk (not_places (hplain x hx))

/-- Code with one label is added. -/
theorem addLabel {k : Nat} (hplaced : ∀ x ∈ xs, x.op = .label → Places k x)
    (hlow : base ≤ k) (hhigh : k < c.labels + n) : c.Grows base (c.add m n xs) [] := by
  refine add fun x hx k' hk' => ?_
  obtain rfl := hk'.eq (hplaced x hx hk'.1)
  exact ⟨hlow, hhigh⟩

theorem declare {name storage : String} {ty : Code.Ty} {scopes : ScopeTable}
    (hdeclare : c.scopes.declare name ty = .ok (storage, scopes)) :
    c.Grows base { c with scopes } [name] :=
  ⟨⟨_, rfl, .declare hdeclare⟩, Nat.le_refl _, Nat.le_refl _, [], by simp, by simp⟩

theorem pool {pool : Array Const} (hgrows : c.Grows base c' names) : c.Grows base { c' with pool } names :=
  ⟨hgrows.scopes, hgrows.temps, hgrows.labels, hgrows.code⟩

theorem block {scopes : ScopeTable} (hgrows : Grows base { c with scopes := c.scopes.enter } c' names)
    (hleave : c'.scopes.leave = .ok scopes) : c.Grows base { c' with scopes } [] := by
  obtain ⟨added, _, hscopes⟩ := hgrows.scopes
  exact ⟨⟨[], rfl, (hscopes.block hleave).2.2.2⟩, hgrows.temps, hgrows.labels, hgrows.code⟩

end Context.Grows

theorem op_ne_label_of_binaryOp? {code : Op} (hop : binaryOp? op = some code) :
    code ≠ .label := by
  rcases cases_of_binaryOp? hop with ⟨_, rfl⟩ | ⟨_, rfl⟩ <;> simp

theorem shortCircuit_placed {result : Temp} {done other : String}
    (hx : x ∈ shortCircuit op result done other) (hop : x.op = .label) :
    op ≠ "&&" ∧ x.dst = some (.label other) := by
  unfold shortCircuit at hx
  split at hx
  · simp only [List.mem_singleton] at hx
    simp [hx] at hop
  · next hor =>
    simp only [List.mem_cons, List.not_mem_nil, or_false] at hx
    refine ⟨hor, ?_⟩
    rcases hx with rfl | rfl | rfl
    · cases hop
    · cases hop
    · rfl

theorem Context.Grows.shortCircuit {c : Context} {base m n done : Nat} {t l : Temp}
    (hn : op = "&&" ∧ n = 0 ∨ op ≠ "&&" ∧ n = 1) (hbase : base ≤ c.labels) :
    c.Grows base (c.add m n (decisionInstrs op t l done c.labels)) [] := by
  refine .add fun x hx k hk => ?_
  rcases List.mem_cons.mp hx with rfl | hx
  · exact absurd hk (not_places (by simp [truthInstr]))
  · obtain ⟨hor, hdst⟩ := shortCircuit_placed hx hk.1
    obtain rfl := hk.eq ⟨hk.1, hdst⟩
    obtain ⟨_, rfl⟩ := hn.resolve_left fun hand => hor hand.1
    omega

theorem Context.Grows.addArgs {c : Context} {base m n index : Nat} {ts : List Temp}
    (hop : x.op ≠ .label) : c.Grows base (c.add m n (argInstrs index ts ++ [x])) [] := by
  refine .add fun y hy k hk => ?_
  rcases List.mem_append.mp hy with hy | hy
  · exact absurd hk (not_places_argInstrs hy)
  · exact absurd hk (not_places (List.mem_singleton.mp hy ▸ hop))

variable {sigs : Signatures} {e : Expr} {es : List Expr} {c c' : Context} {t : Temp} {ts : List Temp}

theorem Finishes.id_lt (hfinish : Finishes sigs e es ts c t c') : t.id < c'.temps := by
  cases hfinish <;> exact Int.ofNat_lt.mpr (Nat.lt_succ_self _)

/-- Behind its operands, an expression adds what it declares itself and code without generated
    labels. -/
theorem Finishes.grows (hfinish : Finishes sigs e es ts c t c') (base : Nat) :
    ∃ names, c.Grows base c' names ∧ e.declared = names ++ declaredAll es := by
  cases hfinish with
  | constant _ _ => exact ⟨[], (Context.Grows.addPlain (by simp)).pool, by simp [Expr.declared, declaredAll]⟩
  | define _ _ _ hdeclare =>
    exact ⟨[_], (Context.Grows.declare hdeclare).trans (.addPlain (by simp)), by simp [Expr.declared, declaredAll]⟩
  | array | call _ _ _ => exact ⟨[], .addArgs (by simp), by simp [Expr.declared]⟩
  | binary _ _ _ _ hcode =>
    exact ⟨[], .addPlain (by simpa using op_ne_label_of_binaryOp? hcode), by simp [Expr.declared, declaredAll]⟩
  | retNothing hmissing | exitNothing hmissing =>
    refine ⟨[], .addPlain (by simp), ?_⟩
    rw [Expr.declared, Expr.declared_of_isMissing hmissing, declaredAll, List.append_nil]
  | label =>
    refine ⟨[], .add fun x hx k hk => ?_, by simp [Expr.declared, declaredAll]⟩
    exact absurd (List.mem_singleton.mp hx ▸ hk) not_places_userLabel
  | _ => exact ⟨[], .addPlain (by simp), by simp [Expr.declared, declaredAll]⟩

/-- Lowering expressions adds what they declare to the innermost scope and code to the end, with
    labels and temporaries of its own. -/
theorem Lowered.grows (hlowered : Lowered sigs es c ts c') :
    c.Grows c.labels c' (declaredAll es) ∧ ∀ t ∈ ts, t.id < c'.temps := by
  induction hlowered with
  | nil => exact ⟨.refl _, by simp⟩
  | cons _ _ ihfirst ihrest =>
    obtain ⟨hfirst, hid⟩ := ihfirst
    obtain ⟨hrest, hids⟩ := ihrest
    refine ⟨?_, fun t ht => ?_⟩
    · simpa [declaredAll] using hfirst.trans (hrest.of_le hfirst.labels)
    · rcases List.mem_cons.mp ht with rfl | ht
      · have htemps := hrest.temps
        have hbelow := hid t (by simp)
        omega
      · exact hids t ht
  | strict _ _ _ _ hfinish ih =>
    obtain ⟨names, hgrows, hdeclared⟩ := hfinish.grows _
    refine ⟨?_, by simpa using hfinish.id_lt⟩
    rw [declaredAll, declaredAll, List.nil_append, hdeclared]
    exact ih.1.trans hgrows
  | block _ _ _ _ _ _ hleave hlast ih =>
    refine ⟨(Context.Grows.block ih.1 hleave).trans (.addPlain (by simp)), ?_⟩
    rcases hlast with ⟨rfl, hlast⟩ | ⟨rfl, _, rfl⟩
    · simpa using ih.2 _ (List.mem_of_getLast? hlast)
    · exact List.forall_mem_singleton.mpr (Int.ofNat_lt.mpr (Nat.lt_succ_self _))
  | @shortCircuit op _ _ l r c c₁ c₂ n _ hn _ _ ihleft ihright =>
    have hlabels := ihleft.1.labels
    have hlabels' := ihright.1.labels
    have htemps := ihleft.1.temps
    have htemps' := ihright.1.temps
    simp only [Context.add_labels, Context.add_temps] at hlabels hlabels' htemps htemps'
    refine ⟨?_, by simp; omega⟩
    have hstart : c.Grows c.labels (c.add 1 1 []) [] := .addPlain (by simp)
    have hmiddle : c₁.Grows c.labels (c₁.add 0 n
        (decisionInstrs op ⟨c.temps, .bool⟩ l c.labels c₁.labels)) [] :=
      .shortCircuit hn (by omega)
    have hend : c₂.Grows c.labels (c₂.add 0 0 [truthInstr ⟨c.temps, .bool⟩ r, labelInstr c.labels]) [] :=
      .addLabel (by simp [truthInstr, Places]) (Nat.le_refl _) (by omega)
    simpa [declaredAll, Expr.declared] using (((hstart.trans (ihleft.1.of_le (by simp))).trans hmiddle).trans
      (ihright.1.of_le (by simp only [Context.add_labels]; omega))).trans hend
  | when b y c c₁ c₂ hno _ _ ihtest ihyes =>
    have hlabels := ihtest.1.labels
    have hlabels' := ihyes.1.labels
    simp only [Context.add_labels] at hlabels'
    refine ⟨?_, List.forall_mem_singleton.mpr (Int.ofNat_lt.mpr (Nat.lt_succ_self _))⟩
    have hend : c₂.Grows c.labels (c₂.add 1 0 [labelInstr c₁.labels]) [] :=
      .addLabel (by simp [Places]) hlabels (by omega)
    simpa [declaredAll, Expr.declared, Expr.declared_of_isMissing hno] using
      ((ihtest.1.trans (.addPlain (by simp))).trans
        (ihyes.1.of_le (by simp only [Context.add_labels]; omega))).trans hend
  | cond b y z c c₁ c₂ c₃ _ _ _ _ ihtest ihyes ihno =>
    have hlabels := ihtest.1.labels
    have hlabels' := ihyes.1.labels
    have hlabels'' := ihno.1.labels
    have htemps := ihno.1.temps
    simp only [Context.add_labels, Context.add_temps] at hlabels' hlabels'' htemps
    refine ⟨?_, by simp; omega⟩
    have hmiddle : c₂.Grows c.labels (c₂.add 1 0
        [moveInstr ⟨c₂.temps, y.ty⟩ (.temp y),
        jumpInstr (c₁.labels + 1), labelInstr c₁.labels]) [] :=
      .addLabel (by simp [Places]) hlabels (by omega)
    have hend : c₃.Grows c.labels (c₃.add 0 0
        [moveInstr ⟨c₂.temps, y.ty⟩ (.temp z),
        labelInstr (c₁.labels + 1)]) [] :=
      .addLabel (by simp [Places]) (Nat.le_succ_of_le hlabels) (by omega)
    simpa [declaredAll, Expr.declared] using ((((ihtest.1.trans (.addPlain (by simp))).trans
      (ihyes.1.of_le (by simp only [Context.add_labels]; omega))).trans hmiddle).trans
        (ihno.1.of_le (by simp only [Context.add_labels]; omega))).trans hend
  | loop b r c c₁ c₂ _ _ ihtest ihbody =>
    have hlabels := ihtest.1.labels
    have hlabels' := ihbody.1.labels
    simp only [Context.add_labels] at hlabels hlabels'
    refine ⟨?_, List.forall_mem_singleton.mpr (Int.ofNat_lt.mpr (Nat.lt_succ_self _))⟩
    have hstart : c.Grows c.labels (c.add 0 2 [labelInstr c.labels]) [] :=
      .addLabel (by simp [Places]) (Nat.le_refl _) (by omega)
    have hend : c₂.Grows c.labels (c₂.add 1 0 [jumpInstr c.labels, labelInstr (c.labels + 1)]) [] :=
      .addLabel (by simp [Places]) (Nat.le_succ _) (by omega)
    simpa [declaredAll, Expr.declared] using (((hstart.trans (ihtest.1.of_le (by simp))).trans
      (.addPlain (by simp))).trans
      (ihbody.1.of_le (by simp only [Context.add_labels]; omega))).trans hend

theorem Lowered.expr_grows (hlowered : Lowered sigs [e] c [t] c') :
    c.Grows c.labels c' e.declared ∧ t.id < c'.temps := by
  simpa [declaredAll] using hlowered.grows

end TreeCompiler.Lower

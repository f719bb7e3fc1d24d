import Mathlib.Logic.Relation
import TreeCompiler.Proofs.Asm.Placement

/-!
The points between two instructions of a function at which code generation arrives: the index of the
next instruction, what the generator knows there, and the lines before. The points are ordered, and
those at the same line have the same knowledge.
-/

namespace TreeCompiler.Asm

open Code

variable {site : Site} {options : Options} {g g₁ : GenState} {x : Instr} {i : Nat} {covered : Bool} {r : Reg}

/-- An instruction without lines changes nothing that is known of the registers. -/
theorem cache_of_nil (hgen : genInstr site i x g = .ok (([], covered), g₁)) : g₁.cache = g.cache := by
  have hop := (genInstr_gives g _ g₁ hgen).filled.resolve_left fun hfilled => hfilled rfl
  rcases hop with hop | hop | hop <;> simp only [genInstr, hop] at hgen
  · cases hgen
    rfl
  · simp only [genArg, GenM.bind_eq_ok_iff, GenM.get_eq_ok_iff, GenM.pure_eq_ok_iff] at hgen
    obtain ⟨_, _, ⟨_, _, ⟨rfl, rfl⟩, harg⟩, _, rfl⟩ := hgen
    split at harg
    · cases harg
      rfl
    · exact (GenM.fail_ne_ok _ harg).elim
  · by_cases hnone : x.src1.isNone = true
    · simp only [hnone, if_true, GenM.bind_eq_ok_iff, GenM.pure_eq_ok_iff] at hgen
      obtain ⟨_, _, ⟨_, rfl⟩, _, rfl⟩ := hgen
      rfl
    · simp only [hnone, Bool.false_eq_true, if_false, GenM.bind_eq_ok_iff, GenM.pure_eq_ok_iff, Prod.mk.injEq,
        List.map_eq_nil_iff, List.append_eq_nil_iff] at hgen
      obtain ⟨_, _, hload, ⟨⟨rfl, _⟩, _⟩, rfl⟩ := hgen
      obtain ⟨o, _, hloaded⟩ := load_ok hload
      cases hloaded with
      | hit hcached => rfl
      | fetch hfetch => cases hfetch

/-- A point between two instructions. -/
structure Point where
  index : Nat
  state : GenState
  before : List Line

/-- The point behind an instruction and what it covers. -/
inductive Next (options : Options) (site : Site) (a : Point) : Point → Prop where
  | intro {x : Instr} {code : List Line} {covered : Bool} {g : GenState} (hx : site.func.code[a.index]? = some x)
      (hgen : genInstr site a.index x a.state = .ok ((code, covered), g)) :
      Next options site a
        ⟨if covered then a.index + 2 else a.index + 1, g, a.before ++ (announcement options x ++ code)⟩

/-- The points at which code generation arrives after the parameters. -/
def Boundary (options : Options) (site : Site) (opened : GenState) (a : Point) : Prop :=
  Relation.ReflTransGen (Next options site) ⟨0, opened, []⟩ a

variable {opened : GenState} {a b c : Point}

theorem Next.unique (hb : Next options site a b) (hc : Next options site a c) : b = c := by
  obtain ⟨hx, hgen⟩ := hb
  obtain ⟨hx', hgen'⟩ := hc
  cases hx.symm.trans hx'
  cases hgen.symm.trans hgen'
  rfl

theorem Next.exists_instr (hnext : Next options site a b) : ∃ x, site.func.code[a.index]? = some x := by
  obtain ⟨hx, _⟩ := hnext
  exact ⟨_, hx⟩

theorem Next.index_lt (hnext : Next options site a b) : a.index < b.index := by
  obtain ⟨_, _⟩ := hnext
  dsimp only
  split <;> omega

/-- From a point on lines are only added, and without new lines there is no new knowledge. -/
theorem Next.grows (hnext : Next options site a b) : a.before.length ≤ b.before.length ∧
    (b.before.length = a.before.length → b.state.cache = a.state.cache) := by
  obtain ⟨hx, hgen⟩ := hnext
  rename_i x code covered g
  refine ⟨by simp, fun hlength => ?_⟩
  have hnone : code = [] := by
    simp only [List.length_append] at hlength
    exact List.length_eq_zero_iff.mp (by omega)
  rw [hnone] at hgen
  exact cache_of_nil hgen

theorem grows_of_reaches (hreaches : Relation.ReflTransGen (Next options site) a b) :
    a.before.length ≤ b.before.length ∧
      (b.before.length = a.before.length → b.state.cache = a.state.cache) := by
  induction hreaches with
  | refl => exact ⟨Nat.le_refl _, fun _ => rfl⟩
  | tail _ hnext ih =>
    have hgrows := hnext.grows
    exact ⟨by omega, fun hlength => (hgrows.2 (by omega)).trans (ih.2 (by omega))⟩

namespace Boundary

variable (ha : Boundary options site opened a)
include ha

theorem next (hnext : Next options site a b) : Boundary options site opened b :=
  Relation.ReflTransGen.tail ha hnext

theorem comparable (hb : Boundary options site opened b) :
    Relation.ReflTransGen (Next options site) a b ∨ Relation.ReflTransGen (Next options site) b a :=
  Relation.ReflTransGen.total_of_right_unique (fun _ _ _ => Next.unique) ha hb

/-- Inside the lines of an instruction there is no point. -/
theorem not_inside (hnext : Next options site a b) (hc : Boundary options site opened c)
    (hlo : a.before.length < c.before.length) : b.before.length ≤ c.before.length := by
  rcases ha.comparable hc with hreaches | hreaches
  · cases Relation.ReflTransGen.cases_head hreaches with
    | inl heq => rw [heq] at hlo; omega
    | inr hstep =>
      obtain ⟨d, hd, hreaches⟩ := hstep
      cases hnext.unique hd
      exact (grows_of_reaches hreaches).1
  · have := (grows_of_reaches hreaches).1
    omega

/-- Behind an instruction that has lines stands the first point of its line. -/
theorem first_of_next (hnext : Next options site a b) (hgrows : a.before.length < b.before.length)
    (hc : Boundary options site opened c) (hline : c.before.length = b.before.length) :
    Relation.ReflTransGen (Next options site) b c := by
  rcases ha.comparable hc with hreaches | hreaches
  · cases Relation.ReflTransGen.cases_head hreaches with
    | inl heq => rw [heq] at hgrows; omega
    | inr hstep =>
      obtain ⟨d, hd, hreaches⟩ := hstep
      cases hnext.unique hd
      exact hreaches
  · have hle := (grows_of_reaches hreaches).1
    omega

variable {h : Host} {p : Code.Program} {start : Nat} {params : List Insn} {body : List Line}

variable (hp : p.WellFormed) (hplaced : Placed h options p site start params opened body)
include hp hplaced

/-- The code can be cut at every point. -/
theorem cut : ∃ behind, Cut options site p.arity (StringTable.ofProgram p) body a.index a.state a.before behind := by
  induction ha with
  | refl => exact ⟨body, hplaced.cut_zero hp⟩
  | tail _ hnext ih =>
    obtain ⟨behind, hcut⟩ := ih
    obtain ⟨hx, hgen⟩ := hnext
    obtain ⟨code, covered, g', rest, hinstr, _, _, hcut'⟩ := hcut.step (hplaced.legal hp) hx
    cases hgen.symm.trans hinstr
    exact ⟨rest, hcut'⟩

theorem before_le : a.before.length ≤ body.length := by
  obtain ⟨behind, hcut⟩ := ha.cut hp hplaced
  rw [hcut.lines, List.length_append]
  omega

/-- Behind every point but the last there is another one. -/
theorem exists_next (hx : site.func.code[a.index]? = some x) : ∃ b, Next options site a b := by
  obtain ⟨behind, hcut⟩ := ha.cut hp hplaced
  obtain ⟨code, covered, g', rest, hinstr, _⟩ := hcut.step (hplaced.legal hp) hx
  exact ⟨_, .intro hx hinstr⟩

omit ha in
/-- There is a point before every instruction, unless the one before it covers it. -/
theorem exists_at (hi : i ≤ site.func.code.length) :
    (∃ a, Boundary options site opened a ∧ a.index = i) ∨
      ∃ y, site.func.code[i]? = some y ∧ y.op = .ret ∧ ∃ a, Boundary options site opened a ∧
        a.index = i + 1 := by
  induction i with
  | zero => exact .inl ⟨_, .refl, rfl⟩
  | succ i ih =>
    rcases ih (by omega) with ⟨a, ha, rfl⟩ | ⟨_, _, _, hnext⟩
    · have hx := List.getElem?_eq_getElem (show a.index < site.func.code.length by omega)
      obtain ⟨b, hnext⟩ := ha.exists_next hp hplaced hx
      have hb := ha.next hnext
      obtain ⟨hx, hgen⟩ := hnext
      rename_i x code covered g
      cases covered with
      | false => exact .inl ⟨_, hb, rfl⟩
      | true =>
        obtain ⟨y, hy, hret⟩ := Cut.ret_of_compiled (genInstr_gives _ _ _ hgen)
        exact .inr ⟨y, hy, hret, _, hb, rfl⟩
    · exact .inl hnext

/-- Behind a label there is a point at which nothing is known, and a jump to the label leads there
    from everywhere inside the function. -/
theorem label {name : String} (hx : site.func.code[a.index]? = some x) (hlabel : x.label? = some name) :
    ∃ b, Next options site a b ∧ a.before.length < b.before.length ∧ b.state.cache = .empty ∧
      ∀ pos, pos ≤ body.length → ∃ pc, h.mark?
        (Placed.bodyLine start site.frame params + pos) name = some pc ∧
        pc + 1 = Placed.bodyLine start site.frame params + b.before.length := by
  obtain ⟨behind, hcut⟩ := ha.cut hp hplaced
  obtain ⟨b, hnext⟩ := ha.exists_next hp hplaced hx
  refine ⟨b, hnext, ?_⟩
  obtain ⟨hx', hgen⟩ := hnext
  cases hx.symm.trans hx'
  obtain ⟨rfl, rfl, rfl⟩ := genInstr_label hlabel hgen
  refine ⟨by simp, rfl, fun pos hpos => ⟨_, hplaced.mark?_label hp hcut hx hlabel hpos, ?_⟩⟩
  simp only [List.length_append, List.length_singleton]
  omega

/-- Behind the last instruction the lines are complete. -/
theorem before_of_last (hlast : site.func.code[a.index]? = none) : a.before = body := by
  obtain ⟨behind, hcut⟩ := ha.cut hp hplaced
  obtain ⟨last, hgen⟩ := hcut.gen
  rw [List.drop_eq_nil_of_le (List.getElem?_eq_none_iff.mp hlast)] at hgen
  obtain ⟨rfl, _⟩ := GenM.pure_eq_ok_iff.mp hgen
  rw [hcut.lines, List.append_nil]

end Boundary

end TreeCompiler.Asm

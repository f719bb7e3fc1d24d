import TreeCompiler.Asm.Program
import TreeCompiler.Proofs.Outcome

namespace TreeCompiler.Asm

open Code

namespace GenM

variable {α β : Type} {g g' : GenState}

theorem bind_eq_ok_iff {m : GenM α} {f : α → GenM β} {r : β × GenState} :
    (m >>= f) g = .ok r ↔ ∃ a g₁, m g = .ok (a, g₁) ∧ f a g₁ = .ok r :=
  state_bind_eq_ok_iff

theorem pure_eq_ok_iff {a b : α} : (pure a : GenM α) g = .ok (b, g') ↔ a = b ∧ g = g' :=
  state_pure_eq_ok_iff

theorem get_eq_ok_iff {a : GenState} : (get : GenM GenState) g = .ok (a, g') ↔ g = a ∧ g = g' :=
  state_get_eq_ok_iff

theorem track_eq_ok_iff {f : Cache → Cache} {u : Unit} :
    track f g = .ok (u, g') ↔ { g with cache := f g.cache } = g' := by
  simp [track]

theorem forget_eq_ok_iff {u : Unit} : forget g = .ok (u, g') ↔ { g with cache := .empty } = g' :=
  track_eq_ok_iff

theorem takePending_eq_ok_iff {os : List (Option Operand)} :
    takePending g = .ok (os, g') ↔ g.pending.toList = os ∧ { g with pending := #[] } = g' := by
  simp [takePending]

theorem within_eq_ok_iff {place : Place} {m : GenM α} {r : α × GenState} :
    within place m g = .ok r ↔ m g = .ok r :=
  mapError_eq_ok_iff

theorem fail_ne_ok (g : GenState) {cause : Cause} {r : α × GenState} (h : fail cause g = .ok r) : False := by
  simp [fail] at h

end GenM

variable {strings : StringTable} {dst : Option Operand}

theorem StringTable.intern_of_mem {t : Bytes} (hmem : t ∈ strings.strings) :
    (strings.intern t).2 = strings := by
  unfold intern
  cases hindex : strings.strings.idxOf? t with
  | some index => rfl
  | none => exact absurd hmem (Array.idxOf?_eq_none_iff.mp hindex)

/-- The generator left all as it was but what the registers hold. -/
structure GenState.Keeps (g g' : GenState) : Prop where
  pending : g'.pending = g.pending
  strings : g'.strings = g.strings

theorem GenState.Keeps.trans {g₁ g₂ g₃ : GenState} (h₁₂ : g₁.Keeps g₂) (h₂₃ : g₂.Keeps g₃) :
    g₁.Keeps g₃ :=
  ⟨h₂₃.pending.trans h₁₂.pending, h₂₃.strings.trans h₁₂.strings⟩

variable {site : Site} {g g' : GenState} {xs : List Insn} {o : Operand} {r : Reg}

/-- Bringing a literal or a place into a register takes one instruction. -/
inductive Fetched (site : Site) (o : Operand) (r : Reg) (g : GenState) : List Insn → GenState → Prop where
  | int (v : Int64) (ho : o = .const (.int v)) : Fetched site o r g [.movConst r v.toInt] g
  | bool (b : Bool) (ho : o = .const (.bool b)) :
      Fetched site o r g [.movConst r (if b then 1 else 0)] g
  | str (t : Bytes) (ho : o = .const (.str t)) :
      Fetched site o r g [.leaString r (g.strings.intern t).1]
        { g with strings := (g.strings.intern t).2 }
  | void (ho : o = .const .void) : Fetched site o r g [.movConst r 0] g
  | slot (offset : Int) (ho : Operand.isStorage (some o) = true)
      (hoffset : site.frame.offset? o = some offset) : Fetched site o r g [.load r (.frame offset)] g

theorem loadConst_ok {c : Const} (h : loadConst c r g = .ok (xs, g')) :
    Fetched site (.const c) r g xs g' := by
  cases c with
  | int v =>
    obtain ⟨rfl, rfl⟩ := GenM.pure_eq_ok_iff.mp h
    exact .int v rfl
  | bool b =>
    obtain ⟨rfl, rfl⟩ := GenM.pure_eq_ok_iff.mp h
    exact .bool b rfl
  | str t =>
    simp only [loadConst, GenM.bind_eq_ok_iff, GenM.pure_eq_ok_iff, GenM.string] at h
    obtain ⟨k, g₁, hk, rfl, rfl⟩ := h
    cases hk
    exact .str t rfl
  | void =>
    obtain ⟨rfl, rfl⟩ := GenM.pure_eq_ok_iff.mp h
    exact .void rfl
  | unknown kind => exact (GenM.fail_ne_ok g h).elim

theorem fetch_ok (h : fetch site o r g = .ok (xs, g')) : Fetched site o r g xs g' := by
  cases o with
  | const c => exact loadConst_ok h
  | temp _ | var _ =>
    simp only [fetch] at h
    generalize hoffset : site.frame.offset? _ = found at h
    cases found with
    | none => exact (GenM.fail_ne_ok g h).elim
    | some offset =>
      obtain ⟨rfl, rfl⟩ := GenM.pure_eq_ok_iff.mp h
      exact .slot offset rfl hoffset
  | label _ | func _ => exact (GenM.fail_ne_ok g h).elim

/-- The three ways in which a register comes to hold an operand. -/
inductive Loaded (site : Site) (o : Operand) (r : Reg) (g : GenState) : List Insn → GenState → Prop where
  | hit (hcached : g.cache.get r = some o) : Loaded site o r g [] g
  | move (other : Reg) (hcached : g.cache.get other = some o) :
      Loaded site o r g [.mov r other] { g with cache := g.cache.set r (some o) }
  | fetch {xs : List Insn} {g₁ : GenState} (hfetch : Fetched site o r g xs g₁) :
      Loaded site o r g xs { g₁ with cache := g₁.cache.set r (some o) }

theorem Cache.get_of_find? {c : Cache} (h : c.find? o = some r) : c.get r = some o := by
  simpa using List.find?_some h

theorem GenState.get_of_known (h : g.known.get r = some o) : g.cache.get r = some o := by
  unfold known at h
  cases hreuse : g.reuse with
  | true => rwa [if_pos hreuse] at h
  | false =>
    rw [if_neg (by simp [hreuse])] at h
    exact absurd h (by cases r <;> simp [Cache.get, Cache.empty, Vector.get])

theorem load_ok {src : Option Operand} (h : load site src r g = .ok (xs, g')) :
    ∃ o, src = some o ∧ Loaded site o r g xs g' := by
  cases src with
  | none => exact (GenM.fail_ne_ok g h).elim
  | some o =>
    refine ⟨o, rfl, ?_⟩
    simp only [load, GenM.bind_eq_ok_iff, GenM.get_eq_ok_iff] at h
    obtain ⟨_, _, ⟨rfl, rfl⟩, h⟩ := h
    by_cases hcached : g.known.get r = some o
    · rw [if_pos hcached] at h
      obtain ⟨rfl, rfl⟩ := GenM.pure_eq_ok_iff.mp h
      exact .hit (GenState.get_of_known hcached)
    · rw [if_neg hcached] at h
      cases hfind : g.known.find? o with
      | some other =>
        simp only [hfind, GenM.bind_eq_ok_iff, GenM.pure_eq_ok_iff, GenM.track_eq_ok_iff] at h
        obtain ⟨_, _, ⟨rfl, rfl⟩, _, _, rfl, rfl, rfl⟩ := h
        exact .move other (GenState.get_of_known (Cache.get_of_find? hfind))
      | none =>
        simp only [hfind, GenM.bind_eq_ok_iff, GenM.pure_eq_ok_iff, GenM.track_eq_ok_iff] at h
        obtain ⟨_, g₁, hfetch, _, _, rfl, rfl, rfl⟩ := h
        exact .fetch (fetch_ok hfetch)

theorem store_ok (h : store site dst r g = .ok (xs, g')) :
    ∃ o offset, dst = some o ∧ site.frame.offset? o = some offset ∧
      xs = [.store (.frame offset) r] ∧ g' = { g with cache := g.cache.written o r } := by
  cases dst with
  | none => exact (GenM.fail_ne_ok g h).elim
  | some o =>
    simp only [store] at h
    cases hoffset : site.frame.offset? o with
    | none => rw [hoffset] at h; exact (GenM.fail_ne_ok g h).elim
    | some offset =>
      simp only [hoffset, GenM.bind_eq_ok_iff, GenM.pure_eq_ok_iff, GenM.track_eq_ok_iff] at h
      obtain ⟨_, _, rfl, rfl, rfl⟩ := h
      exact ⟨o, offset, rfl, hoffset, rfl, rfl⟩

theorem loadPair_ok {left right : Option Operand} (h : loadPair site left right g = .ok (xs, g')) :
    ∃ ls g₁ rs, load site left .rax g = .ok (ls, g₁) ∧ load site right .rcx g₁ = .ok (rs, g') ∧
      xs = ls ++ rs := by
  simp only [loadPair, GenM.bind_eq_ok_iff, GenM.pure_eq_ok_iff, GenM.within_eq_ok_iff] at h
  obtain ⟨ls, g₁, hl, rs, g₂, hr, rfl, rfl⟩ := h
  exact ⟨ls, g₁, rs, hl, hr, rfl⟩

theorem produce_ok (h : produce site dst g = .ok (xs, g')) :
    store site dst .rax { g with cache := .empty } = .ok (xs, g') := by
  simp only [produce, GenM.bind_eq_ok_iff, GenM.forget_eq_ok_iff] at h
  obtain ⟨_, _, rfl, h⟩ := h
  exact h

theorem replace_ok (h : replace site dst g = .ok (xs, g')) :
    store site dst .rax { g with cache := g.cache.set .rax none } = .ok (xs, g') := by
  simp only [replace, GenM.bind_eq_ok_iff, GenM.track_eq_ok_iff] at h
  obtain ⟨_, _, rfl, h⟩ := h
  exact h

/-- The lines of a function around the code of its parameters and of its instructions. -/
def funcLines (f : Func) (frame : Frame) (params : List Insn) (body : List Line) : List Line :=
  (if f.isPublic then [Line.global f.name] else []) ++
    [Line.symbol f.name, .insn (.push .rbp), .insn (.mov .rbp .rsp)] ++
      (if frame.size = 0 then [] else [Line.insn (.grow frame.size)]) ++ [Line.mark "entry"] ++
        (if frame.hasArrays then [Line.insn (.leaFrame .rsp frame.size)] else []) ++
          (params.map Line.insn ++ body) ++
            [Line.mark "exit", .insn (.mov .rsp .rbp), .insn (.pop .rbp), .insn .ret]

/-- Compiling a function is finding its frame and labels, then compiling its parameters and its
    instructions. -/
theorem genFunc_eq_ok_iff {options : Options} {f : Func} {strings' : StringTable} {ls : List Line} :
    genFunc options f strings = .ok (ls, strings') ↔
      ∃ frame labels params g₁ body g₂, Frame.ofFunc f = .ok frame ∧
        collectLabels 0 [] f.code = .ok labels ∧
          bindParams ⟨f, frame, labels⟩ 0 (f.params.map (·.operand)) Reg.args
            { strings, reuse := options.reuse } = .ok (params, g₁) ∧
              genCode options ⟨f, frame, labels⟩ 0 false f.code g₁ = .ok (body, g₂) ∧
                ls = funcLines f frame params body ∧ strings' = g₂.strings := by
  unfold genFunc
  simp only [bind_eq_ok_iff, mapError_eq_ok_iff, GenM.bind_eq_ok_iff, GenM.within_eq_ok_iff,
    GenM.pure_eq_ok_iff, Prod.exists]
  constructor
  · rintro ⟨frame, hframe, labels, hlabels, _, _, ⟨params, g₁, hparams, body, g₂, hbody, rfl, rfl⟩, hls⟩
    cases hls
    exact ⟨frame, labels, params, g₁, body, g₂, hframe, hlabels, hparams, hbody, rfl, rfl⟩
  · rintro ⟨frame, labels, params, g₁, body, g₂, hframe, hlabels, hparams, hbody, rfl, rfl⟩
    exact ⟨frame, hframe, labels, hlabels, _, _, ⟨params, g₁, hparams, body, g₂, hbody, rfl, rfl⟩, rfl⟩

/-- The lines of a function of a program. -/
def GenOne (options : Options) (f : Func) (strings : StringTable) (own : List Line) (strings' : StringTable) : Prop :=
  f.isExternal = true ∧ f.code = [] ∧ own = [.external f.name] ∧ strings' = strings ∨
    f.isExternal = false ∧ genFunc options f strings = .ok (own, strings')

/-- The lines of functions are those of the first one, then those of the others. -/
theorem genFuncs_cons_eq_ok_iff {options : Options} {f : Func} {fs : List Func}
    {ls : List Line} :
    genFuncs options strings (f :: fs) = .ok ls ↔
      ∃ own strings' rest, GenOne options f strings own strings' ∧ genFuncs options strings' fs = .ok rest ∧
        ls = .blank :: (own ++ rest) := by
  simp only [genFuncs]
  cases hexternal : f.isExternal with
  | true =>
    cases hcode : f.code with
    | nil =>
      simp only [GenOne, hexternal, hcode, if_true, List.isEmpty_nil, bind_eq_ok_iff]
      constructor
      · rintro ⟨_, ⟨⟩, rest, hrest, ⟨⟩⟩
        exact ⟨_, _, rest, .inl ⟨trivial, trivial, rfl, rfl⟩, hrest, rfl⟩
      · rintro ⟨_, _, rest, ⟨_, _, rfl, rfl⟩ | ⟨⟨⟩, _⟩, hrest, rfl⟩
        exact ⟨_, rfl, rest, hrest, rfl⟩
    | cons x code =>
      simp only [GenOne, hexternal, hcode, if_true, List.isEmpty_cons, Bool.false_eq_true, if_false, bind_eq_ok_iff]
      constructor
      · rintro ⟨_, ⟨⟩, _⟩
      · rintro ⟨_, _, rest, ⟨_, ⟨⟩, _⟩ | ⟨⟨⟩, _⟩, _⟩
  | false =>
    simp only [GenOne, hexternal, Bool.false_eq_true, if_false, bind_eq_ok_iff, mapError_eq_ok_iff]
    constructor
    · rintro ⟨⟨own, strings'⟩, hown, rest, hrest, ⟨⟩⟩
      exact ⟨own, strings', rest, .inr ⟨trivial, hown⟩, hrest, rfl⟩
    · rintro ⟨own, strings', rest, ⟨⟨⟩, _⟩ | ⟨_, hown⟩, hrest, rfl⟩
      exact ⟨(own, strings'), hown, rest, hrest, rfl⟩

end TreeCompiler.Asm

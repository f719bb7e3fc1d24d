import TreeCompiler.Proofs.Asm.Slots
import TreeCompiler.Proofs.BitSet
import TreeCompiler.Proofs.Distinct

/-!
How a frame is laid out. Every cell of a function has a slot of its own, in the order in which
cells are first met. The same layout comes out of two tables, one for temporaries by number and
one for variables by name, which take their slots from one counter.
-/

namespace TreeCompiler

namespace Code

/-- What an operand stands for if it can be written to. -/
inductive Cell where
  | temp (id : Int)
  | var (name : String)
  deriving DecidableEq, Repr

/-- The cell of an operand that is one. -/
def Operand.cell? : Operand → Option Cell
  | .temp t => some (.temp t.id)
  | .var name => some (.var name)
  | _ => none

/-- Temporaries are numbered from zero. -/
def Cell.Counted : Cell → Prop
  | .temp id => 0 ≤ id
  | .var _ => True

instance : DecidablePred Cell.Counted
  | .temp id => inferInstanceAs (Decidable (0 ≤ id))
  | .var _ => inferInstanceAs (Decidable True)

/-- The cells that a function mentions, in order and as often as it does. -/
def Func.cells (f : Func) : List Cell :=
  f.operands.filterMap (·.bind Operand.cell?)

end Code

namespace Asm

open Code

/-- The cell that a slot is for. -/
def Slot.cell : Slot → Cell
  | .temp id => .temp id
  | .var name => .var name

theorem Slot.cell_injective : Slot.cell.Injective := by
  intro s s' heq
  cases s <;> cases s' <;> grind [cell]

namespace Frame

variable {fr fr' : Frame} {o : Operand} {p : Cell} {cells seen : List Cell}

theorem offset?_of_slot? {s : Slot} (hslot : slot? o = .ok (some s)) :
    fr.offset? o = (fr.slots.toList.idxOf? s).map fun (k : Nat) => -8 * ((k : Int) + 1) := by
  obtain ⟨⟨slots⟩, hasArrays⟩ := fr
  rw [offset?, hslot]
  cases hk : slots.idxOf? s <;> simp [hk]

/-- Cells have slots of their own. -/
theorem slot?_cell (hcounted : ∀ p, o.cell? = some p → p.Counted) :
    ∃ s, slot? o = .ok s ∧ s.map Slot.cell = o.cell? := by
  cases o with
  | temp t =>
    have hid : 0 ≤ t.id := hcounted _ rfl
    refine ⟨some (.temp t.id.toNat), ?_, ?_⟩
    · rw [slot?, BitSet.key, if_neg (Int.not_lt.mpr hid)]
      rfl
    · rw [Option.map_some, Slot.cell, Int.toNat_of_nonneg hid]
      rfl
  | var name => exact ⟨some (.var name), rfl, rfl⟩
  | const c => exact ⟨none, rfl, rfl⟩
  | label name => exact ⟨none, rfl, rfl⟩
  | func name => exact ⟨none, rfl, rfl⟩

/-- Making room for an operand adds its cell to those that have a slot. -/
theorem add_cells {x : Option Operand} (hcounted : ∀ p, x.bind Operand.cell? = some p → p.Counted)
    (hseen : fr.slots.toList.map Slot.cell = seen.eraseDups) :
    ∃ fr', fr.add x = .ok fr' ∧
      fr'.slots.toList.map Slot.cell = (seen ++ (x.bind Operand.cell?).toList).eraseDups := by
  cases x with
  | none => exact ⟨fr, rfl, by simpa using hseen⟩
  | some o =>
    obtain ⟨s, hslot, hcell⟩ := slot?_cell hcounted
    rw [Option.bind_some, ← hcell]
    cases s with
    | none => exact ⟨fr, by rw [add, hslot], by simpa using hseen⟩
    | some s =>
      refine ⟨_, by rw [add, hslot], ?_⟩
      have hmem : s ∈ fr.slots ↔ s.cell ∈ seen := by
        rw [← List.mem_eraseDups (l := seen), ← hseen, List.mem_map_of_injective Slot.cell_injective,
          Array.mem_toList_iff]
      rw [Option.map_some, Option.toList_some, eraseDups_concat]
      by_cases hs : s ∈ fr.slots
      · rw [if_pos hs, if_pos (hmem.mp hs), hseen]
      · rw [if_neg hs, if_neg (mt hmem.mpr hs), Array.toList_push, List.map_append, hseen]
        rfl

theorem addAll_cells {os : List (Option Operand)} (hcounted : ∀ p ∈ os.filterMap (·.bind Operand.cell?), p.Counted)
    (hseen : fr.slots.toList.map Slot.cell = seen.eraseDups) :
    ∃ fr', fr.addAll os = .ok fr' ∧
      fr'.slots.toList.map Slot.cell = (seen ++ os.filterMap (·.bind Operand.cell?)).eraseDups := by
  induction os generalizing fr seen with
  | nil => exact ⟨fr, rfl, by simpa using hseen⟩
  | cons x os ih =>
    have hsplit : (x :: os).filterMap (·.bind Operand.cell?) =
        (x.bind Operand.cell?).toList ++ os.filterMap (·.bind Operand.cell?) := by
      cases hx : x.bind Operand.cell? <;> simp [hx]
    rw [hsplit] at hcounted ⊢
    obtain ⟨fr₁, hx, hcells⟩ := add_cells (x := x) (fun p hp => hcounted p (by simp [hp])) hseen
    obtain ⟨fr', hos, hcells'⟩ := ih (fun p hp => hcounted p (List.mem_append_right _ hp)) hcells
    refine ⟨fr', ?_, by rw [hcells', List.append_assoc]⟩
    rw [addAll, List.foldlM_cons, hx]
    exact hos

/-- The slots of a function's frame are for the cells that it mentions, in the order in which they
    are first met. -/
theorem ofFunc_cells {f : Func} (hcounted : ∀ p ∈ f.cells, p.Counted) :
    ∃ fr, ofFunc f = .ok fr ∧ fr.slots.toList.map Slot.cell = f.cells.eraseDups := by
  unfold Func.cells Func.operands at *
  rw [List.filterMap_append] at *
  have hempty : ({} : Frame).slots.toList.map Slot.cell = [].eraseDups := rfl
  obtain ⟨fr₁, hparams, hcells⟩ := addAll_cells (fun p hp => hcounted p (List.mem_append_left _ hp)) hempty
  obtain ⟨fr₂, hcode, hcells'⟩ := addAll_cells (fun p hp => hcounted p (List.mem_append_right _ hp)) hcells
  refine ⟨{ fr₂ with hasArrays := f.code.any (·.op = .array) }, ?_, hcells'⟩
  rw [ofFunc, bind_eq_ok_iff]
  exact ⟨fr₁, hparams, bind_eq_ok_iff.mpr ⟨fr₂, hcode, rfl⟩⟩

/-- The offset of a cell counts the cells that were met before it. -/
theorem offset?_eq_idxOf? (hcells : fr.slots.toList.map Slot.cell = cells) (hp : o.cell? = some p)
    (hcounted : p.Counted) : fr.offset? o = (cells.idxOf? p).map fun (k : Nat) => -8 * ((k : Int) + 1) := by
  obtain ⟨s, hslot, hcell⟩ := slot?_cell (o := o) fun q hq => by
    rw [hp] at hq
    cases hq
    exact hcounted
  rw [hp] at hcell
  obtain ⟨s, rfl, rfl⟩ := Option.map_eq_some_iff.mp hcell
  rw [offset?_of_slot? hslot, ← hcells, idxOf?_map_of_injective Slot.cell_injective]

end Frame

/-- The same layout in tables: the temporaries that have a slot, their offsets by number with zeros
    in the gaps, the offsets of the variables, and the number of slots. -/
structure FrameTables where
  temps : BitSet := .empty
  tempOffsets : List Int := []
  varOffsets : List (String × Int) := []
  count : Nat := 0
  deriving DecidableEq, Repr

namespace FrameTables

/-- Puts an offset at an index, first growing the list with zeros if it is too short. -/
def putOffset (offsets : List Int) (index : Nat) (offset : Int) : List Int :=
  (offsets ++ List.replicate (index + 1 - offsets.length) 0).set index offset

/-- The offset of the next slot. -/
def next (t : FrameTables) : Int :=
  -8 * ((t.count : Int) + 1)

/-- Makes room for an operand that has no slot yet. -/
def add (t : FrameTables) : Option Operand → Except BitSet.NegativeKey FrameTables
  | some (.temp x) => (BitSet.key x.id).map fun id =>
      if t.temps.contains id then t
      else { t with temps := t.temps.insert id, tempOffsets := putOffset t.tempOffsets id t.next, count := t.count + 1 }
  | some (.var name) => .ok <|
      if (t.varOffsets.lookup name).isSome then t
      else { t with varOffsets := (name, t.next) :: t.varOffsets, count := t.count + 1 }
  | _ => .ok t

/-- The tables of a function. -/
def ofFunc (f : Func) : Except BitSet.NegativeKey FrameTables :=
  f.operands.foldlM add {}

/-- The distance of an operand's slot from the base of the frame. -/
def offset? (t : FrameTables) : Operand → Option Int
  | .temp x =>
    match BitSet.key x.id with
    | .ok id => if t.temps.contains id then t.tempOffsets[id]? else none
    | .error _ => none
  | .var name => t.varOffsets.lookup name
  | _ => none

/-- Tables keep the layout of a frame. -/
structure Keeps (t : FrameTables) (fr : Frame) : Prop where
  count : t.count = fr.slots.size
  temps : ∀ id, t.temps.contains id = true ↔ .temp id ∈ fr.slots.toList
  tempOffsets : ∀ id k, fr.slots.toList.idxOf? (.temp id) = some k →
    t.tempOffsets[id]? = some (-8 * ((k : Int) + 1))
  varOffsets : ∀ name, t.varOffsets.lookup name = (fr.slots.toList.idxOf? (.var name)).map fun (k : Nat) =>
    -8 * ((k : Int) + 1)

variable {t t' : FrameTables} {fr fr' : Frame}

theorem getElem?_putOffset (offsets : List Int) (i j : Nat) (offset : Int) :
    (putOffset offsets i offset)[j]? = if j = i then some offset else
      (offsets ++ List.replicate (i + 1 - offsets.length) 0)[j]? := by
  have hlength : i < (offsets ++ List.replicate (i + 1 - offsets.length) 0).length := by
    rw [List.length_append, List.length_replicate]
    omega
  rw [putOffset, List.getElem?_set, if_pos hlength]
  simp only [eq_comm]

/-- An offset that was put stays where it is when others are put beside it. -/
theorem getElem?_putOffset_of_ne {offsets : List Int} {i j : Nat} {offset v : Int} (hne : j ≠ i)
    (hv : offsets[j]? = some v) : (putOffset offsets i offset)[j]? = some v := by
  obtain ⟨hlt, _⟩ := List.getElem?_eq_some_iff.mp hv
  rw [getElem?_putOffset, if_neg hne, List.getElem?_append_left hlt, hv]

theorem keeps_empty : Keeps {} {} where
  count := rfl
  temps id := by simp
  tempOffsets id k hk := by simp at hk
  varOffsets name := rfl

/-- A temporary without a slot gets the next one. -/
theorem Keeps.addTemp (hkeeps : t.Keeps fr) {id : Nat} (hnew : .temp id ∉ fr.slots.toList) :
    Keeps { t with temps := t.temps.insert id, tempOffsets := putOffset t.tempOffsets id t.next, count := t.count + 1 }
      { fr with slots := fr.slots.push (.temp id) } where
  count := by rw [hkeeps.count, Array.size_push]
  temps j := by
    rw [BitSet.contains_insert, Bool.or_eq_true, decide_eq_true_eq, hkeeps.temps, Array.toList_push, List.mem_append,
      List.mem_singleton, Slot.temp.injEq, or_comm]
  tempOffsets j k hk := by
    rw [Array.toList_push, idxOf?_concat, Option.or_eq_some_iff] at hk
    rcases hk with hk | ⟨_, hk⟩
    · have hne : j ≠ id := by
        rintro rfl
        rw [List.idxOf?_eq_none_iff.mpr hnew] at hk
        cases hk
      exact getElem?_putOffset_of_ne hne (hkeeps.tempOffsets j k hk)
    · obtain ⟨hsame, hlast⟩ := Option.ite_none_right_eq_some.mp hk
      obtain rfl := Slot.temp.inj hsame
      obtain rfl := Option.some.inj hlast
      rw [getElem?_putOffset, if_pos rfl, next, hkeeps.count, ← Array.length_toList]
  varOffsets name := by
    rw [Array.toList_push, idxOf?_concat, if_neg (by simp), Option.or_none]
    exact hkeeps.varOffsets name

/-- A variable without a slot gets the next one. -/
theorem Keeps.addVar (hkeeps : t.Keeps fr) {name : String} (hnew : .var name ∉ fr.slots.toList) :
    Keeps { t with varOffsets := (name, t.next) :: t.varOffsets, count := t.count + 1 }
      { fr with slots := fr.slots.push (.var name) } where
  count := by rw [hkeeps.count, Array.size_push]
  temps j := by
    rw [hkeeps.temps, Array.toList_push, List.mem_append, List.mem_singleton, or_iff_left (by simp)]
  tempOffsets j k hk := by
    rw [Array.toList_push, idxOf?_concat, if_neg (by simp), Option.or_none] at hk
    exact hkeeps.tempOffsets j k hk
  varOffsets x := by
    rw [Array.toList_push, idxOf?_concat, List.lookup_cons]
    by_cases hx : x = name
    · subst hx
      rw [List.idxOf?_eq_none_iff.mpr hnew, next, hkeeps.count]
      simp
    · rw [beq_false_of_ne hx, if_neg (by simpa using hx), Option.or_none]
      exact hkeeps.varOffsets x

theorem Keeps.add (hkeeps : t.Keeps fr) {x : Option Operand} (hadd : fr.add x = .ok fr') :
    ∃ t', t.add x = .ok t' ∧ t'.Keeps fr' := by
  cases x with
  | none =>
    cases hadd
    exact ⟨t, rfl, hkeeps⟩
  | some o =>
    cases o with
    | temp x =>
      simp only [Frame.add, Frame.slot?] at hadd
      rw [FrameTables.add]
      cases hkey : BitSet.key x.id with
      | error e =>
        rw [hkey] at hadd
        cases hadd
      | ok id =>
        rw [hkey] at hadd
        cases hadd
        refine ⟨_, rfl, ?_⟩
        beta_reduce
        by_cases hid : .temp id ∈ fr.slots.toList
        · rw [if_pos ((hkeeps.temps id).mpr hid), if_pos (Array.mem_toList_iff.mp hid)]
          exact hkeeps
        · rw [if_neg (mt (hkeeps.temps id).mp hid), if_neg (mt Array.mem_toList_iff.mpr hid)]
          exact hkeeps.addTemp hid
    | var name =>
      cases hadd
      refine ⟨_, rfl, ?_⟩
      have hlookup : (t.varOffsets.lookup name).isSome ↔ .var name ∈ fr.slots.toList := by
        rw [hkeeps.varOffsets, Option.isSome_map, List.isSome_idxOf?]
      by_cases hname : .var name ∈ fr.slots.toList
      · rw [if_pos (hlookup.mpr hname), if_pos (Array.mem_toList_iff.mp hname)]
        exact hkeeps
      · rw [if_neg (mt hlookup.mp hname), if_neg (mt Array.mem_toList_iff.mpr hname)]
        exact hkeeps.addVar hname
    | _ =>
      cases hadd
      exact ⟨t, rfl, hkeeps⟩

theorem Keeps.addAll (hkeeps : t.Keeps fr) {os : List (Option Operand)} (hadd : fr.addAll os = .ok fr') :
    ∃ t', os.foldlM FrameTables.add t = .ok t' ∧ t'.Keeps fr' := by
  induction os generalizing t fr with
  | nil =>
    cases hadd
    exact ⟨t, rfl, hkeeps⟩
  | cons x os ih =>
    obtain ⟨fr₁, hx, hos⟩ := bind_eq_ok_iff.mp hadd
    obtain ⟨t₁, hx', hkeeps₁⟩ := hkeeps.add hx
    obtain ⟨t', hos', hkeeps'⟩ := ih hkeeps₁ hos
    exact ⟨t', by rw [List.foldlM_cons, hx']; exact hos', hkeeps'⟩

/-- The tables of a function keep the layout of its frame. -/
theorem keeps_ofFunc {f : Func} (hframe : Frame.ofFunc f = .ok fr) : ∃ t, ofFunc f = .ok t ∧ t.Keeps fr := by
  obtain ⟨fr₁, hparams, hframe⟩ := bind_eq_ok_iff.mp hframe
  obtain ⟨fr₂, hcode, hframe⟩ := bind_eq_ok_iff.mp hframe
  cases hframe
  obtain ⟨t₁, hparams', hkeeps₁⟩ := keeps_empty.addAll hparams
  obtain ⟨t₂, hcode', hkeeps₂⟩ := hkeeps₁.addAll hcode
  refine ⟨t₂, ?_, ⟨hkeeps₂.count, hkeeps₂.temps, hkeeps₂.tempOffsets, hkeeps₂.varOffsets⟩⟩
  rw [ofFunc, Func.operands, List.foldlM_append, hparams']
  exact hcode'

/-- What tables give for an operand is what the frame gives. -/
theorem Keeps.offset? (hkeeps : t.Keeps fr) (o : Operand) : t.offset? o = fr.offset? o := by
  cases o with
  | temp x =>
    cases hkey : BitSet.key x.id with
    | error e => simp only [FrameTables.offset?, Frame.offset?, Frame.slot?, hkey, Except.map]
    | ok id =>
      have hslot : Frame.slot? (.temp x) = .ok (some (.temp id)) := by rw [Frame.slot?, hkey]; rfl
      simp only [FrameTables.offset?, hkey, Frame.offset?_of_slot? hslot]
      cases hk : fr.slots.toList.idxOf? (.temp id) with
      | none => rw [if_neg (mt (hkeeps.temps id).mp (List.idxOf?_eq_none_iff.mp hk)), Option.map_none]
      | some k =>
        have hmem : .temp id ∈ fr.slots.toList := List.isSome_idxOf?.mp (by rw [hk]; rfl)
        rw [if_pos ((hkeeps.temps id).mpr hmem), hkeeps.tempOffsets id k hk, Option.map_some]
  | var name =>
    have hslot : Frame.slot? (.var name) = .ok (some (.var name)) := rfl
    rw [FrameTables.offset?, Frame.offset?_of_slot? hslot, hkeeps.varOffsets]
  | _ => rfl

end FrameTables

/-- A size is the least multiple of sixteen that has room for some words. -/
structure IsLeastSize (words size : Nat) : Prop where
  aligned : 16 ∣ size
  room : 8 * words ≤ size
  least : ∀ n, 16 ∣ n → 8 * words ≤ n → size ≤ n

theorem Frame.size_isLeast (fr : Frame) : IsLeastSize fr.slots.size fr.size where
  aligned := by
    unfold size alignUp
    omega
  room := fr.slots_size_le_size
  least n hn hroom := by
    unfold size alignUp
    omega

/-- How frames are laid out, in whichever of the two forms they are kept: every cell that a function
    mentions has a slot inside the frame, which it shares with no other. -/
theorem frame_layout {f : Func} (hinternal : f.isExternal = false) (hcounted : ∀ p ∈ f.cells, p.Counted) :
    ∃ fr tables size, Frame.ofFunc f = .ok fr ∧ FrameTables.ofFunc f = .ok tables ∧
      (∀ o, tables.offset? o = fr.offset? o) ∧ frameSize f = .ok size ∧
        IsLeastSize f.cells.eraseDups.length size ∧
          (∀ o p, o.cell? = some p → p ∈ f.cells →
            ∃ offset, fr.offset? o = some offset ∧ offset < 0 ∧ 8 ∣ offset ∧ -(size : Int) ≤ offset) ∧
            (∀ o o' p p', o.cell? = some p → o'.cell? = some p' → p ∈ f.cells → p' ∈ f.cells →
              (fr.offset? o = fr.offset? o' ↔ p = p')) ∧
              (∀ (o : Operand) p (k : Nat), o.cell? = some p → f.cells.eraseDups[k]? = some p →
                fr.offset? o = some (-8 * ((k : Int) + 1))) ∧
                ∀ o p, o.cell? = some p → p.Counted → p ∉ f.cells → fr.offset? o = none := by
  obtain ⟨fr, hframe, hcells⟩ := Frame.ofFunc_cells hcounted
  obtain ⟨tables, htables, hkeeps⟩ := FrameTables.keeps_ofFunc hframe
  have hsize : frameSize f = .ok fr.size := by
    rw [frameSize, hinternal, hframe]
    rfl
  have hlength : fr.slots.size = f.cells.eraseDups.length := by
    rw [← hcells, List.length_map, Array.length_toList]
  have hleast := hlength ▸ fr.size_isLeast
  have hat : ∀ (o : Operand) p (k : Nat), o.cell? = some p → f.cells.eraseDups[k]? = some p →
      fr.offset? o = some (-8 * ((k : Int) + 1)) := by
    intro o p k hp hk
    have hmem : p ∈ f.cells := List.mem_eraseDups.mp (List.mem_of_getElem? hk)
    rw [Frame.offset?_eq_idxOf? hcells hp (hcounted p hmem), idxOf?_of_getElem? (nodup_eraseDups _) hk, Option.map_some]
  refine ⟨fr, tables, fr.size, hframe, htables, hkeeps.offset?, hsize, hleast, ?_, ?_, hat, ?_⟩
  · intro o p hp hmem
    obtain ⟨k, hk, hget⟩ := List.mem_iff_getElem.mp (List.mem_eraseDups.mpr hmem)
    refine ⟨_, hat o p k hp (List.getElem?_eq_some_iff.mpr ⟨hk, hget⟩), by omega,
      ⟨_, Int.neg_mul_comm 8 _⟩, ?_⟩
    have hroom := hleast.room
    omega
  · intro o o' p p' hp hp' hmem hmem'
    obtain ⟨k, hk⟩ := List.mem_iff_getElem?.mp (List.mem_eraseDups.mpr hmem)
    obtain ⟨k', hk'⟩ := List.mem_iff_getElem?.mp (List.mem_eraseDups.mpr hmem')
    rw [hat o p k hp hk, hat o' p' k' hp' hk']
    constructor
    · intro heq
      have hoffset := Option.some.inj heq
      obtain rfl : k = k' := by omega
      exact Option.some.inj (hk.symm.trans hk')
    · rintro rfl
      obtain rfl : k = k' := Option.some.inj
        ((idxOf?_of_getElem? (nodup_eraseDups _) hk).symm.trans (idxOf?_of_getElem? (nodup_eraseDups _) hk'))
      rfl
  · intro o p hp hnonneg hmem
    rw [Frame.offset?_eq_idxOf? hcells hp hnonneg,
      List.idxOf?_eq_none_iff.mpr (mt List.mem_eraseDups.mp hmem), Option.map_none]

/-- Temporaries are met in another order than that of their numbers, between which there are gaps of
    several words, and one of them with two types. -/
theorem frame_layout_sparse :
    let temp (id : Int) (ty : Code.Ty) : Operand := .temp ⟨id, ty⟩
    let f : Func := ⟨"f", [⟨some (.var "a"), .number⟩],
        [⟨.binary .add, temp 200 .number, some (.var "a"), temp 3 .bool⟩,
      ⟨.move, temp 200 .str, temp 70 .number, none⟩], .number, false, false⟩
    f.isExternal = false ∧ (∀ p ∈ f.cells, p.Counted) ∧
      ∃ fr tables, Frame.ofFunc f = .ok fr ∧ FrameTables.ofFunc f = .ok tables ∧
        (∀ o, tables.offset? o = fr.offset? o) ∧ fr.offset? (temp 200 .void) = some (-16) ∧
          fr.offset? (temp 70 .number) = some (-32) ∧ fr.offset? (temp 100 .number) = none := by
  intro temp f
  have hcounted : ∀ p ∈ f.cells, p.Counted := by decide
  obtain ⟨fr, tables, _, hframe, htables, hsame, _, _, _, _, hat, hnone⟩ := frame_layout (f := f) rfl hcounted
  exact ⟨rfl, hcounted, fr, tables, hframe, htables, hsame, hat _ (.temp 200) 1 rfl (by decide),
    hat _ (.temp 70) 3 rfl (by decide), hnone _ (.temp 100) rfl (by decide) (by decide)⟩

end Asm

end TreeCompiler

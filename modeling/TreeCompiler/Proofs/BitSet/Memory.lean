import TreeCompiler.BitSet.Memory
import TreeCompiler.Proofs.BitSet

/-!
No two variables ever show words of one array: whatever is done to a set, its words stay in its own room or
move to a new array. So each action changes the set of one variable only, and what becomes of it is what
becomes of its words.
-/

namespace TreeCompiler.BitSet

/-- Words behind the last one that is not zero do not matter. -/
theorem contains_append_zeros (ws : List UInt64) (n k : Nat) :
    contains ⟨some (ws ++ List.replicate n 0)⟩ k = contains ⟨some ws⟩ k := by
  have hword : (ws ++ List.replicate n 0).getD (k / 64) 0 = ws.getD (k / 64) 0 := by
    rw [List.getD_eq_getElem?_getD, List.getElem?_append, List.getD_eq_getElem?_getD]
    split
    · rfl
    · next hlong =>
      rw [List.getElem?_eq_none (Nat.le_of_not_lt hlong), List.getElem?_replicate]
      split <;> rfl
  exact congrArg (testBit · (k % 64)) hword

theorem length_updateWord {f : UInt64 → UInt64} {i : Nat} {ws : List UInt64} (hi : i < ws.length) :
    (updateWord f i ws).length = ws.length := by
  fun_induction updateWord f i ws with
  | case1 | case3 => cases hi
  | case2 => rfl
  | case4 i w ws ih => simpa using ih (by simpa using hi)

namespace Memory

variable {m m' m'' : Memory} {s t : Slice} {g : Growth} {name other : String} {i k : Nat}

/-- A memory has the variables of another one and its arrays, and maybe arrays that are new. -/
structure Extends (m m' : Memory) : Prop where
  slices : m'.slices = m.slices
  allocated : m.allocated ≤ m'.allocated
  arrays : ∀ p, (∀ n, m.allocated ≤ n → p ≠ .allocated n) → m'.arrays p = m.arrays p

/-- A place is new if it was allocated since. -/
def New (m m' : Memory) (p : Place) : Prop :=
  ∃ n, m.allocated ≤ n ∧ n < m'.allocated ∧ p = .allocated n

theorem Extends.trans (hext : m.Extends m') (hext' : m'.Extends m'') : m.Extends m'' where
  slices := hext'.slices.trans hext.slices
  allocated := Nat.le_trans hext.allocated hext'.allocated
  arrays p hp := (hext'.arrays p fun n hn => hp n (Nat.le_trans hext.allocated hn)).trans (hext.arrays p hp)

theorem allocate_extends (length capacity : Nat) (ws : List UInt64) :
    m.Extends (m.allocate length capacity ws).2 where
  slices := rfl
  allocated := Nat.le_succ _
  arrays _ hp := if_neg (hp _ (Nat.le_refl _))

theorem arrays_allocate (length capacity : Nat) (ws : List UInt64) :
    (m.allocate length capacity ws).2.arrays (m.allocate length capacity ws).1.place = ws :=
  if_pos rfl

theorem arrays_make (m : Memory) : m.make.2.arrays m.make.1.place = List.replicate 2 0 :=
  arrays_allocate ..

/-- What was allocated right away or later is new. -/
theorem New.of_allocate {length capacity : Nat} {ws : List UInt64} {p : Place}
    (hkept : (m.allocate length capacity ws).2.Extends m')
    (hplace : p = (m.allocate length capacity ws).1.place ∨ (m.allocate length capacity ws).2.New m' p) :
    m.New m' p := by
  rcases hplace with hplace | ⟨n, hle, hlt, hplace⟩
  · exact ⟨m.allocated, Nat.le_refl _, Nat.lt_of_succ_le hkept.allocated, hplace⟩
  · exact ⟨n, Nat.le_of_succ_le hle, hlt, hplace⟩

/-- Growing appends zero words and leaves all other arrays as they are. -/
structure Grown (m m' : Memory) (s t : Slice) (i : Nat) : Prop where
  kept : m.Extends m'
  place : t.place = s.place ∨ m.New m' t.place
  room : i < t.capacity
  length : t.length = t.capacity
  words : (m'.arrays t.place).length = t.capacity
  zeros : ∃ n, m'.arrays t.place = m.arrays s.place ++ List.replicate n 0

theorem grow_grown (hlength : (m.arrays s.place).length = s.capacity) :
    m.Grown (m.grow g s i).2 s (m.grow g s i).1 i := by
  fun_induction grow g m s i with
  | case1 m s hroom =>
    exact ⟨⟨rfl, Nat.le_refl _, fun _ _ => rfl⟩, .inl rfl, hroom, rfl, hlength, 0, by simp [Slice.full]⟩
  | case2 m s _ ih =>
    have hnext := g.lt_next s.capacity
    have hwords : m.words s.full = m.arrays s.place := List.take_of_length_le (Nat.le_of_eq hlength)
    rw [append_full, hwords, ← List.replicate_succ] at ih ⊢
    have hgrown := ih (by
      rw [arrays_allocate, List.length_append, List.length_replicate, hlength]
      change _ = g.next s.capacity
      omega)
    obtain ⟨hext, hplace, hroom, hfull, hwords', n, hn⟩ := hgrown
    refine ⟨(allocate_extends ..).trans hext, .inr (.of_allocate hext hplace), hroom, hfull, hwords', ?_⟩
    exact ⟨_, by rw [hn, arrays_allocate, List.append_assoc, List.replicate_append_replicate]⟩

/-- Each variable has an array of its own, which its slice shows as a whole. -/
structure Owned (m : Memory) : Prop where
  length : ∀ name, (m.slice name).length = (m.slice name).capacity
  words : ∀ name, (m.arrays (m.slice name).place).length = (m.slice name).capacity
  own : ∀ name, (m.slice name).place = .inline name ∨ ∃ n < m.allocated, (m.slice name).place = .allocated n
  apart : ∀ {name other}, (m.slice name).place = (m.slice other).place → name = other
  empty : ∀ {name}, m.slices name = none → m.arrays (.inline name) = [0, 0]

namespace Owned

variable (howned : m.Owned)
include howned

/-- A set has the members that the array of its variable has. -/
theorem contains_view (name : String) (k : Nat) :
    (m.view name).contains k = contains ⟨some (m.arrays (m.slice name).place)⟩ k := by
  have hlength := howned.length name
  have hwords := howned.words name
  rw [view]
  cases hslice : m.slices name with
  | none =>
    rw [slice, hslice, Option.getD_none, howned.empty hslice, Option.map_none]
    exact (contains_untouched k).trans ((contains_append_zeros [] 2 k).trans (contains_empty k)).symm
  | some s =>
    rw [slice, hslice, Option.getD_some] at hlength hwords ⊢
    rw [Option.map_some, Memory.words, List.take_of_length_le (by omega)]

/-- No array of another variable is new. -/
theorem not_new (hn : m.allocated ≤ i) (name : String) : (m.slice name).place ≠ .allocated i := by
  rcases howned.own name with hplace | ⟨n, hlt, hplace⟩
  · simp [hplace]
  · rw [hplace, Ne, Place.allocated.injEq]
    omega

theorem ne_inline (hne : other ≠ name) : (m.slice other).place ≠ .inline name := by
  rcases howned.own other with hplace | ⟨n, _, hplace⟩
  · simpa [hplace] using hne
  · simp [hplace]

/-- A memory with another slice for one variable keeps the other sets, if the slice shows the array of the
    variable or a new one, and no other array changed. -/
theorem replace (m' : Memory) (hslice : m'.slices name = some t)
    (hslices : ∀ other ≠ name, m'.slices other = m.slices other)
    (hallocated : m.allocated ≤ m'.allocated) (hplace : t.place = (m.slice name).place ∨ m.New m' t.place)
    (hlength : t.length = t.capacity) (hwords : (m'.arrays t.place).length = t.capacity)
    (harrays : ∀ p, p ≠ t.place → p ≠ .inline name → (∀ n, m.allocated ≤ n → p ≠ .allocated n) →
      m'.arrays p = m.arrays p) :
    m'.Owned ∧ (∀ other ≠ name, m'.view other = m.view other) ∧
      ∀ k, (m'.view name).contains k = contains ⟨some (m'.arrays t.place)⟩ k := by
  have hself : m'.slice name = t := by rw [slice, hslice, Option.getD_some]
  have hothers : ∀ other ≠ name, m'.slice other = m.slice other := fun other hne => by
    rw [slice, slice, hslices other hne]
  have hne : ∀ other ≠ name, (m.slice other).place ≠ t.place := by
    intro other hne heq
    rcases hplace with hplace | ⟨n, hn, _, hplace⟩
    · exact hne (howned.apart (heq.trans hplace))
    · exact howned.not_new hn other (heq.trans hplace)
  have hkept : ∀ other ≠ name, m'.arrays (m.slice other).place = m.arrays (m.slice other).place :=
      fun other hother =>
    harrays _ (hne other hother) (howned.ne_inline hother) fun n hn => howned.not_new hn other
  have hown : ∀ x, (m.slice x).place = .inline x ∨
      ∃ n < m'.allocated, (m.slice x).place = .allocated n := fun x =>
    (howned.own x).imp_right (Exists.imp fun _ hn => ⟨Nat.lt_of_lt_of_le hn.1 hallocated, hn.2⟩)
  have howned' : m'.Owned := ?_
  refine ⟨howned', fun x hx => ?_, fun k => by rw [howned'.contains_view, hself]⟩
  · have hkept := hkept x hx
    rw [view, view, hslices x hx]
    cases hs : m.slices x with
    | none => rfl
    | some s =>
      rw [slice, hs, Option.getD_some] at hkept
      rw [Option.map_some, Option.map_some, Memory.words, hkept, Memory.words]
  refine ⟨fun x => ?_, fun x => ?_, fun x => ?_, fun {x y} hxy => ?_, fun {x} hx => ?_⟩
  · by_cases hx : x = name
    · rw [hx, hself, hlength]
    · rw [hothers x hx, howned.length x]
  · by_cases hx : x = name
    · rw [hx, hself, hwords]
    · rw [hothers x hx, hkept x hx, howned.words x]
  · by_cases hx : x = name
    · subst hx
      rw [hself]
      rcases hplace with hplace | ⟨n, _, hn, hplace⟩
      · exact hplace ▸ hown x
      · exact .inr ⟨n, hn, hplace⟩
    · exact hothers x hx ▸ hown x
  · by_cases hx : x = name <;> by_cases hy : y = name
    · rw [hx, hy]
    · rw [hx, hself, hothers y hy] at hxy
      exact absurd hxy.symm (hne y hy)
    · rw [hy, hself, hothers x hx] at hxy
      exact absurd hxy (hne x hx)
    · rw [hothers x hx, hothers y hy] at hxy
      exact howned.apart hxy
  · have hne : x ≠ name := by
      rintro rfl
      cases hslice.symm.trans hx
    have hkept := hkept x hne
    rw [hslices x hne] at hx
    rwa [slice, hx, Option.getD_none, howned.empty hx] at hkept

/-- Adding a key adds it to one set. -/
theorem set (g : Growth) (name : String) (k : Nat) :
    (m.set g name k).Owned ∧ (∀ other ≠ name, (m.set g name k).view other = m.view other) ∧
      ∀ j, ((m.set g name k).view name).contains j = (decide (j = k) || (m.view name).contains j) := by
  have hgrown : m.Grown _ _ _ (k / 64) := grow_grown (g := g) (howned.words name)
  rw [Memory.set]
  generalize m.grow g (m.slice name) (k / 64) = r at hgrown ⊢
  obtain ⟨t, m₁⟩ := r
  obtain ⟨hkept, hplace, hroom, hlength, hwords, n, hzeros⟩ := hgrown
  dsimp only at hkept hplace hroom hlength hwords hzeros ⊢
  have hinserted (j : Nat) : contains ⟨some (updateWord (· ||| bit (k % 64)) (k / 64) (m₁.arrays t.place))⟩ j =
      (decide (j = k) || (m.view name).contains j) := by
    rw [howned.contains_view, ← contains_append_zeros (m.arrays _) n, ← hzeros]
    exact contains_insert ⟨some _⟩ k j
  have hupdated : (updateWord (· ||| bit (k % 64)) (k / 64) (m₁.arrays t.place)).length = t.capacity := by
    rw [length_updateWord (by omega), hwords]
  generalize updateWord (· ||| bit (k % 64)) (k / 64) (m₁.arrays t.place) = ws at hinserted hupdated ⊢
  have harray : ((m₁.point name t).write t.place ws).arrays t.place = ws := if_pos rfl
  obtain ⟨howned', hothers, hself⟩ := howned.replace ((m₁.point name t).write t.place ws) (if_pos rfl)
    (fun other hne => (if_neg hne).trans (congrFun hkept.slices other)) hkept.allocated hplace hlength
    (by rw [harray, hupdated]) fun p hp _ hnew => (if_neg hp).trans (hkept.arrays p hnew)
  exact ⟨howned', hothers, fun j => by rw [hself, harray, hinserted]⟩

/-- Removing a key through the slice of a variable removes it from one set. -/
theorem clear (name : String) (k : Nat) :
    (m.clear (m.slices name) k).Owned ∧ (∀ other ≠ name,
      (m.clear (m.slices name) k).view other = m.view other) ∧
      ∀ j, ((m.clear (m.slices name) k).view name).contains j = (decide (j ≠ k) && (m.view name).contains j) := by
  cases hs : m.slices name with
  | none =>
    refine ⟨howned, fun _ _ => rfl, fun j => ?_⟩
    have hempty : contains ⟨none⟩ j = false := contains_untouched j
    rw [Memory.clear, view, hs, Option.map_none, hempty, Bool.and_false]
  | some s =>
    have hlength := howned.length name
    have hwords := howned.words name
    have hview := howned.contains_view name
    have hslice : m.slice name = s := by rw [slice, hs, Option.getD_some]
    rw [hslice] at hlength hwords hview
    have herased (j : Nat) := contains_erase ⟨some (m.arrays s.place)⟩ k j
    simp only [erase, Option.map_some, ← hview] at herased
    rw [Memory.clear]
    split
    · next hin =>
      rw [if_pos (by omega)] at herased
      have hupdated : (updateWord (· &&& ~~~bit (k % 64)) (k / 64) (m.arrays s.place)).length = s.capacity := by
        rw [length_updateWord (by omega), hwords]
      generalize updateWord (· &&& ~~~bit (k % 64)) (k / 64) (m.arrays s.place) = ws at herased hupdated ⊢
      have harray : (m.write s.place ws).arrays s.place = ws := if_pos rfl
      obtain ⟨howned', hothers, hself⟩ := howned.replace (m.write s.place ws) hs (fun _ _ => rfl) (Nat.le_refl _)
        (.inl (by rw [hslice])) hlength (by rw [harray, hupdated]) fun p hp _ _ => if_neg hp
      exact ⟨howned', hothers, fun j => by rw [hself, harray, herased]⟩
    · next hout =>
      rw [if_neg (by omega)] at herased
      exact ⟨howned, fun _ _ => rfl, fun j => (hview j).trans (herased j)⟩

-- Two variables that had slices of one array would be one set.
example : let m : Memory := ⟨fun _ => some ⟨.allocated 0, 1, 1⟩, fun _ => [2], 1⟩
    (m.view "s").contains 1 = true ∧ ((m.clear (m.slices "t") 1).view "s").contains 1 = false := by decide

/-- A variable becomes the set of a slice of a new array. -/
theorem assign (hkept : m.Extends m') (hnew : m.New m' t.place) (hlength : t.length = t.capacity)
    (hwords : (m'.arrays t.place).length = t.capacity) :
    (m'.assign name t).Owned ∧ (∀ other ≠ name, (m'.assign name t).view other = m.view other) ∧
      ∀ j, ((m'.assign name t).view name).contains j = contains ⟨some (m'.arrays t.place)⟩ j := by
  have harray : (m'.assign name t).arrays t.place = m'.arrays t.place := by
    obtain ⟨n, _, _, hplace⟩ := hnew
    exact if_neg (by simp [hplace])
  obtain ⟨howned', hothers, hself⟩ := howned.replace (m'.assign name t) (if_pos rfl)
    (fun other hne => (if_neg hne).trans (congrFun hkept.slices other)) hkept.allocated (.inr hnew) hlength
    (by rw [harray, hwords]) fun p _ hp hnew => (if_neg hp).trans (hkept.arrays p hnew)
  exact ⟨howned', hothers, fun j => by rw [hself, harray]⟩

/-- The slice of a copy shows a new array with the members of the set. -/
theorem copy (g : Growth) (source : String) : ∃ c m', m.copy g (m.slices source) = (c, m') ∧ m.Extends m' ∧
    m.New m' c.place ∧ c.length = c.capacity ∧ (m'.arrays c.place).length = c.capacity ∧
      ∀ j, contains ⟨some (m'.arrays c.place)⟩ j = (m.view source).contains j := by
  have hmade : (m.make.2.arrays m.make.1.place).length = m.make.1.capacity := congrArg List.length m.arrays_make
  have hgrown : Grown _ _ _ _ ((m.slices source).elim 0 Slice.length) := grow_grown (g := g) hmade
  rw [Memory.copy]
  dsimp only
  generalize m.make.2.grow g m.make.1 ((m.slices source).elim 0 Slice.length) = r at hgrown ⊢
  obtain ⟨c, m₁⟩ := r
  obtain ⟨hkept, hplace, hroom, hlength, hwords, n, hzeros⟩ := hgrown
  dsimp only at hkept hplace hroom hlength hwords hzeros ⊢
  have hall : m.Extends m₁ := (allocate_extends ..).trans hkept
  have hnew : m.New m₁ c.place := .of_allocate hkept hplace
  have hwords' : (m.slices source).elim [] m₁.words = (m.view source).wordList ∧
      (m.view source).wordList.length = (m.slices source).elim 0 Slice.length := by
    have hlength := howned.length source
    have hwords := howned.words source
    have hkept := hall.arrays _ fun n hn => howned.not_new hn source
    rw [wordList, view]
    cases hs : m.slices source with
    | none => exact ⟨rfl, rfl⟩
    | some s =>
      rw [slice, hs, Option.getD_some] at hlength hwords hkept
      refine ⟨congrArg (List.take s.length) hkept, ?_⟩
      simp only [Option.map_some, Option.getD_some, Option.elim_some, Memory.words, List.length_take]
      omega
  rw [hwords'.1]
  rw [← hwords'.2] at hroom
  have hblank : m₁.arrays c.place = List.replicate (2 + n) 0 := by
    rw [hzeros, arrays_make, List.replicate_append_replicate]
  rw [hblank, List.length_replicate] at hwords
  rw [hblank, List.drop_replicate]
  have harray : (m₁.write c.place ((m.view source).wordList ++
      List.replicate (2 + n - (m.view source).wordList.length) 0)).arrays c.place = _ := if_pos rfl
  refine ⟨c, _, rfl, ⟨hall.slices, hall.allocated, fun p hp => (if_neg ?_).trans (hall.arrays p hp)⟩, hnew,
    hlength, ?_, fun j => ?_⟩
  · obtain ⟨i, hi, _, hplace⟩ := hnew
    exact hplace ▸ hp i hi
  · rw [harray, List.length_append, List.length_replicate]
    omega
  · rw [harray, contains_append_zeros]
    rfl

/-- Keys that are not negative are all accepted, and they are added to one set. -/
theorem setAll (g : Growth) (name : String) {ks : List Int} (hks : ∀ k ∈ ks, 0 ≤ k) :
    ∃ m', m.setAll g name ks = (m', .ok ()) ∧ m'.Owned ∧ (∀ other ≠ name, m'.view other = m.view other) ∧
      ∀ j, (m'.view name).contains j = (decide (j ∈ ks.map Int.toNat) || (m.view name).contains j) := by
  induction ks generalizing m with
  | nil => exact ⟨m, rfl, howned, fun _ _ => rfl, by simp⟩
  | cons k ks ih =>
    have hkey : key k = .ok k.toNat := if_neg (Int.not_lt.mpr (hks k List.mem_cons_self))
    obtain ⟨howned₁, hothers₁, hself₁⟩ := howned.set g name k.toNat
    obtain ⟨m', hm', howned', hothers', hself'⟩ := ih howned₁ fun k' hk' => hks k' (List.mem_cons_of_mem _ hk')
    refine ⟨m', by rw [Memory.setAll, hkey]; exact hm', howned', fun x hx => (hothers' x hx).trans (hothers₁ x hx),
      fun j => ?_⟩
    rw [hself', hself₁, Bool.or_left_comm, ← Bool.or_assoc]
    simp

end Owned

/-- Nothing is written to at first. -/
theorem owned_empty : Owned {} :=
  ⟨fun _ => rfl, fun _ => rfl, fun _ => .inl rfl, fun h => Place.inline.inj h, fun _ => rfl⟩

end Memory

end TreeCompiler.BitSet
